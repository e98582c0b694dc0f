import RustyBrain.Daemon.Consolidation

/-!
# rusty-brain — deduplication loses nothing

Automatic deduplication archives a memory only while another one stands that says the same. It
plans on reads that may be stale; the transaction that archives reads both memories again,
compares them field by field and takes the pointer only from a current memory to a current
one. So it does not matter what other passes, other suppressions or people did since the plan.

## Results

* `supersedeDuplicate_spec` — a deduplication leaves the store alone, or retires one of two
  memories that say the same and leaves the other.
-/

namespace RustyBrain.Daemon

open Store Engine Transaction Sessions Interleaving List

variable {ns : Namespace} {home : Namespace} {n : MemoryNote} {id new old : MemoryId}
  {r : MemoryRow} {op : Op}

/-! ## What a memory says -/

/-- The authored fields that two duplicates share. -/
structure Authored where
  content : Text
  context : Text
  memoryType : MemoryType
  keywords : List Text
  tags : List Text
  relatedFiles : List Text
  anchors : List MemoryAnchor
  trustClass : TrustClass
  confidence : ℚ
  deriving DecidableEq

/-- The authored fields of a note. -/
def authored (n : MemoryNote) : Authored where
  content := n.content
  context := n.context
  memoryType := n.memoryType
  keywords := n.keywords
  tags := n.tags
  relatedFiles := n.relatedFiles
  anchors := n.anchors
  trustClass := n.trustClass
  confidence := n.confidence

/-- The memory `id` is the stored row `r` of the namespace, and says `a`. -/
structure Says (db : Db) (ns : Namespace) (a : Authored) (id : MemoryId) (r : MemoryRow) : Prop where
  find : db.find id = some r
  ns : Namespace.parseDbString r.ns = some ns
  content : r.content = a.content
  context : r.context = a.context
  memoryType : r.memoryType = a.memoryType
  keywords : JsonStrings.decode r.keywords = some a.keywords
  tags : JsonStrings.decode r.tags = some a.tags
  relatedFiles : JsonStrings.decode r.relatedFiles = some a.relatedFiles
  anchors : db.loadAnchors id = .ok a.anchors
  trustClass : r.trustClass = a.trustClass
  confidence : r.confidence = a.confidence

/-- An active memory of the namespace that says `a`. -/
def ActiveMember (db : Db) (ns : Namespace) (a : Authored) (id : MemoryId) : Prop :=
  ∃ r, Says db ns a id r ∧ r.archivedAt = none

/-- What a lookup hands out is what the memory says. -/
theorem says_of_getMemory {db : Db} (h : db.getMemory id = .ok (some n)) :
    ∃ r, Says db n.ns (authored n) id r ∧ Decodes r n := by
  rcases Db.getMemory_ok h with ⟨hNone, -⟩ | ⟨r, note, hSome, hFind, hNote, hDecodes⟩
  · cases hNone
  · cases hSome
    refine ⟨r, ?_, hDecodes⟩
    have hId : r.memoryId = id := (Db.find_some hFind).2
    simp only [Db.rowToNote, except_bind_ok] at hNote
    obtain ⟨bare, hBare, links, -, anchors, hAnchors, hNote⟩ := hNote
    cases hNote
    have hBareId : bare.id = id := hDecodes.id.trans hId
    rw [hBareId] at hAnchors
    -- the list of related files is the one column that `Decodes` does not speak about
    have hFiles : JsonStrings.decode r.relatedFiles = some bare.relatedFiles := by
      simp only [rowToBareNote, except_bind_ok] at hBare
      obtain ⟨_, -, _, -, _, -, _, -, _, -, files, hFiles, _, -, _, -, hBare⟩ := hBare
      cases hBare
      exact parseJsonArray_ok_iff.mp hFiles
    exact
      { find := hFind
        ns := hDecodes.ns
        content := hDecodes.content.symm
        context := hDecodes.context.symm
        memoryType := hDecodes.memoryType.symm
        keywords := hDecodes.keywords
        tags := hDecodes.tags
        relatedFiles := hFiles
        anchors := hAnchors
        trustClass := hDecodes.trustClass.symm
        confidence := hDecodes.confidence.symm }

/-! ## What a deduplication does -/

/-- The link was made by the similarity linker. -/
def SimilarityLink (l : LinkRow) : Prop := l.linkType = .references ∧ l.reason = similarReason

/-- The link has this memory at one of its ends. -/
def Touches (l : LinkRow) (id : MemoryId) : Prop := l.sourceId = id ∨ l.targetId = id

/-- Why a deduplication may retire `id`: there is another memory of the namespace that says the
same and is active and unsuperseded; neither has a link that is not a similarity link; and not
both are curated. -/
def Justified (db : Db) (id target : MemoryId) : Prop :=
  target ≠ id ∧ ∃ ns a r s, Says db ns a id r ∧ Says db ns a target s ∧ s.Current ∧
    (∀ l ∈ db.links, Touches l id ∨ Touches l target → SimilarityLink l) ∧
    ¬ (r.humanCurated = true ∧ s.humanCurated = true)

section Spec

variable {db db' : Db}

theorem getInNamespace_note (h : Runs (getInNamespace ns id) db n db') :
    db' = db ∧ n.ns = ns ∧ db.getMemory id = .ok (some n) := by
  simp only [getInNamespace, runs_bind, runs_get, runs_attempt] at h
  obtain ⟨_, _, ⟨rfl, rfl⟩, found, _, ⟨hGet, rfl⟩, h⟩ := h
  cases found with
  | none => exact absurd h runs_throw
  | some note =>
    simp only [runs_bind, runs_require, runs_pure] at h
    obtain ⟨_, _, ⟨hNs, rfl⟩, rfl, rfl⟩ := h
    exact ⟨rfl, hNs, hGet⟩

/-- Equivalent notes say the same, and their links are similarity links. -/
theorem automaticallyEquivalent_spec {a b : MemoryNote} (h : db.automaticallyEquivalent a b = true) :
    authored a = authored b ∧
      ∀ l ∈ db.links, Touches l a.id ∨ Touches l b.id → SimilarityLink l := by
  unfold Db.automaticallyEquivalent at h
  rw [Bool.and_eq_true, decide_eq_true_eq, all_eq_true] at h
  obtain ⟨⟨-, hContent, -, hContext, hType, hKeywords, hTags, hFiles, hAnchors, hConfidence, hTrust, -⟩,
    hLinks⟩ := h
  refine ⟨?_, fun l hl hTouches => ?_⟩
  · simp only [authored, hContent, hContext, hType, hKeywords, hTags, hFiles, hAnchors, hConfidence,
      hTrust]
  · have hEither := hLinks l hl
    rw [Bool.or_eq_true, Bool.not_eq_true', decide_eq_false_iff_not, decide_eq_true_eq] at hEither
    refine hEither.resolve_left fun hNone => hNone ?_
    rcases hTouches with (h | h) | (h | h)
    · exact .inl h
    · exact .inr (.inr (.inl h))
    · exact .inr (.inl h)
    · exact .inr (.inr (.inr h))

/-- **Key lemma:** a deduplication leaves the store alone, or retires one of two memories for
the other, and the retirement is justified by what is stored then. -/
theorem supersedeDuplicate_spec {now : Int} {out : Option DuplicateSupersede}
    (hIds : db.ids.Nodup) (h : Runs (supersedeDuplicate now ns old new) db out db') :
    db' = db ∨ ∃ id target, Justified db id target ∧ db' = db.retired id target now := by
  simp only [supersedeDuplicate, runs_bind, runs_get] at h
  obtain ⟨o, d, hOld, n, d', hNew, _, _, ⟨rfl, rfl⟩, h⟩ := h
  obtain ⟨rfl, hOldNs, hOldGet⟩ := getInNamespace_note hOld
  obtain ⟨rfl, hNewNs, hNewGet⟩ := getInNamespace_note hNew
  split at h
  · exact .inl (runs_pure.mp h).2.symm
  · next hGuard =>
    rw [not_or, Bool.not_eq_false] at hGuard
    obtain ⟨hEquivalent, hCurated⟩ := hGuard
    obtain ⟨hSame, hLinks⟩ := automaticallyEquivalent_spec hEquivalent
    obtain ⟨ro, hSaysOld, hDecOld⟩ := says_of_getMemory hOldGet
    obtain ⟨rn, hSaysNew, hDecNew⟩ := says_of_getMemory hNewGet
    rw [hOldNs, hSame] at hSaysOld
    rw [hNewNs] at hSaysNew
    have hOldId : o.id = old := hDecOld.id.trans (Db.find_some hSaysOld.find).2
    have hNewId : n.id = new := hDecNew.id.trans (Db.find_some hSaysNew.find).2
    rw [hOldId, hNewId] at hLinks
    rw [hDecOld.humanCurated, hDecNew.humanCurated] at hCurated
    simp only [runs_bind, runs_pure] at h
    obtain ⟨_, d₁, hSup, _, d₂, hSeq, -, rfl⟩ := h
    obtain ⟨hne, ⟨s, hs, hsId, hsCurrent⟩, -, rfl⟩ := supersedeInTx_runs hSup
    obtain ⟨-, rfl⟩ := latestOplogSeq_runs hSeq
    have hFindTarget := Db.find_of_mem hIds hs
    rw [hsId] at hFindTarget
    -- the curated one of the two is the target, else the one that came second
    cases hOldCurated : o.humanCurated with
    | true =>
      rw [hOldCurated] at hFindTarget hne
      simp only [if_true] at hFindTarget hne
      have hEq : s = ro := Option.some.inj (hFindTarget.symm.trans hSaysOld.find)
      refine .inr ⟨new, old, ⟨fun hEq => hne hEq.symm, ns, authored n, rn, ro, hSaysNew, hSaysOld,
        hEq ▸ hsCurrent, fun l hl hTouches => hLinks l hl hTouches.symm, fun hBoth => ?_⟩, ?_⟩
      · exact hCurated ⟨hBoth.2, hBoth.1⟩
      · simp only [if_true]
    | false =>
      rw [hOldCurated] at hFindTarget hne
      simp only [Bool.false_eq_true, if_false] at hFindTarget hne
      have hEq : s = rn := Option.some.inj (hFindTarget.symm.trans hSaysNew.find)
      refine .inr ⟨old, new, ⟨fun hEq => hne hEq.symm, ns, authored n, ro, rn, hSaysOld, hSaysNew,
        hEq ▸ hsCurrent, hLinks, hCurated⟩, ?_⟩
      simp only [Bool.false_eq_true, if_false]

end Spec

/-! ## What is left of the memories that are there -/

/-- The columns that say something are the same. -/
structure SameWords (r s : MemoryRow) : Prop where
  ns : s.ns = r.ns
  content : s.content = r.content
  context : s.context = r.context
  memoryType : s.memoryType = r.memoryType
  keywords : s.keywords = r.keywords
  tags : s.tags = r.tags
  relatedFiles : s.relatedFiles = r.relatedFiles
  trustClass : s.trustClass = r.trustClass
  confidence : s.confidence = r.confidence

theorem SameWords.refl (r : MemoryRow) : SameWords r r :=
  ⟨rfl, rfl, rfl, rfl, rfl, rfl, rfl, rfl, rfl⟩

theorem SameWords.trans {s t : MemoryRow} (h : SameWords r s) (h' : SameWords s t) :
    SameWords r t :=
  ⟨h'.ns.trans h.ns, h'.content.trans h.content, h'.context.trans h.context,
    h'.memoryType.trans h.memoryType, h'.keywords.trans h.keywords, h'.tags.trans h.tags,
    h'.relatedFiles.trans h.relatedFiles, h'.trustClass.trans h.trustClass,
    h'.confidence.trans h.confidence⟩

/-- The memories that `spare` selects are still there and say the same. -/
def Retains (spare : MemoryId → Prop) (db db' : Db) : Prop :=
  ∀ id r, spare id → db.find id = some r →
    (∃ s, db'.find id = some s ∧ SameWords r s) ∧ db'.loadAnchors id = db.loadAnchors id

instance (spare : MemoryId → Prop) : IsPreorder Db (Retains spare) where
  refl := fun _ _ r _ hFind => ⟨⟨r, hFind, .refl r⟩, rfl⟩
  trans := by
    intro a b c h₁ h₂ id r hSpare hFind
    obtain ⟨⟨s, hs, hSame⟩, hAnchors⟩ := h₁ id r hSpare hFind
    obtain ⟨⟨t, ht, hSame'⟩, hAnchors'⟩ := h₂ id s hSpare hs
    exact ⟨⟨t, ht, hSame.trans hSame'⟩, hAnchors'.trans hAnchors⟩

section Retains

variable {spare : MemoryId → Prop} {db db' : Db} {n : MemoryNote}

/-- A member that is retained is a member as long as it is active. -/
theorem Says.retained {a : Authored} (h : Says db ns a id r)
    (hRetains : Retains spare db db') (hSpare : spare id) : ∃ s, Says db' ns a id s := by
  obtain ⟨⟨s, hs, hSame⟩, hAnchors⟩ := hRetains id r hSpare h.find
  exact ⟨s,
    { find := hs
      ns := hSame.ns ▸ h.ns
      content := hSame.content.trans h.content
      context := hSame.context.trans h.context
      memoryType := hSame.memoryType.trans h.memoryType
      keywords := hSame.keywords ▸ h.keywords
      tags := hSame.tags ▸ h.tags
      relatedFiles := hSame.relatedFiles ▸ h.relatedFiles
      anchors := hAnchors.trans h.anchors
      trustClass := hSame.trustClass.trans h.trustClass
      confidence := hSame.confidence.trans h.confidence }⟩

/-- A change to other tables. -/
theorem retains_of_same (hMemories : db'.memories = db.memories) (hAnchors : db'.anchors = db.anchors) :
    Retains spare db db' := by
  intro id r _ hFind
  refine ⟨⟨r, ?_, .refl r⟩, ?_⟩
  · unfold Db.find
    rw [hMemories]
    exact hFind
  · unfold Db.loadAnchors
    rw [hAnchors]

theorem appended_retains (op : OplogOp) (id : MemoryId) (now : Int) (details : OplogDetails) :
    Retains spare db (db.appended op id now details) := by
  refine retains_of_same (Db.appended_memories ..) ?_
  unfold Db.appended
  split <;> rfl

theorem appendOplog_retains (op : OplogOp) (id : MemoryId) (now : Int) (details : OplogDetails) :
    Within (Retains spare) (appendOplog op id now details) := by
  intro d u d' h
  rw [← runs_appendOplog.mp h]
  exact appended_retains _ _ _ _

theorem setMemories_retains {p : MemoryRow → Prop} [DecidablePred p] {f : MemoryRow → MemoryRow}
    (hId : ∀ r, (f r).memoryId = r.memoryId) (hWords : ∀ r, SameWords r (f r)) :
    Retains spare db (db.setMemories p f) := by
  intro id r _ hFind
  refine ⟨⟨if p r then f r else r, ?_, ?_⟩, rfl⟩
  · rw [Db.find_setMemories db (fun r _ _ => hId r) id, hFind]
    rfl
  · split
    · exact hWords r
    · exact .refl r

theorem retired_retains (old new : MemoryId) (now : Int) :
    Retains spare db (db.retired old new now) := by
  have hSet : Retains spare db (db.setMemories (Takes old) (MemoryRow.superseded new now)) :=
    setMemories_retains (p := Takes old) (f := MemoryRow.superseded new now) (fun _ => rfl)
      fun _ => ⟨rfl, rfl, rfl, rfl, rfl, rfl, rfl, rfl, rfl⟩
  have hDrop : Retains spare (db.setMemories (Takes old) (MemoryRow.superseded new now))
      ((db.setMemories (Takes old) (MemoryRow.superseded new now)).dropVector old) :=
    retains_of_same rfl rfl
  exact trans_of (Retains spare) (trans_of (Retains spare) hSet hDrop) (appended_retains _ _ _ _)

theorem archiveWithDetails_retains (now : Int) (id : MemoryId) (details : OplogDetails)
    (protect : Bool) (ns : Option Namespace) :
    Within (Retains spare) (archiveWithDetails now id details protect ns) := by
  unfold archiveWithDetails
  refine Within.bind ?_ fun affected => ?_
  · intro d k d' h
    obtain ⟨-, -, -, rfl⟩ := runs_updateMemories.mp h
    exact setMemories_retains (fun _ => rfl) fun _ => ⟨rfl, rfl, rfl, rfl, rfl, rfl, rfl, rfl, rfl⟩
  · split
    · refine Within.bind ?_ fun _ => (appendOplog_retains _ _ _ _).bind fun _ => .pure _
      intro d u d' h
      rw [← runs_deleteVectorRow.mp h]
      exact retains_of_same rfl rfl
    · exact .pure _

/-- An insert leaves the memories of all other ids. -/
theorem insertMemoryTxBody_retains (now : Int) (n : MemoryNote) (e : Option Embedding) :
    Within (Retains fun id => id ≠ n.id) (insertMemoryTxBody now n e) := by
  intro d u d' h id r hne hFind
  have hAdds := insertMemoryTxBody_adds h
  refine ⟨⟨r, ?_, .refl r⟩, ?_⟩
  · unfold Db.find at hFind ⊢
    rw [hAdds.memories, find?_append, hFind]
    rfl
  · -- the new anchors are all of the new memory
    obtain ⟨rows, hRows, hAnchors⟩ := hAdds.rows
    have hNone : rows.filter (fun a => a.memoryId = id) = [] := by
      refine filter_eq_nil_iff.mpr fun a ha hId => hne ?_
      rw [← of_decide_eq_true hId, hRows.memoryId ha]
    unfold Db.loadAnchors
    rw [hAnchors, filter_append, hNone, append_nil]

/-- A new id is nobody's, so that leaving all others leaves all. -/
theorem Retains.all (h : Retains (fun id => id ≠ n.id) db db') (hNew : n.id ∉ db.ids) :
    Retains (fun _ => True) db db' := by
  intro id r _ hFind
  refine h id r ?_ hFind
  rintro rfl
  exact hNew (Db.mem_ids.mpr ⟨r, Db.find_some hFind⟩)

/-- What people do: they remember, replace, archive and merge memories. -/
def userOp : Op → Bool
  | .insertMemory .. => true
  | .insertSupersedingMemory .. => true
  | .supersede .. => true
  | .archiveMemory .. => true
  | .reviewMerge .. => true
  | _ => false

theorem supersedeInTx_retains (old new : MemoryId) (now : Int) :
    Within (Retains spare) (supersedeInTx old new now) := by
  intro d u d' h
  obtain ⟨-, -, -, rfl⟩ := supersedeInTx_runs h
  exact retired_retains _ _ _

/-- Whatever people do, the memories that are there say what they said. -/
theorem userOp_retains {env : Env} (hUser : userOp op = true) (h : Runs (op.body env) db () db') :
    Retains (fun _ => True) db db' := by
  cases op with
  | insertMemory now n e =>
    obtain ⟨_, _, hValid, hBody⟩ := runs_bind.mp h
    obtain rfl := validateNote_runs hValid
    exact (insertMemoryTxBody_retains now n e _ _ _ hBody).all (insertMemoryTxBody_adds hBody).new
  | insertSupersedingMemory now n e old allow =>
    obtain ⟨_, h⟩ := runs_discard.mp h
    obtain ⟨_, _, -, -, hBody, -⟩ := insertSupersedingMemory_runs h
    exact Retains.all (insertSupersedingMemory_within (insertMemoryTxBody_retains now n e)
      (supersedeInTx_retains old n.id now) _ _ _ h) (insertMemoryTxBody_adds hBody).new
  | supersede now old new => exact supersedeInTx_retains old new now db () db' h
  | archiveMemory now id =>
    exact (archiveWithDetails_retains now id .empty false none).bind (fun _ => .pure _) db () db' h
  | reviewMerge ns a b minSimilarity n e details allow now =>
    obtain ⟨d, d', hBody, hState, hLog⟩ := reviewMerge_leaves h
    -- the new row, the copied links, the two retirements, and the records of the review
    have hInsert := insertMemoryTxBody_retains now.secs n e _ _ _ hBody
    have hLinks : Retains (fun id => id ≠ n.id) d (d.copied n.id a b) := retains_of_same rfl rfl
    have hRetired : Retains (fun id => id ≠ n.id) (d.copied n.id a b) _ := trans_of (Retains _)
      (retired_retains a n.id now.secs) (retired_retains b n.id now.secs)
    refine Retains.all ?_ (insertMemoryTxBody_adds hBody).new
    refine trans_of (Retains _) hInsert (trans_of (Retains _) hLinks (trans_of (Retains _) hRetired ?_))
    rw [← runs_insertOplogRow.mp hLog, ← runs_modify.mp hState]
    exact retains_of_same rfl rfl
  | _ => cases hUser

end Retains

/-! ## Runs of deduplications -/

/-- An automatic deduplication: a pass of the consolidation job, or the suppression after a
hook wrote a memory. -/
inductive Deduplication where
  | pass (cfg : ConsolidationConfig)
  | suppression (engine : MemoryEngine) (ns : Namespace) (newId : MemoryId)

/-- The session of a deduplication. -/
def Deduplication.session (env : Env) (draws : Draws) : Deduplication → ClientM Unit
  | .pass cfg => do
    let _ ← runConsolidation env draws cfg
    pure ()
  | .suppression engine ns newId => do
    let _ ← suppressHookNearDuplicates env draws engine ns newId
    pure ()

/-- Deduplications one after the other; one that fails does not stop the next. -/
def runDeduplications (env : Env) : List (Deduplication × Draws) → ClientM Unit
  | [] => pure ()
  | (task, draws) :: rest => do
    let _ ← attempted (task.session env draws)
    runDeduplications env rest

/-- The operation is a deduplication. -/
def isDuplicate : Op → Bool
  | .supersedeDuplicate .. => true
  | _ => false

/-- The steps of a run that deduplicate: the writes of the deduplications at hand, and what
other passes and suppressions wrote in between. -/
def Deduplicates : Event Db Op Deed → Prop
  | .wrote _ _ _ => True
  | .other op _ _ => isDuplicate op = true
  | .looked _ _ => False

/-- The memory is there and active. -/
def Active (db : Db) (id : MemoryId) : Prop := ∃ r, db.find id = some r ∧ r.archivedAt = none

/-- Every memory that a step archives was retired for a target that justifies it. -/
def RetiresJustified (db db' : Db) : Prop :=
  ∀ id, Active db id → ¬ Active db' id →
    ∃ target s, Justified db id target ∧ db'.find id = some s ∧ s.supersededBy = some target

section Runs

variable {env : Env} {db db' : Db} {now : Int} {ns : Namespace} {a : Authored}

/-- Retiring one memory leaves all others active. -/
theorem active_retired {other target : MemoryId} (hne : other ≠ id) :
    Active (db.retired id target now) other ↔ Active db other := by
  unfold Active
  rw [find_retired now hne]

/-- What retiring leaves of the memory itself. -/
theorem find_retired_self (now : Int) (target : MemoryId) (hFind : db.find id = some r)
    (hActive : r.archivedAt = none) :
    ∃ s, (db.retired id target now).find id = some s ∧
      (s.archivedAt = none ∨ s.supersededBy = some target) := by
  rw [Db.find_retired, hFind, Option.map_some]
  refine ⟨_, rfl, ?_⟩
  split
  · exact .inr rfl
  · exact .inl hActive

/-- One deduplication: what it archives, it archives for a target that justifies it. -/
theorem supersedeDuplicate_justified (hIds : db.ids.Nodup)
    (h : Runs (Op.body env (.supersedeDuplicate now ns old new)) db () db') :
    RetiresJustified db db' := by
  obtain ⟨_, hRun⟩ := runs_discard.mp h
  intro id hActive hGone
  rcases supersedeDuplicate_spec hIds hRun with rfl | ⟨gone, target, hJustified, rfl⟩
  · exact absurd hActive hGone
  · by_cases hId : id = gone
    · subst hId
      obtain ⟨r, hFind, hNone⟩ := hActive
      obtain ⟨s, hs, hEither⟩ := find_retired_self now target hFind hNone
      refine ⟨target, s, hJustified, hs, hEither.resolve_left fun hStill => hGone ⟨s, hs, hStill⟩⟩
    · exact absurd ((active_retired hId).mpr hActive) hGone

/-- **Key lemma:** a deduplication leaves every class of memories that say the same an active
member. -/
theorem supersedeDuplicate_member (hIds : db.ids.Nodup)
    (h : Runs (Op.body env (.supersedeDuplicate now ns old new)) db () db')
    (hMember : ∃ id, ActiveMember db home a id) : ∃ id, ActiveMember db' home a id := by
  obtain ⟨_, hRun⟩ := runs_discard.mp h
  rcases supersedeDuplicate_spec hIds hRun with rfl | ⟨gone, target, hJustified, rfl⟩
  · exact hMember
  · -- a member that is not retired stays, and the retired one leaves its target
    have hStays : ∀ id r, id ≠ gone → Says db home a id r → r.archivedAt = none →
        ActiveMember (db.retired gone target now) home a id := by
      intro id r hne hSays hNone
      have hRetains : Retains (fun _ => True) db (db.retired gone target now) :=
        retired_retains gone target now
      obtain ⟨s, hSays'⟩ := hSays.retained hRetains trivial
      have hSame : some s = some r := by
        rw [← hSays'.find, find_retired now hne, hSays.find]
      rw [← Option.some.inj hSame] at hNone
      exact ⟨s, hSays', hNone⟩
    obtain ⟨id, r, hSays, hNone⟩ := hMember
    by_cases hId : id = gone
    · subst hId
      obtain ⟨hne, ns', a', r', s, hOld, hTarget, hCurrent, -, -⟩ := hJustified
      -- the memory says one thing only
      have hRow : r' = r := Option.some.inj (hOld.find.symm.trans hSays.find)
      subst hRow
      have hNs : ns' = home := Option.some.inj (hOld.ns.symm.trans hSays.ns)
      subst hNs
      have hSame : a' = a := by
        cases a'
        cases a
        have hAnchors := Except.ok.inj (hOld.anchors.symm.trans hSays.anchors)
        have hKeywords := Option.some.inj (hOld.keywords.symm.trans hSays.keywords)
        have hTags := Option.some.inj (hOld.tags.symm.trans hSays.tags)
        have hFiles := Option.some.inj (hOld.relatedFiles.symm.trans hSays.relatedFiles)
        simp only at hAnchors hKeywords hTags hFiles
        simp only [Authored.mk.injEq]
        exact ⟨hOld.content.symm.trans hSays.content, hOld.context.symm.trans hSays.context,
          hOld.memoryType.symm.trans hSays.memoryType, hKeywords, hTags, hFiles, hAnchors,
          hOld.trustClass.symm.trans hSays.trustClass, hOld.confidence.symm.trans hSays.confidence⟩
      subst hSame
      exact ⟨target, hStays target s hne hTarget hCurrent.1⟩
    · exact ⟨id, hStays id r hId hSays hNone⟩

/-- The only writes of a run of deduplications are justified retirements that leave every class
a member. -/
def DedupRule (_ : Deed) (s s' : Db) : Prop :=
  RetiresJustified s s' ∧
    ∀ home a, (∃ id, ActiveMember s home a id) → ∃ id, ActiveMember s' home a id

theorem duplicatesKeep_dedupRule : DuplicatesKeep env DedupRule := by
  intro now ns old new s s' hWf hRun
  exact ⟨supersedeDuplicate_justified hWf.ids hRun,
    fun _ _ hMember => supersedeDuplicate_member hWf.ids hRun hMember⟩

/-- The induction is on the deduplications still to come. -/
theorem runDeduplications_keeps (env : Env) (tasks : List (Deduplication × Draws)) :
    Keeps env DedupRule (runDeduplications env tasks) := by
  induction tasks with
  | nil => exact .pure _
  | cons task rest ih =>
    obtain ⟨task, draws⟩ := task
    refine Follows.bind (Follows.attempted ?_) fun _ => ih
    cases task with
    | pass cfg => exact (runConsolidation_keeps duplicatesKeep_dedupRule cfg).bind fun _ => .pure _
    | suppression engine ns newId =>
      exact (suppressHookNearDuplicates_keeps duplicatesKeep_dedupRule engine ns newId).bind
        fun _ => .pure _

/-- A deduplication by another pass is one as well, committed or rolled back. -/
theorem other_dedupRule (hWf : db.Wf) (hOp : isDuplicate op = true) :
    DedupRule .read db (op.run env db) := by
  unfold Op.run
  rcases commit_cases (op.body env) db with ⟨u, db', hRun, hEq⟩ | ⟨e, hEq⟩
  · rw [hEq]
    cases op with
    | supersedeDuplicate now ns old new =>
      exact duplicatesKeep_dedupRule now ns old new db db' hWf hRun
    | _ => cases hOp
  · rw [hEq]
    exact ⟨fun id hActive hGone => absurd hActive hGone, fun _ _ hMember => hMember⟩

/-- A person's operation leaves every member of a class that it does not retire. -/
theorem userOp_member (hUser : userOp op = true)
    (hSpares : ∀ id, ActiveMember db home a id → Active (op.run env db) id)
    (hMember : ∃ id, ActiveMember db home a id) : ∃ id, ActiveMember (op.run env db) home a id := by
  obtain ⟨id, r, hSays, hNone⟩ := hMember
  have hActive := hSpares id ⟨r, hSays, hNone⟩
  revert hActive
  unfold Op.run
  rcases commit_cases (op.body env) db with ⟨u, db', hRun, hEq⟩ | ⟨e, hEq⟩
  · rw [hEq]
    rintro ⟨s, hFind, hStill⟩
    obtain ⟨s', hSays'⟩ := hSays.retained (userOp_retains hUser hRun) trivial
    rw [Option.some.inj (hFind.symm.trans hSays'.find)] at hStill
    exact ⟨id, s', hSays', hStill⟩
  · rw [hEq]
    exact fun _ => ⟨id, r, hSays, hNone⟩

end Runs

/-- **Key result:** in every run of deduplications, whatever other clients do in between, a
memory that a deduplication archives is retired for an active memory of its namespace that says
the same, has only similarity links as it has itself, and is not curated if it is. And if in
between there are only further deduplications and what people do, and nobody archives or
supersedes a member of a class, the class never runs out of active members. -/
theorem deduplication_loses_nothing (env : Env) (tasks : List (Deduplication × Draws)) (db : Db)
    (hWf : db.Wf) (schedule : List (List Op)) :
    let w := (outcome (runDeduplications env tasks) ⟨db, schedule, []⟩).2
    (∀ e ∈ w.trace, Deduplicates e → RetiresJustified e.before e.after) ∧
    ∀ ns a, (∃ id, ActiveMember db ns a id) →
      (∀ op t t', .other op t t' ∈ w.trace → isDuplicate op = true ∨
        (userOp op = true ∧ ∀ id, ActiveMember t ns a id → Active t' id)) →
      (∃ id, ActiveMember w.state ns a id) ∧
        ∀ e ∈ w.trace, ∃ id, ActiveMember e.after ns a id := by
  intro w
  have hRun := runDeduplications_keeps env tasks db ⟨db, schedule, []⟩ (conducted_start hWf schedule)
  have hEvery := hRun.every (fun _ _ ht => Op.run_wf ht) hWf
  refine ⟨fun e he hDedup => ?_, fun ns a hMember hOthers => ?_⟩
  · cases e with
    | looked key t => cases hDedup
    | wrote key t t' => exact (hRun.own key t t' he).2.2.1
    | other op t t' =>
      rw [show t' = op.run env t from hRun.path.other_after he]
      exact (other_dedupRule (hEvery _ he).1 hDedup).1
  · refine (hRun.path.every (I := fun d => ∃ id, ActiveMember d ns a id) ?_ ?_ hMember).imp_right
      fun hAll e he => (hAll e he).2
    · intro op t t' hMem ht
      rw [show t' = op.run env t from hRun.path.other_after hMem]
      rcases hOthers op t t' hMem with hDedup | ⟨hUser, hSpares⟩
      · exact (other_dedupRule (hEvery _ hMem).1 hDedup).2 ns a ht
      · rw [show t' = op.run env t from hRun.path.other_after hMem] at hSpares
        exact userOp_member hUser hSpares ht
    · intro key t t' hMem ht
      exact (hRun.own key t t' hMem).2.2.2 ns a ht

/-- Three memories that say the same. -/
def twinStore : Db :=
  storeAfter .blank 2 ([1, 2, 3].map fun id =>
    .insertMemory 0 (.plain id) (some [1, 0]))

/-- A pass over them, at a clock that stands still. Before its second access another client
retires the third for the first. -/
def twinPass : World Db Op Deed :=
  (outcome (runDeduplications .blank [(.pass {}, ⟨fun _ => ⟨100, 0⟩, fun _ => ⟨9⟩⟩)])
    ⟨twinStore, [[], [.supersedeDuplicate 50 .global ⟨3⟩ ⟨1⟩]], []⟩).2

/-- The event is none of another client, or a deduplication by it. -/
def dedupsIfOther : Event Db Op Deed → Bool
  | .other op _ _ => isDuplicate op
  | _ => true

/-- What both say. -/
def twinSays : Authored := authored (.plain 1)

/-- The pass archives the second one and the other client the third, and the class of the three
keeps an active member. -/
theorem deduplication_loses_nothing_twins :
    (twinPass.state.memories.filter fun r => r.archivedAt.isSome).map MemoryRow.memoryId =
        [⟨2⟩, ⟨3⟩] ∧
      twinPass.trace.countP (fun e => e.IsOther) = 1 ∧
      ∃ id, ActiveMember twinPass.state .global twinSays id := by
  refine ⟨by decide +kernel, by decide +kernel, ?_⟩
  have hReach : Reachable .blank (fun _ => True) twinStore :=
    storeAfter_reachable fun _ _ => trivial
  have hWf : twinStore.Wf := hReach.wf
  have hMember : ∃ id, ActiveMember twinStore .global twinSays id := by
    have hNote : (twinStore.getMemory ⟨1⟩).toOption.map (fun found => found.any fun n =>
        n.ns = .global ∧ authored n = twinSays ∧ n.archivedAt = none) = some true := by decide +kernel
    obtain ⟨found, hGet, hAny⟩ := except_toOption_map hNote
    obtain ⟨n, rfl, hn⟩ := (Option.any_eq_true _ _).mp hAny
    obtain ⟨hNs, hSays, hNone⟩ := of_decide_eq_true hn
    obtain ⟨r, hRow, hDecodes⟩ := says_of_getMemory hGet
    rw [hNs, hSays] at hRow
    rw [hDecodes.archivedAt, Option.map_eq_none_iff] at hNone
    exact ⟨⟨1⟩, r, hRow, hNone⟩
  have hOthers : ∀ e ∈ twinPass.trace, dedupsIfOther e = true := by decide +kernel
  refine ((deduplication_loses_nothing .blank _ twinStore hWf _).2 .global twinSays hMember ?_).1
  intro op t t' hMem
  exact .inl (hOthers _ hMem)

end RustyBrain.Daemon
