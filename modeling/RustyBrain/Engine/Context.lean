import RustyBrain.Engine.Compose
import RustyBrain.Lib.Session
import RustyBrain.Store.Snapshot

/-!
# rusty-brain — the project context

`MemoryEngine::context` lists the current decisions, constraints and preferences of a
project and marks the disputed ones. It makes its reads one by one, each on a store that
other clients go on writing to, and takes the corpus snapshot before and after them: if the
two agree it returns what it read, otherwise it starts over, three times at most.

The listing and the dispute flags it returns are those of one store: the log numbers only
grow, so equal snapshots leave no room for a logged change between the reads, and without
one no memory can come into the namespace to make up for one that left.

## Results

* `context_is_one_store` — what a context returns is what one store held during its reads.
-/

namespace RustyBrain.Engine

open Store Transaction Sessions List

/-! ## Staleness and entries -/

/-- `rb_types::RepoSnapshot`. -/
structure RepoSnapshot where
  head : Option Text
  cleanWorktree : Bool
  deriving DecidableEq, Repr

/-- `str::eq_ignore_ascii_case`. -/
def eqIgnoreAsciiCase (a b : Text) : Bool := a.map Char.toLower == b.map Char.toLower

/-- `evaluate_staleness`: a memory bound to commits is stale unless every one of them is the
head of a clean worktree. -/
def evaluateStaleness (anchors : List MemoryAnchor) : Option RepoSnapshot → Bool
  | some ⟨some head, clean⟩ =>
    let commits := anchors.filter fun a => a.kind = .commit
    if commits = [] then false
    else !(commits.all (fun a => eqIgnoreAsciiCase (trim a.value) (trim head)) && clean)
  | _ => false

/-- `char::is_control`, and the two line separators. -/
def blanked (c : Char) : Bool :=
  c.val < 0x20 || (0x7f ≤ c.val && c.val < 0xa0) || c.val = 0x2028 || c.val = 0x2029

/-- `rb_types::ContextEntry`. -/
structure ContextEntry where
  id : MemoryId
  memoryType : MemoryType
  subject : Text
  originUser : Option Text
  originAgent : Option Text
  originSource : Option Text
  originChannel : Option WriteChannel
  trustClass : TrustClass
  humanCurated : Bool
  contested : Bool
  stale : Bool
  fingerprint : Nat
  deriving DecidableEq

/-- `rb_types::ProjectContext`. -/
structure ProjectContext where
  stable : List ContextEntry
  snapshot : Option CorpusSnapshot
  repoState : Option RepoSnapshot
  deriving DecidableEq

/-- The digest of `ContextEntry::fingerprint_for`, over a note, its two flags and the state of
the repository. -/
abbrev Fingerprint := MemoryNote → Bool → Bool → Option RepoSnapshot → Nat

/-- `ContextEntry::from_memory`, with the dispute flag of the note beside it. -/
def ContextEntry.fromMemory (fingerprint : Fingerprint) (m : MemoryNote) (contested stale : Bool)
    (repo : Option RepoSnapshot) : ContextEntry where
  id := m.id
  memoryType := m.memoryType
  subject := ((trim (if trim m.summary = [] then m.content else m.summary)).take 80).map fun c =>
    if blanked c then ' ' else c
  originUser := m.originUser.map fun t => t.take 40
  originAgent := m.originAgent.map fun t => t.take 40
  originSource := m.originSource.map fun t => t.take 40
  originChannel := m.originChannel
  trustClass := m.trustClass
  humanCurated := m.humanCurated
  contested := contested
  stale := stale
  fingerprint := fingerprint m contested stale repo

/-! ## The reads -/

/-- The store after the operations of other clients, one by one. -/
def after (env : Env) (ops : List Op) (db : Db) : Db := ops.foldl (fun d op => op.run env d) db

/-- What goes on around the reads of one turn of the loop: the operations of other clients
before the first read and between the reads, and the state of the repository as it is found
before and after. -/
structure ContextTurn where
  earlier : List Op := []
  toList : List Op := []
  toDisputes : List Op := []
  toAgain : List Op := []
  repoBefore : Option RepoSnapshot := none
  repoAfter : Option RepoSnapshot := none

/-- The operations from the first read of a turn to its last. -/
def ContextTurn.within (t : ContextTurn) : List Op := t.toList ++ t.toDisputes ++ t.toAgain

/-- The filter of the listing. -/
def contextFilter : RecallFilter :=
  { types := [.constraint, .architectureDecision, .preference], recallEligible := true }

/-- The entries made of a listing and the set of its contested memories. -/
def entries (fingerprint : Fingerprint) (repo : Option RepoSnapshot) (memories : List MemoryNote)
    (contested : Finset MemoryId) : List ContextEntry :=
  memories.map fun m => .fromMemory fingerprint m (decide (m.id ∈ contested))
    (evaluateStaleness m.anchors repo) repo

/-- One turn of the loop of `context`; `none` is the `continue`. -/
def contextTurn (env : Env) (fingerprint : Fingerprint) (ns : Namespace) (t : ContextTurn) :
    Session Db Error (Option ProjectContext) := do
  interrupt (after env t.earlier)
  let before ← view fun db => .ok (db.corpusSnapshot ns)
  interrupt (after env t.toList)
  let memories ← view fun db => db.listFiltered ns contextFilter 50
  interrupt (after env t.toDisputes)
  let contested ← view fun db => .ok (db.activeContradicts ns (memories.map MemoryNote.id))
  interrupt (after env t.toAgain)
  let again ← view fun db => .ok (db.corpusSnapshot ns)
  if again ≠ before ∨ t.repoBefore ≠ t.repoAfter then pure none
  else pure (some ⟨entries fingerprint t.repoAfter memories contested, some before, t.repoAfter⟩)

/-- The loop of `context`. -/
def contextLoop (env : Env) (fingerprint : Fingerprint) (ns : Namespace) :
    List ContextTurn → Session Db Error ProjectContext
  | [] => throw (.stalePlan "project context changed while reading; refresh again")
  | t :: rest => do
    match ← contextTurn env fingerprint ns t with
    | some context => pure context
    | none => contextLoop env fingerprint ns rest

/-- `MemoryEngine::context`, with what goes on around each of its three turns. -/
def MemoryEngine.context (engine : MemoryEngine) (env : Env) (fingerprint : Fingerprint)
    (t₁ t₂ t₃ : ContextTurn) : Session Db Error ProjectContext :=
  contextLoop env fingerprint engine.ns [t₁, t₂, t₃]

/-! ## The listed part of a corpus -/

/-- What a context is made of: the rows but for their counters and their embedding stamps, and
the links. -/
def listing : Watch where
  view := fun c => ⟨c.rows.map (MemoryRow.stamped [] []), c.links, []⟩
  length := fun _ => length_map _

/-- The operations of a store that is open, hard sweeps apart. The vector table is rebuilt
while a store is opened, once. -/
def Concurrent : Op → Prop
  | .rebuildVectorTable => False
  | .retentionSweep _ _ _ mode _ => mode = .apply
  | _ => True

section Listed

variable {env : Env} {ns : Namespace} {db db' : Db}

/-- Other stamps and other vectors do not show in what is listed. -/
theorem listed_setMemories {p : MemoryRow → Prop} [DecidablePred p] {f : MemoryRow → MemoryRow}
    (hf : ∀ r, (f r).stamped [] [] = r.stamped [] [])
    (hMemories : db'.memories = (db.setMemories p f).memories) (hLinks : db'.links = db.links) :
    listing.view (db'.corpus ns) = listing.view (db.corpus ns) := by
  have hNs : ∀ r, (f r).ns = r.ns := fun r => by
    have hEq := congrArg MemoryRow.ns (hf r)
    exact hEq
  have hUnread : ∀ r, (f r).unread.stamped [] [] = r.unread.stamped [] [] := fun r => by
    have hEq := congrArg MemoryRow.unread (hf r)
    exact hEq
  have hSame : db'.rowsOf ns = (db.setMemories p f).rowsOf ns := by
    unfold Db.rowsOf
    rw [hMemories]
  have hRows : (db'.corpus ns).rows.map (MemoryRow.stamped [] []) =
      (db.corpus ns).rows.map (MemoryRow.stamped [] []) := by
    show ((db'.rowsOf ns).map _).map _ = ((db.rowsOf ns).map _).map _
    rw [hSame, map_map, map_map]
    exact db.map_rowsOf_setMemories ns hNs hUnread
  have hIds : (db'.corpus ns).rows.map MemoryRow.memoryId = (db.corpus ns).rows.map MemoryRow.memoryId := by
    have hMapped := congrArg (List.map MemoryRow.memoryId) hRows
    rwa [map_map, map_map] at hMapped
  have hLinked : (db'.corpus ns).links = (db.corpus ns).links := by
    show db'.links.filter (fun l => l.sourceId ∈ (db'.corpus ns).rows.map MemoryRow.memoryId ∧
      l.targetId ∈ (db'.corpus ns).rows.map MemoryRow.memoryId) = _
    rw [hIds, hLinks]
    rfl
  show Corpus.mk _ _ _ = Corpus.mk _ _ _
  rw [hRows, hLinked]

/-- **Key lemma:** whatever an operation does to the listed part of a corpus shows. -/
theorem traced_listing {op : Op} (hOp : Concurrent op) (hIds : db.ids.Nodup) :
    Traced listing ns db (op.run env db) := by
  unfold Op.run
  rcases commit_cases (op.body env) db with ⟨u, d, hRun, hEq⟩ | ⟨e, hEq⟩
  · rw [hEq]
    have hShows : op.Shows → Traced listing ns db d := fun h =>
      (op.traces h ns db u d hRun hIds).2.weaken
    cases op with
    | updateVector id e model version expected =>
      obtain ⟨r, n, vectors, -, -, -, -, -, rfl⟩ := updateVector_runs hRun
      exact ⟨[], .nil rfl rfl, .inr (.inr (listed_setMemories
        (p := fun m => m.memoryId = r.memoryId ∧ m.archivedAt = none)
        (f := MemoryRow.stamped model version) (fun _ => rfl) rfl rfl))⟩
    | acceptEmbeddingSpaceChange dim model =>
      obtain ⟨b, hRun⟩ := runs_discard.mp hRun
      rcases acceptEmbeddingSpaceChange_runs hRun with ⟨-, rfl⟩ | ⟨-, rfl⟩
      · exact refl_of (Traced listing ns) _
      · exact ⟨[], .nil rfl rfl, .inr (.inr (listed_setMemories (p := fun _ => True)
          (f := fun m => { m with embeddingInputVersion := [] }) (fun _ => rfl) rfl rfl))⟩
    | rebuildVectorTable => cases hOp
    | retentionSweep clock home p mode now => exact hShows hOp
    | _ => exact hShows trivial
  · rw [hEq]
    exact refl_of (Traced listing ns) db

/-- A memory of the corpus that is active. -/
theorem farEnd_iff {id : MemoryId} : db.FarEnd ns id ↔
    ∃ r ∈ (listing.view (db.corpus ns)).rows, r.memoryId = id ∧ r.archivedAt = none := by
  have hRows : (listing.view (db.corpus ns)).rows =
      (db.rowsOf ns).map fun r => r.unread.stamped [] [] := map_map
  rw [hRows]
  constructor
  · rintro ⟨r, hr, hId, hLive, hNs⟩
    have hIn : r ∈ db.rowsOf ns := mem_filter.mpr ⟨hr, decide_eq_true hNs⟩
    exact ⟨_, mem_map_of_mem hIn, hId, hLive⟩
  · rintro ⟨_, hr, hId, hLive⟩
    obtain ⟨m, hm, rfl⟩ := mem_map.mp hr
    obtain ⟨hMem, hNs⟩ := mem_filter.mp hm
    exact ⟨m, hMem, hId, hLive, of_decide_eq_true hNs⟩

/-- The dispute between two memories is read off the listed part of the corpus. -/
theorem contested_iff_listing {id : MemoryId} : db.Contested ns id ↔
    ∃ l ∈ (listing.view (db.corpus ns)).links, l.linkType = .contradicts ∧
      db.FarEnd ns l.sourceId ∧ db.FarEnd ns l.targetId ∧ (l.sourceId = id ∨ l.targetId = id) := by
  have hMember : ∀ {x : MemoryId}, db.FarEnd ns x → x ∈ (db.corpus ns).rows.map MemoryRow.memoryId := by
    rintro x ⟨r, hr, hId, -, hNs⟩
    exact Db.mem_corpus_ids.mpr ⟨r, hr, hId, hNs⟩
  rw [Db.contested_iff]
  constructor
  · rintro ⟨l, hl, hType, hSource, hTarget, hEnd⟩
    refine ⟨l, mem_filter.mpr ⟨hl, ?_⟩, hType, hSource, hTarget, hEnd⟩
    exact decide_eq_true ⟨hMember hSource, hMember hTarget⟩
  · rintro ⟨l, hl, hRest⟩
    exact ⟨l, (mem_filter.mp hl).1, hRest⟩

/-- Where the listed part is the same, so are the dispute flags. -/
theorem activeContradicts_eq (h : listing.view (db'.corpus ns) = listing.view (db.corpus ns))
    (ids : List MemoryId) : db'.activeContradicts ns ids = db.activeContradicts ns ids := by
  have hFar : ∀ x, db'.FarEnd ns x ↔ db.FarEnd ns x := fun x => by
    rw [farEnd_iff, farEnd_iff, h]
  ext id
  rw [Db.mem_activeContradicts, Db.mem_activeContradicts, contested_iff_listing, contested_iff_listing, h]
  simp only [hFar]

end Listed

/-! ## One turn -/

section

variable {env : Env} {ns : Namespace} {db db' : Db}

/-- A run of operations is traced, and keeps the store well-formed. -/
theorem traced_after {ops : List Op} (hOps : ∀ op ∈ ops, Concurrent op) (hWf : db.Wf) :
    Traced listing ns db (after env ops db) ∧ (after env ops db).Wf := by
  induction ops generalizing db with
  | nil => exact ⟨refl_of (Traced listing ns) db, hWf⟩
  | cons op rest ih =>
    have hStep : Traced listing ns db (op.run env db) :=
      traced_listing (hOps op mem_cons_self) hWf.ids
    obtain ⟨hRest, hEnd⟩ := ih (fun o ho => hOps o (mem_cons_of_mem _ ho)) (Op.run_wf hWf)
    exact ⟨trans_of (Traced listing ns) hStep hRest, hEnd⟩

/-- **Key lemma:** between two reads of one snapshot nothing that is listed changed. -/
theorem listing_eq_of_snapshot {d₀ d₁ d₂ d₃ : Db} (h₀ : Traced listing ns d₀ d₁)
    (h₁ : Traced listing ns d₁ d₂) (h₂ : Traced listing ns d₂ d₃) (hWf₀ : d₀.Wf) (hWf₁ : d₁.Wf)
    (hWf₂ : d₂.Wf) (hSame : d₃.corpusSnapshot ns = d₀.corpusSnapshot ns) :
    listing.view (d₂.corpus ns) = listing.view (d₁.corpus ns) := by
  have hGen := congrArg CorpusSnapshot.generation hSame
  have hCount : (d₃.rowsOf ns).length = (d₀.rowsOf ns).length := congrArg CorpusSnapshot.memories hSame
  have g₀ := h₀.generation_le
  have g₁ := h₁.generation_le
  have g₂ := h₂.generation_le
  -- the log gained no row that counts, so rows only left, and none did
  have q₀ := h₀.quiet hWf₀.lastSeq (by omega)
  have q₁ := h₁.quiet hWf₁.lastSeq (by omega)
  have q₂ := h₂.quiet hWf₂.lastSeq (by omega)
  exact q₁.2 (by omega)

end

/-! ## The loop -/

/-- Every turn of the loop with the store at its first read. -/
def starts (env : Env) : Db → List ContextTurn → List (ContextTurn × Db)
  | _, [] => []
  | db, t :: rest =>
    (t, after env t.earlier db) :: starts env (after env t.within (after env t.earlier db)) rest

/-- The stores that the operations of other clients lead through, the first one included. -/
def passes (env : Env) : List Op → Db → List Db
  | [], db => [db]
  | op :: rest, db => db :: passes env rest (op.run env db)

section Context

variable {env : Env} {fingerprint : Fingerprint} {ns : Namespace} {db db' : Db}

theorem after_append (ops rest : List Op) : after env (ops ++ rest) db = after env rest (after env ops db) :=
  foldl_append

theorem after_mem_passes (ops rest : List Op) : after env ops db ∈ passes env (ops ++ rest) db := by
  induction ops generalizing db with
  | nil =>
    cases rest with
    | nil | cons op rest => exact mem_cons_self
  | cons op ops ih => exact mem_cons_of_mem _ ih

/-- What was read during a turn, as one store would give it: the context is made of the listing
of a store that the turn passed, and of the disputes of that same store. -/
def ReadFrom (fingerprint : Fingerprint) (ns : Namespace) (context : ProjectContext) (s : Db) : Prop :=
  ∃ memories, s.listFiltered ns contextFilter 50 = .ok memories ∧
    context.stable = entries fingerprint context.repoState memories
      (s.activeContradicts ns (memories.map MemoryNote.id))

/-- A turn ends where the other clients left the store, and what it returns one store gave. -/
theorem contextTurn_completes {t : ContextTurn} {found : Option ProjectContext} {start : Db}
    (hStart : start = after env t.earlier db) (hOps : ∀ op ∈ t.within, Concurrent op) (hWf : start.Wf)
    (h : Completes (contextTurn env fingerprint ns t) db found db') :
    db' = after env t.within start ∧ ∀ context ∈ found,
      ∃ s ∈ passes env t.within start, ReadFrom fingerprint ns context s := by
  simp only [contextTurn, completes_bind, completes_interrupt, completes_view] at h
  obtain ⟨_, _, hFirst, before, _, ⟨hBefore, rfl⟩, _, d₁, hTo₁, memories, _, ⟨hList, rfl⟩, _, d₂, hTo₂,
    contested, _, ⟨hContested, rfl⟩, _, d₃, hTo₃, again, _, ⟨hAgain, rfl⟩, h⟩ := h
  rw [← hStart] at hFirst
  obtain rfl := hFirst
  have hEnd : after env t.within start = d₃ := by
    rw [ContextTurn.within, after_append, after_append, hTo₁, hTo₂, hTo₃]
  split at h
  · obtain ⟨rfl, rfl⟩ := completes_pure.mp h
    exact ⟨hEnd.symm, by simp⟩
  · next hAgree =>
    obtain ⟨rfl, rfl⟩ := completes_pure.mp h
    refine ⟨hEnd.symm, fun context hContext => ?_⟩
    cases hContext
    obtain ⟨hSame, -⟩ := not_or.mp hAgree
    have hParts : (∀ op ∈ t.toList, Concurrent op) ∧ (∀ op ∈ t.toDisputes, Concurrent op) ∧
        ∀ op ∈ t.toAgain, Concurrent op := by
      refine ⟨fun op h => hOps op ?_, fun op h => hOps op ?_, fun op h => hOps op ?_⟩
      · exact mem_append_left _ (mem_append_left _ h)
      · exact mem_append_left _ (mem_append_right _ h)
      · exact mem_append_right _ h
    obtain ⟨h₀, hWf₁⟩ := traced_after hParts.1 hWf
    rw [hTo₁] at h₀ hWf₁
    obtain ⟨h₁, hWf₂⟩ := traced_after hParts.2.1 hWf₁
    rw [hTo₂] at h₁ hWf₂
    obtain ⟨h₂, -⟩ := traced_after hParts.2.2 hWf₂
    rw [hTo₃] at h₂
    have hSnapshot : d₃.corpusSnapshot ns = start.corpusSnapshot ns := by
      rw [Except.ok.inj hAgain, Except.ok.inj hBefore]
      exact not_not.mp hSame
    have hListed := listing_eq_of_snapshot h₀ h₁ h₂ hWf hWf₁ hWf₂ hSnapshot
    refine ⟨d₁, ?_, memories, hList, ?_⟩
    · rw [← hTo₁, ContextTurn.within, append_assoc]
      exact after_mem_passes _ _
    · rw [← Except.ok.inj hContested, activeContradicts_eq hListed]

theorem after_wf {ops : List Op} (hWf : db.Wf) : (after env ops db).Wf := by
  induction ops generalizing db with
  | nil => exact hWf
  | cons op rest ih => exact ih (Op.run_wf hWf)

theorem contextLoop_completes {turns : List ContextTurn} {context : ProjectContext} (hWf : db.Wf)
    (hOps : ∀ t ∈ turns, ∀ op ∈ t.within, Concurrent op)
    (h : Completes (contextLoop env fingerprint ns turns) db context db') :
    ∃ t start, (t, start) ∈ starts env db turns ∧ db' = after env t.within start ∧
      ∃ s ∈ passes env t.within start, ReadFrom fingerprint ns context s := by
  induction turns generalizing db with
  | nil => exact absurd h completes_throw
  | cons t rest ih =>
    obtain ⟨found, d, hTurn, hRest⟩ := completes_bind.mp h
    have hStart : (after env t.earlier db).Wf := after_wf hWf
    obtain ⟨hEnd, hFound⟩ := contextTurn_completes rfl (hOps t mem_cons_self) hStart hTurn
    cases found with
    | some c =>
      obtain ⟨rfl, rfl⟩ := completes_pure.mp hRest
      exact ⟨t, _, mem_cons_self, hEnd, hFound c rfl⟩
    | none =>
      obtain ⟨t', start, hMem, hRead⟩ :=
        ih (hEnd ▸ after_wf hStart) (fun t' ht' => hOps t' (mem_cons_of_mem _ ht')) hRest
      exact ⟨t', start, mem_cons_of_mem _ (hEnd ▸ hMem), hRead⟩

/-- **Main result:** whenever a context is returned, the memories it lists and their dispute
flags are those that one store gives, a store that existed between the first and the last read
of the turn that returned it. -/
theorem context_is_one_store {engine : MemoryEngine} {A : Op → Prop} (hReach : Reachable env A db)
    {t₁ t₂ t₃ : ContextTurn} {context : ProjectContext}
    (hOps : ∀ t ∈ [t₁, t₂, t₃], ∀ op ∈ t.within, Concurrent op)
    (h : Completes (engine.context env fingerprint t₁ t₂ t₃) db context db') :
    ∃ t start, (t, start) ∈ starts env db [t₁, t₂, t₃] ∧ db' = after env t.within start ∧
      ∃ s ∈ passes env t.within start, ReadFrom fingerprint engine.ns context s :=
  contextLoop_completes hReach.wf hOps h

end Context

/-- A project with one decision. -/
def decidedStore : Db :=
  storeAfter .blank 2
    [.insertMemory 0 (.new ⟨1⟩ ⟨0, 0⟩ .global ['a'] .architectureDecision 5) none]

/-- Another client counts an access between the reads of the listing and of the disputes. -/
def readMeanwhile : ContextTurn := { toDisputes := [.recordAccesses 9 [⟨1⟩]] }

/-- An engine over the global namespace. -/
def globalEngine : MemoryEngine where
  ns := .global
  isAlphanumeric := Char.isAlphanum
  toLowercase := id
  enrich := none
  modelId := []
  embed := fun _ => .ok []

/-- The result at that store: the context is returned, and it has the decision. -/
theorem context_is_one_store_decided :
    ∃ context db', Completes (globalEngine.context .blank (fun _ _ _ _ => 0) readMeanwhile {} {})
        decidedStore context db' ∧
      context.stable.map ContextEntry.id = [⟨1⟩] ∧
      ∃ t start, (t, start) ∈ starts .blank decidedStore [readMeanwhile, {}, {}] ∧
        ∃ s ∈ passes .blank t.within start, ReadFrom (fun _ _ _ _ => 0) .global context s := by
  have hReach : Reachable .blank (fun _ => True) decidedStore := storeAfter_reachable fun _ _ => trivial
  have hOps : ∀ t ∈ [readMeanwhile, {}, {}], ∀ op ∈ t.within, Concurrent op := by
    intro t ht op hop
    simp only [mem_cons, not_mem_nil, or_false] at ht
    rcases ht with rfl | rfl | rfl
    · rw [mem_singleton.mp hop]
      trivial
    · cases hop
    · cases hop
  have hIds : ((outcome (globalEngine.context .blank (fun _ _ _ _ => 0) readMeanwhile {} {})
      decidedStore).1.map fun c => c.stable.map ContextEntry.id) = .ok [⟨1⟩] := by decide +kernel
  have hOk : (outcome (globalEngine.context .blank (fun _ _ _ _ => 0) readMeanwhile {} {})
      decidedStore).1.isOk = true := by decide +kernel
  obtain ⟨context, hAnswer, hCompletes⟩ := completes_of_isOk hOk
  rw [hAnswer] at hIds
  obtain ⟨t, start, hTurn, -, hRead⟩ := context_is_one_store hReach hOps hCompletes
  exact ⟨context, _, hCompletes, Except.ok.inj hIds, t, start, hTurn, hRead⟩

end RustyBrain.Engine
