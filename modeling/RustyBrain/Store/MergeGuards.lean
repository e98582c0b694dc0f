import RustyBrain.Store.System

/-!
# rusty-brain — when a merge goes through

`review_merge` re-validates the pair it is asked to merge and then runs to its end: every
later statement of the transaction succeeds. So the guards it checks decide whether it
merges.

## Results

* `reviewMerge_iff` — a merge succeeds exactly when its guards pass.
-/

namespace RustyBrain.Store

open Transaction List

variable {minSimilarity : ℚ} {details : Text} {now : DateTime} {id : MemoryId} {db : Db}
  {n : MemoryNote} {a b : MemoryId} {e : Option Embedding} {ns : Namespace} {allow : Bool}
  {r : MemoryRow} {env : Env}

/-! ## Notes that can be inserted -/

/-- The checks that every insert makes of a note succeed. -/
structure Valid (n : MemoryNote) : Prop where
  importance : validateImportance n.importance = .ok ()
  confidence : validateConfidence n.confidence = .ok ()
  anchors : ∀ a ∈ n.anchors, a.validate = .ok ()

theorem validateNote_ensures (hValid : Valid n) (db : Db) :
    Ensures (validateNote n) db fun _ d => d = db := by
  have hOk : ∀ {x : Result Unit} {d : Db}, x = .ok () → d = db →
      Ensures (attempt x) d fun _ d' => d' = db :=
    fun hx hd => .of_runs (runs_attempt.mpr ⟨hx, rfl⟩) hd
  refine (hOk hValid.importance rfl).bind fun _ _ h₁ => ?_
  refine (hOk hValid.confidence h₁).bind fun _ _ h₂ => ?_
  exact Ensures.forM (fun a ha _ h => hOk (hValid.anchors a ha) h) h₂

theorem noteRow_check (hValid : Valid n) : (noteRow n).Check := by
  have hImportance := hValid.importance
  have hConfidence := hValid.confidence
  unfold validateImportance at hImportance
  unfold validateConfidence at hConfidence
  split at hImportance
  next hRange =>
    split at hConfidence
    next hUnit => exact ⟨hRange, hUnit⟩
    next => cases hConfidence
  next => cases hImportance

/-- A stored anchor is an anchor of the note with its value normalised. -/
theorem mem_distinctAnchors {seen anchors : List MemoryAnchor} {a : MemoryAnchor}
    (h : a ∈ distinctAnchors seen anchors) :
    ∃ b ∈ anchors, a = { b with value := normalizeAnchorValue b.kind b.value } := by
  obtain ⟨-, b, hb, rfl⟩ := mem_distinctAnchors_iff.mp h
  exact ⟨b, hb, rfl⟩

/-- What `validate` leaves of the lines of an anchor. -/
theorem validate_lines {a : MemoryAnchor} (h : a.validate = .ok ()) :
    (a.kind ≠ .file → a.startLine = none ∧ a.endLine = none) ∧
    (∀ s ∈ a.startLine, 1 ≤ s) ∧ ∀ e ∈ a.endLine, ∃ s ∈ a.startLine, s ≤ e := by
  unfold MemoryAnchor.validate at h
  split at h
  · cases h
  split at h
  · cases h
  next hKind =>
    split at h
    · cases h
    next hStart =>
      split at h
      · cases h
      next hZero =>
        cases hs : a.startLine with
        | none =>
          rw [hs] at hStart
          cases he : a.endLine with
          | none => simp
          | some e => simp [he] at hStart
        | some s =>
          rw [hs] at h hKind hZero
          have hPos : 1 ≤ s := by
            rcases Nat.eq_zero_or_pos s with rfl | hPos
            · exact absurd (.inl rfl) hZero
            · exact hPos
          have hFile : a.kind = .file := by
            by_contra hne
            exact hKind ⟨hne, .inl rfl⟩
          cases he : a.endLine with
          | none => simpa [hFile] using hPos
          | some e =>
            simp only [he] at h
            split at h
            · cases h
            next hOrder =>
              simp only [hFile, ne_eq, not_true_eq_false, false_imp_iff, Option.mem_def,
                Option.some.injEq, forall_eq', exists_eq_left', true_and]
              exact ⟨hPos, by omega⟩

theorem anchorRow_check {a b : MemoryAnchor} (hValid : b.validate = .ok ())
    (hEq : a = { b with value := normalizeAnchorValue b.kind b.value }) (id : Nat) :
    (anchorRow n a id).Check := by
  obtain ⟨hPlain, hStart, hEnd⟩ := validate_lines hValid
  rw [hEq]
  refine ⟨?_, hStart, hEnd⟩
  by_cases hFile : b.kind = .file
  · exact .inl ⟨hFile, by simp [anchorRow, hFile], by simp [anchorRow, hFile]⟩
  · refine .inr ⟨hFile, by simp [anchorRow, hFile], by simp [anchorRow, hFile], ?_⟩
    exact hPlain hFile

/-- The store has room for a note: its id is new, and its vector fits. -/
structure Db.Admits (db : Db) (n : MemoryNote) (e : Option Embedding) : Prop where
  newId : n.id ∉ db.ids
  vector : ∀ v ∈ e, v.length = db.embeddingDim ∧ ∀ w ∈ db.vectors, w.memoryId ≠ n.id

/-- What the insert of a note without links leaves of the tables that later statements
look at. -/
structure Inserted (n : MemoryNote) (db d : Db) : Prop where
  memories : d.memories = db.memories ++ [noteRow n]
  links : d.links = db.links

/-- A valid note without links or pointer can be inserted where there is room for it. -/
theorem insertMemoryTxBody_ensures (now : Int) (hValid : Valid n) (hPtr : n.supersededBy = none)
    (hLinks : n.links = []) (hRoom : db.Admits n e) :
    Ensures (insertMemoryTxBody now n e) db fun _ d => Inserted n db d := by
  -- the vector table and the dimension are untouched until the vector is inserted
  let I : Db → Prop := fun d =>
    Inserted n db d ∧ d.vectors = db.vectors ∧ d.embeddingDim = db.embeddingDim
  have hRow : Ensures (insertMemoryRow (noteRow n)) db fun _ d => I d := by
    refine .of_runs (a := ()) (runs_insertMemoryRow.mpr ⟨noteRow_check hValid, hRoom.newId, ?_, rfl⟩)
      ⟨⟨rfl, rfl⟩, rfl, rfl⟩
    intro t ht
    rw [show (noteRow n).supersededBy = none from hPtr] at ht
    cases ht
  have hLog : ∀ d, I d → Ensures (appendOplog .insert n.id now .empty) d fun _ d' => I d' := by
    intro d hd
    refine .of_runs (a := ()) (runs_appendOplog.mpr rfl) ?_
    unfold Db.appended
    split
    · exact ⟨⟨hd.1.memories, hd.1.links⟩, hd.2⟩
    · exact hd
  have hAnchors : ∀ a ∈ distinctAnchors [] n.anchors, ∀ d, I d →
      Ensures (insertAnchorRow (anchorRow n a)) d fun _ d' => I d' := by
    intro a ha d hd
    obtain ⟨b, hb, hEq⟩ := mem_distinctAnchors ha
    refine .of_runs (a := ()) (runs_insertAnchorRow.mpr
      ⟨anchorRow_check (hValid.anchors b hb) hEq _, ?_, rfl⟩) ⟨⟨hd.1.memories, hd.1.links⟩, hd.2⟩
    rw [Db.mem_ids, hd.1.memories]
    exact ⟨noteRow n, mem_append_right _ (mem_singleton_self _), rfl⟩
  have hVector : ∀ d, I d → Ensures (insertNoteVector n e) d fun _ d' => Inserted n db d' := by
    intro d hd
    cases e with
    | none => exact .of_runs (runs_pure.mpr ⟨rfl, rfl⟩) hd.1
    | some v =>
      obtain ⟨hLength, hNew⟩ := hRoom.vector v rfl
      refine .of_runs (a := ()) (runs_insertVectorRow.mpr ⟨hLength.trans hd.2.2.symm, ?_, rfl⟩)
        ⟨hd.1.memories, hd.1.links⟩
      rw [hd.2.1]
      exact hNew
  refine hRow.bind fun _ d₁ h₁ => (hLog d₁ h₁).bind fun _ d₂ h₂ => ?_
  refine (Ensures.forM hAnchors h₂).bind fun _ d₃ h₃ => (hVector d₃ h₃).bind fun _ d₄ h₄ => ?_
  rw [hLinks]
  exact .of_runs (runs_pure.mpr ⟨rfl, rfl⟩) h₄

/-! ## The merge -/

/-- The guards of `review_merge`, on its arguments and the store before it. -/
structure MergeGuards (env : Env) (ns : Namespace) (a b : MemoryId) (minSimilarity : ℚ)
    (n : MemoryNote) (e : Option Embedding) (allowCuratedSupersede : Bool) (db : Db) : Prop where
  distinct : a ≠ b ∧ n.id ≠ a ∧ n.id ≠ b
  home : n.ns = ns
  members : ∀ id ∈ [a, b], ∃ r, db.find id = some r ∧ r.ns = ns.asDbString ∧ r.Current ∧
    (r.humanCurated = true → allowCuratedSupersede = true)
  similar : ∃ s, db.storedPairSimilarity env a b = some s ∧ minSimilarity ≤ s
  room : db.Admits n e

theorem checkMember_ensures (hFind : db.find id = some r)
    (hNs : r.ns = ns.asDbString) (hCurrent : r.Current)
    (hAllow : r.humanCurated = true → allow = true) :
    Ensures (checkMember ns allow id) db fun _ d => d = db := by
  refine .of_runs (a := ()) (runs_bind.mpr ⟨db, db, runs_get.mpr ⟨rfl, rfl⟩, ?_⟩) rfl
  rw [hFind]
  refine runs_bind.mpr ⟨(), db, runs_require.mpr ⟨hNs, rfl⟩, ?_⟩
  refine runs_bind.mpr ⟨(), db, runs_require.mpr ⟨hCurrent, rfl⟩, ?_⟩
  exact runs_require.mpr ⟨hAllow, rfl⟩

theorem checkSimilarity_ensures {minSimilarity s : ℚ}
    (hSim : db.storedPairSimilarity env a b = some s) (hMin : minSimilarity ≤ s) :
    Ensures (checkSimilarity env a b minSimilarity) db fun _ d => d = db := by
  refine .of_runs (a := ()) (runs_bind.mpr ⟨db, db, runs_get.mpr ⟨rfl, rfl⟩, ?_⟩) rfl
  rw [hSim]
  exact runs_require.mpr ⟨hMin, rfl⟩

/-- Links whose ends are all there can be added. -/
theorem insertLinksOrIgnore_ensures {new : Db → List LinkRow} (hOld : ∀ l ∈ db.links, db.HasEnds l)
    (hNew : ∀ l ∈ new db, db.HasEnds l) :
    Ensures (insertLinksOrIgnore new) db fun _ d =>
      d.memories = db.memories ∧ ∀ l ∈ d.links, d.HasEnds l := by
  have hAll : ∀ l ∈ addLinks db.links (new db), db.HasEnds l :=
    fun l hl => (mem_addLinks hl).elim (hOld l) (hNew l)
  exact .of_runs (a := ()) (runs_insertLinksOrIgnore.mpr ⟨hAll, rfl⟩) ⟨rfl, hAll⟩

/-- The guarded supersede takes a current row for a current replacement. -/
theorem supersedeUnclaimedInTx_ensures {old new : MemoryId} (now : Int) (key : String)
    (hne : old ≠ new) (hFind : db.find new = some r) (hCurrent : r.Current)
    (hOld : ∃ m ∈ db.memories, Takes old m) (hCheck : ∀ m ∈ db.memories, m.Check) :
    Ensures (supersedeUnclaimedInTx old new now key) db fun _ d => d = db.retired old new now := by
  obtain ⟨m, hm, hTakes⟩ := hOld
  have hThere : new ∈ db.ids := Db.mem_ids.mpr ⟨r, Db.find_some hFind⟩
  have hUpdate : Runs (updateMemories (Takes old) (MemoryRow.superseded new now)) db
      (db.memories.countP (Takes old)) (db.setMemories (Takes old) (MemoryRow.superseded new now)) := by
    refine runs_updateMemories.mpr ⟨fun q hq _ => hCheck q hq, fun q _ _ t ht => ?_, rfl, rfl⟩
    rw [← Option.some.inj ht]
    exact hThere
  have hTaken : db.memories.countP (Takes old) ≠ 0 := by
    intro hZero
    exact countP_eq_zero.mp hZero m hm (decide_eq_true hTakes)
  have hGuard : Runs (supersedeGuardedInTx old new now) db .applied (db.retired old new now) := by
    unfold supersedeGuardedInTx
    rw [if_neg hne]
    refine runs_bind.mpr ⟨db, db, runs_get.mpr ⟨rfl, rfl⟩, ?_⟩
    rw [hFind]
    simp only [hCurrent, if_true]
    refine runs_bind.mpr ⟨_, _, hUpdate, ?_⟩
    rw [if_neg hTaken]
    refine runs_bind.mpr ⟨(), _, runs_deleteVectorRow.mpr rfl, ?_⟩
    exact runs_bind.mpr ⟨(), _, runs_appendOplog.mpr rfl, runs_pure.mpr ⟨rfl, rfl⟩⟩
  exact .of_runs (a := ()) (runs_bind.mpr ⟨_, _, hGuard, runs_pure.mpr ⟨rfl, rfl⟩⟩) rfl

/-- A row that was appended under a new id is the one its id finds. -/
theorem Inserted.find {d : Db} (h : Inserted n db d) (hNew : n.id ∉ db.ids) :
    d.find n.id = some (noteRow n) := by
  have hNone : (db.memories.find? fun r => r.memoryId = n.id) = none := by
    refine find?_eq_none.mpr fun r hr => ?_
    simp only [decide_eq_true_eq]
    exact fun hId => hNew (Db.mem_ids.mpr ⟨r, hr, hId⟩)
  unfold Db.find
  rw [h.memories, find?_append, hNone]
  simp [noteRow]

theorem Db.retired_memories (db : Db) (old new : MemoryId) (now : Int) :
    (db.retired old new now).memories =
      (db.setMemories (Takes old) (MemoryRow.superseded new now)).memories :=
  Db.appended_memories ..

/-- What an id finds after a supersede: the row it found before, taken or not. -/
theorem Db.find_retired (db : Db) (old new : MemoryId) (now : Int) (id : MemoryId) :
    (db.retired old new now).find id =
      (db.find id).map fun r => if Takes old r then r.superseded new now else r := by
  have hSet := db.find_setMemories (p := Takes old) (f := MemoryRow.superseded new now)
    (fun _ _ _ => rfl) id
  unfold Db.find at hSet ⊢
  rw [Db.retired_memories]
  exact hSet

/-- The edges a merge copies end where edges ended, or at the combined memory. -/
theorem copied_hasEnds {new : MemoryId} {d : Db} (hOld : ∀ l ∈ d.links, d.HasEnds l)
    (hNew : new ∈ d.ids) :
    (∀ l ∈ copiedOut new a b d, d.HasEnds l) ∧ ∀ l ∈ copiedIn new a b d, d.HasEnds l := by
  constructor
  · intro l hl
    obtain ⟨k, hk, rfl⟩ := mem_map.mp hl
    exact ⟨hNew, (hOld k (mem_of_mem_filter hk)).2⟩
  · intro l hl
    obtain ⟨k, hk, rfl⟩ := mem_map.mp hl
    exact ⟨(hOld k (mem_of_mem_filter hk)).1, hNew⟩

/-- A row that is current may be taken. -/
theorem takes_of_current (hFind : db.find id = some r) (hCurrent : r.Current) :
    r ∈ db.memories ∧ Takes id r :=
  ⟨(Db.find_some hFind).1, (Db.find_some hFind).2, hCurrent.2, hCurrent.1⟩

theorem mergeWrites_ensures (ns : Namespace) (details : Text) (now : DateTime) (hWf : db.Wf)
    (hValid : Valid n) (hFresh : n.Fresh) (hLinks : n.links = []) (hRoom : db.Admits n e)
    (hneAB : a ≠ b) (hneA : n.id ≠ a) (hneB : n.id ≠ b) (hA : ∃ r, db.find a = some r ∧ r.Current)
    (hB : ∃ r, db.find b = some r ∧ r.Current) :
    Ensures (mergeWrites ns a b n e details now) db fun _ _ => True := by
  obtain ⟨ra, hFindA, hCurrentA⟩ := hA
  obtain ⟨rb, hFindB, hCurrentB⟩ := hB
  obtain ⟨hInA, hTakesA⟩ := takes_of_current hFindA hCurrentA
  obtain ⟨hInB, hTakesB⟩ := takes_of_current hFindB hCurrentB
  have hRow : (noteRow n).Current := by
    refine ⟨?_, hFresh.2⟩
    show n.archivedAt.map DateTime.secs = none
    rw [hFresh.1, Option.map_none]
  have hNotA : ¬ Takes a (noteRow n) := fun h => hneA h.1
  refine (insertMemoryTxBody_ensures now.secs hValid hFresh.2 hLinks hRoom).bind
    fun _ d₁ hIns => ?_
  have hNew : n.id ∈ d₁.ids := Db.mem_ids.mpr ⟨_, Db.find_some (hIns.find hRoom.newId)⟩
  have hEnds : ∀ l ∈ d₁.links, d₁.HasEnds l := by
    intro l hl
    obtain ⟨hSource, hTarget⟩ := hWf.links l (hIns.links ▸ hl)
    unfold Db.HasEnds Db.ids
    rw [hIns.memories, map_append]
    exact ⟨mem_append_left _ hSource, mem_append_left _ hTarget⟩
  refine (insertLinksOrIgnore_ensures hEnds (copied_hasEnds hEnds hNew).1).bind
    fun _ d₂ ⟨hM₂, hEnds₂⟩ => ?_
  have hNew₂ : n.id ∈ d₂.ids := by
    unfold Db.ids
    rw [hM₂]
    exact hNew
  refine (insertLinksOrIgnore_ensures hEnds₂ (copied_hasEnds hEnds₂ hNew₂).2).bind
    fun _ d₃ ⟨hM₃, _⟩ => ?_
  -- neither copy touched the rows
  have hRows : d₃.memories = db.memories ++ [noteRow n] := by rw [hM₃, hM₂, hIns.memories]
  have hCheck : ∀ m ∈ d₃.memories, m.Check := by
    intro m hm
    rw [hRows] at hm
    rcases mem_append.mp hm with hOld | hAdded
    · exact hWf.check m hOld
    · exact mem_singleton.mp hAdded ▸ noteRow_check hValid
  have hFind₃ : d₃.find n.id = some (noteRow n) := by
    have hSame : d₃.find n.id = d₁.find n.id := by unfold Db.find; rw [hM₃, hM₂]
    rw [hSame, hIns.find hRoom.newId]
  have hOldA : ∃ m ∈ d₃.memories, Takes a m := ⟨ra, hRows ▸ mem_append_left _ hInA, hTakesA⟩
  refine (supersedeUnclaimedInTx_ensures now.secs _ (Ne.symm hneA) hFind₃ hRow hOldA hCheck).bind ?_
  rintro _ d₄ rfl
  -- after the first original is retired the second and the combined row are as before
  have hFind₄ : (d₃.retired a n.id now.secs).find n.id = some (noteRow n) := by
    rw [Db.find_retired, hFind₃, Option.map_some, if_neg hNotA]
  have hOldB : ∃ m ∈ (d₃.retired a n.id now.secs).memories, Takes b m := by
    refine ⟨rb, ?_, hTakesB⟩
    rw [Db.retired_memories]
    refine Db.mem_setMemories.mpr ⟨rb, hRows ▸ mem_append_left _ hInB, .inr ⟨?_, rfl⟩⟩
    exact fun hTakes => hneAB (hTakes.1.symm.trans hTakesB.1)
  have hCheck₄ : ∀ m ∈ (d₃.retired a n.id now.secs).memories, m.Check := by
    rw [Db.retired_memories]
    exact d₃.forall_setMemories hCheck fun _ _ _ hm => hm
  refine (supersedeUnclaimedInTx_ensures now.secs _ (Ne.symm hneB) hFind₄ hRow hOldB hCheck₄).bind
    fun _ d₅ _ => ?_
  have hState : Ensures (upsertReviewState ns (reviewItemKey .nearDuplicate [a, b]) now.secs none) d₅
      fun _ _ => True := .of_runs (a := ()) (runs_modify.mpr rfl) trivial
  refine hState.bind fun _ d₆ _ => ?_
  exact .of_runs (a := ()) (runs_insertOplogRow.mpr rfl) trivial

/-- A merge that succeeded passed its guards. -/
theorem reviewMerge_guards {db' : Db}
    {u : Unit} (h : Runs (reviewMerge env ns a b minSimilarity n e details allow now) db u db') :
    MergeGuards env ns a b minSimilarity n e allow db := by
  obtain ⟨-, hDistinct, hHome, hMembers, hSimilar⟩ := reviewMerge_runs h
  obtain ⟨_, _, hBody, -⟩ := reviewMerge_leaves h
  have hAdds := insertMemoryTxBody_adds hBody
  exact ⟨hDistinct, hHome, hMembers, hSimilar, ⟨hAdds.new, hAdds.fits⟩⟩

/-- **Key result:** a merge of a valid fresh note succeeds exactly when its guards pass. -/
theorem reviewMerge_iff (hWf : db.Wf)
    (hValid : Valid n) (hFresh : n.Fresh) (hLinks : n.links = []) :
    (∃ db', Runs (reviewMerge env ns a b minSimilarity n e details allow now) db () db') ↔
      MergeGuards env ns a b minSimilarity n e allow db := by
  constructor
  · exact fun ⟨_, h⟩ => reviewMerge_guards h
  · intro hGuards
    obtain ⟨ra, hFindA, hNsA, hCurrentA, hAllowA⟩ := hGuards.members a mem_cons_self
    obtain ⟨rb, hFindB, hNsB, hCurrentB, hAllowB⟩ :=
      hGuards.members b (mem_cons_of_mem _ mem_cons_self)
    obtain ⟨s, hSim, hMin⟩ := hGuards.similar
    obtain ⟨hneAB, hneA, hneB⟩ := hGuards.distinct
    obtain ⟨_, d, hMemA, rfl⟩ := checkMember_ensures hFindA hNsA hCurrentA hAllowA
    obtain ⟨_, d, hMemB, rfl⟩ := checkMember_ensures hFindB hNsB hCurrentB hAllowB
    obtain ⟨_, d, hSimilar, rfl⟩ := checkSimilarity_ensures hSim hMin
    obtain ⟨_, d, hChecks, rfl⟩ := validateNote_ensures hValid d
    obtain ⟨⟨⟩, d', hWrites, -⟩ := mergeWrites_ensures ns details now hWf hValid hFresh hLinks
      hGuards.room hneAB hneA hneB ⟨ra, hFindA, hCurrentA⟩ ⟨rb, hFindB, hCurrentB⟩
    refine ⟨d', ?_⟩
    simp only [reviewMerge, runs_bind, runs_require]
    exact ⟨(), d, ⟨hGuards.distinct, rfl⟩, (), d, ⟨hGuards.home, rfl⟩, _, d, hMemA, _, d, hMemB, _, d,
      hSimilar, _, d, hChecks, hWrites⟩

end RustyBrain.Store
