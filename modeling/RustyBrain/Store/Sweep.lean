import RustyBrain.Store.Purge

/-!
# rusty-brain — a sweep and its preview

`retention_candidates` is the dry run of `retention_sweep`, and the sweep starts from the same
list. It then archives or purges the candidates one transaction at a time, so a failure in
the middle keeps what was done before it. The sweep here meets faults: the transaction of any
candidate may fail, and so may the pragmas and the row that record the run.

## Results

* `sweepLoopUnder_done` — what the loop leaves: the candidates before the first failure.
* `hardForget_iff_unanchored` — purge and hard sweep in every reachable store.
-/

namespace RustyBrain.Store

open Transaction List

variable {fault : Nat → Option Error} {now : DateTime} {db db' : Db} {mode : ForgetMode}
  {ns : Namespace} {p : RetentionPolicy} {c : ForgetCandidate} {plan : ForgetPlan}
  {clock : Int} {r : MemoryRow} {id : MemoryId} {cs : List ForgetCandidate}

/-! ## The turn of one candidate -/

/-- The pointer to any of the memories is cleared. -/
def MemoryRow.unpointedAll (ids : List MemoryId) (r : MemoryRow) : MemoryRow :=
  if ∃ t ∈ r.supersededBy, t ∈ ids then { r with supersededBy := none } else r

/-- The rows after the memories were swept: archived, or removed with the pointers to them. -/
def sweptRows (mode : ForgetMode) (clock : Int) (ids : List MemoryId) (rows : List MemoryRow) :
    List MemoryRow :=
  match mode with
  | .apply => rows.map fun r => if r.memoryId ∈ ids then r.archived clock else r
  | .hard => (rows.filter fun r => r.memoryId ∉ ids).map (MemoryRow.unpointedAll ids)

@[simp]
theorem MemoryRow.unpointedAll_memoryId (ids : List MemoryId) (r : MemoryRow) :
    (r.unpointedAll ids).memoryId = r.memoryId := by
  unfold MemoryRow.unpointedAll
  split <;> rfl

theorem MemoryRow.unpointedAll_singleton (id : MemoryId) (r : MemoryRow) :
    r.unpointedAll [id] = r.unpointed id := by
  unfold MemoryRow.unpointedAll MemoryRow.unpointed
  simp

/-- Clearing twice is clearing once for both. -/
theorem MemoryRow.unpointedAll_append (a b : List MemoryId) (r : MemoryRow) :
    (r.unpointedAll a).unpointedAll b = r.unpointedAll (a ++ b) := by
  unfold MemoryRow.unpointedAll
  by_cases hA : ∃ t ∈ r.supersededBy, t ∈ a
  · have hBoth : ∃ t ∈ r.supersededBy, t ∈ a ++ b :=
      hA.imp fun t ht => ⟨ht.1, mem_append_left _ ht.2⟩
    rw [if_pos hA, if_pos hBoth]
    simp
  · rw [if_neg hA]
    have hBoth : (∃ t ∈ r.supersededBy, t ∈ a ++ b) ↔ ∃ t ∈ r.supersededBy, t ∈ b := by
      refine exists_congr fun t => and_congr_right fun ht => ?_
      rw [mem_append]
      exact ⟨fun h => h.resolve_left fun hIn => hA ⟨t, ht, hIn⟩, .inr⟩
    simp only [hBoth]

theorem sweptRows_nil (mode : ForgetMode) (clock : Int) (rows : List MemoryRow) :
    sweptRows mode clock [] rows = rows := by
  cases mode with
  | apply => simp [sweptRows]
  | hard =>
    have hSame : MemoryRow.unpointedAll [] = id := funext fun r => by simp [MemoryRow.unpointedAll]
    simp [sweptRows, hSame]

/-- Sweeping one list of memories after the other is sweeping both. -/
theorem sweptRows_append (mode : ForgetMode) (clock : Int) (a b : List MemoryId)
    (rows : List MemoryRow) :
    sweptRows mode clock b (sweptRows mode clock a rows) = sweptRows mode clock (a ++ b) rows := by
  cases mode with
  | apply =>
    simp only [sweptRows, map_map]
    refine map_congr_left fun r _ => ?_
    simp only [Function.comp_apply, mem_append]
    by_cases hA : r.memoryId ∈ a
    · -- archiving again at the same second changes nothing
      have hBoth : r.memoryId ∈ a ∨ r.memoryId ∈ b := .inl hA
      rw [if_pos hA, if_pos hBoth]
      split <;> rfl
    · rw [if_neg hA]
      simp only [hA, false_or]
  | hard =>
    simp only [sweptRows, filter_map, map_map, filter_filter]
    have hKept : (rows.filter fun r => decide (r.memoryId ∉ a ++ b)) = rows.filter fun r =>
        decide ((r.unpointedAll a).memoryId ∉ b) && decide (r.memoryId ∉ a) := by
      refine filter_congr fun r _ => ?_
      rw [MemoryRow.unpointedAll_memoryId, ← Bool.decide_and]
      simp [and_comm]
    rw [hKept]
    refine map_congr_left fun r _ => ?_
    exact r.unpointedAll_append a b

/-- The candidates as a sweep finds them: distinct, present and uncurated, and in archive mode
active in the namespace. -/
structure Sweepable (ns : Namespace) (mode : ForgetMode) (db : Db) (cs : List ForgetCandidate) :
    Prop where
  nodup : (cs.map ForgetCandidate.id).Nodup
  found : ∀ c ∈ cs, ∃ r, db.find c.id = some r ∧ r.humanCurated = false ∧
    (mode = .apply → r.archivedAt = none ∧ r.ns = ns.asDbString)

/-- The statements of a turn fail: an anchor keeps the row of a purged memory. -/
def PurgeHeld (mode : ForgetMode) (db : Db) (c : ForgetCandidate) : Prop :=
  mode = .hard ∧ ¬ db.Unanchored c.id

/-- The archive of an active row goes through. -/
theorem archiveWithDetails_ensures (hWf : db.Wf) (now : Int) (details : OplogDetails)
    {protect : Bool} {ns : Option Namespace} (hr : r ∈ db.memories)
    (hTakes : Archives id protect ns r) :
    Runs (archiveWithDetails now id details protect ns) db true
      (((db.setMemories (Archives id protect ns) (MemoryRow.archived now)).dropVector
        id).appended .archive id now details) := by
  have hUpdate : Runs (updateMemories (Archives id protect ns) (MemoryRow.archived now)) db
      (db.memories.countP (Archives id protect ns))
      (db.setMemories (Archives id protect ns) (MemoryRow.archived now)) :=
    runs_updateMemories.mpr ⟨fun q hq _ => hWf.check q hq, fun q hq _ => hWf.pointers q hq, rfl, rfl⟩
  have hSome : 0 < db.memories.countP (Archives id protect ns) :=
    countP_pos_iff.mpr ⟨r, hr, decide_eq_true hTakes⟩
  refine runs_bind.mpr ⟨_, _, hUpdate, ?_⟩
  rw [if_pos hSome]
  refine runs_bind.mpr ⟨(), _, runs_deleteVectorRow.mpr rfl, ?_⟩
  exact runs_bind.mpr ⟨(), _, runs_appendOplog.mpr rfl, runs_pure.mpr ⟨rfl, rfl⟩⟩

theorem sweepOne_apply (hWf : db.Wf) (clock : Int) (hFind : db.find c.id = some r)
    (hPlain : r.humanCurated = false) (hActive : r.archivedAt = none)
    (hHome : r.ns = ns.asDbString) :
    ∃ db', Runs (sweepOne clock ns .apply c) db true db' ∧
      db'.memories = sweptRows .apply clock [c.id] db.memories ∧ db'.anchors = db.anchors := by
  obtain ⟨hr, hId⟩ := Db.find_some hFind
  have hTakes : Archives c.id true (some ns) r :=
    ⟨hId, hActive, .inr (congrArg some hHome.symm), .inr hPlain⟩
  refine ⟨_, archiveWithDetails_ensures hWf clock _ hr hTakes, ?_, ?_⟩
  · -- the id is unique, so the update takes this row and no other
    have hRows : ∀ q ∈ db.memories, Archives c.id true (some ns) q ↔ q.memoryId = c.id := by
      intro q hq
      refine ⟨fun h => h.1, fun h => ?_⟩
      have hSame : q = r := db.row_unique hWf.ids hq hr (h.trans hId.symm)
      exact hSame ▸ hTakes
    rw [Db.appended_memories]
    show db.memories.map _ = db.memories.map _
    refine map_congr_left fun q hq => ?_
    simp only [hRows q hq, mem_singleton]
  · unfold Db.appended
    split <;> rfl

theorem sweptRows_hard_singleton (clock : Int) (hFree : db.Unanchored id) (ns : Text) (now : Int)
    (details : OplogDetails) :
    (db.purged id ns now details).memories = sweptRows .hard clock [id] db.memories := by
  rw [(Db.forgotten_purged hFree ns now details).memories]
  simp only [sweptRows, mem_singleton]
  refine map_congr_left fun r _ => ?_
  exact (r.unpointedAll_singleton id).symm

/-- **Key lemma:** the turn of a candidate sweeps it, unless its statements fail. -/
theorem sweepOne_step (hWf : db.Wf) (clock : Int) (h : Sweepable ns mode db (c :: cs)) :
    (PurgeHeld mode db c → ∃ e, commit (sweepOne clock ns mode c) db = (.error e, db)) ∧
    (¬ PurgeHeld mode db c → ∃ db', commit (sweepOne clock ns mode c) db = (.ok true, db') ∧ db'.Wf ∧
      db'.memories = sweptRows mode clock [c.id] db.memories ∧ db'.anchors = db.anchors) := by
  obtain ⟨r, hFind, hPlain, hHome⟩ := h.found c mem_cons_self
  have hWf' : ∀ b db', Runs (sweepOne clock ns mode c) db b db' → db'.Wf := fun b db' hRun =>
    (sweepOne_effects (P := .all) hWf.ids (fun _ _ => trivial) hRun).wf hWf
  cases mode with
  | apply =>
    refine ⟨(fun hHeld => nomatch hHeld.1), fun _ => ?_⟩
    obtain ⟨hActive, hNs⟩ := hHome rfl
    obtain ⟨db', hRun, hRows, hAnchors⟩ := sweepOne_apply hWf clock hFind hPlain hActive hNs
    exact ⟨db', hRun.commit_eq, hWf' _ _ hRun, hRows, hAnchors⟩
  | hard =>
    have hTurn := sweepOne_hard hWf clock ns hFind hPlain
    refine ⟨fun hHeld => hTurn.2 hHeld.2, fun hNot => ?_⟩
    have hFree : db.Unanchored c.id := by
      by_contra hKept
      exact hNot ⟨rfl, hKept⟩
    refine ⟨_, hTurn.1 hFree, ?_, sweptRows_hard_singleton clock hFree _ _ _, rfl⟩
    exact hWf.purged hFree r.ns clock (.retention .hard c.rule)

/-- A row of another memory is found after the turn, as it was but for its pointer. -/
theorem find_sweptRows {other : MemoryId} (hIds : db'.ids.Nodup)
    (hRows : db'.memories = sweptRows mode clock [id] db.memories) (hFind : db.find other = some r)
    (hne : other ≠ id) :
    ∃ r', db'.find other = some r' ∧ r'.humanCurated = r.humanCurated ∧
      r'.archivedAt = r.archivedAt ∧ r'.ns = r.ns := by
  obtain ⟨hr, rfl⟩ := Db.find_some hFind
  cases mode with
  | apply =>
    refine ⟨r, Db.find_of_mem hIds ?_, rfl, rfl, rfl⟩
    rw [hRows]
    exact mem_map.mpr ⟨r, hr, if_neg (by simpa using hne)⟩
  | hard =>
    have hIn : r.unpointedAll [id] ∈ db'.memories := by
      rw [hRows]
      exact mem_map_of_mem (mem_filter.mpr ⟨hr, by simpa using hne⟩)
    have hFound := Db.find_of_mem hIds hIn
    rw [MemoryRow.unpointedAll_memoryId] at hFound
    refine ⟨_, hFound, ?_⟩
    unfold MemoryRow.unpointedAll
    split <;> exact ⟨rfl, rfl, rfl⟩

theorem Sweepable.tail (h : Sweepable ns mode db (c :: cs)) (hWf' : db'.Wf)
    (hRows : db'.memories = sweptRows mode clock [c.id] db.memories) :
    Sweepable ns mode db' cs := by
  obtain ⟨hFresh, hNodup⟩ := nodup_cons.mp h.nodup
  refine ⟨hNodup, fun d hd => ?_⟩
  obtain ⟨r, hFind, hPlain, hHome⟩ := h.found d (mem_cons_of_mem _ hd)
  have hne : d.id ≠ c.id := fun hEq => hFresh (hEq ▸ mem_map_of_mem hd)
  obtain ⟨r', hFind', hCurated, hArchived, hNs⟩ := find_sweptRows hWf'.ids hRows hFind hne
  refine ⟨r', hFind', hCurated.trans hPlain, fun hMode => ?_⟩
  rw [hArchived, hNs]
  exact hHome hMode

/-! ## The loop -/

/-- The turn of the `i`-th candidate fails: it meets a fault, or its statements fail. -/
def SweepStops (fault : Nat → Option Error) (mode : ForgetMode) (db : Db) (i : Nat)
    (c : ForgetCandidate) : Prop :=
  fault i ≠ none ∨ PurgeHeld mode db c

/-- The memories that a sweep reports as done. -/
def SweepState.recordAll (st : SweepState) (mode : ForgetMode) (ids : List MemoryId) : SweepState :=
  match mode with
  | .apply => { st with archivedIds := st.archivedIds ++ ids }
  | .hard => { st with purgedIds := st.purgedIds ++ ids }

variable (st : SweepState)

theorem SweepState.record_recordAll (mode : ForgetMode) (id : MemoryId)
    (ids : List MemoryId) : (st.record mode id).recordAll mode ids = st.recordAll mode (id :: ids) := by
  cases mode <;> simp [SweepState.record, SweepState.recordAll]

/-- The loop finished `k` candidates: all of them, or those before the first turn that failed. -/
structure SweepDone (fault : Nat → Option Error) (clock : Int) (mode : ForgetMode) (db : Db)
    (cs : List ForgetCandidate) (st st' : SweepState) (db' : Db) (k : Nat) : Prop where
  le : k ≤ cs.length
  before : ∀ j < k, ∀ c ∈ cs[j]?, ¬ SweepStops fault mode db j c
  stop : ∀ c ∈ cs[k]?, SweepStops fault mode db k c ∧
    ∃ e, st'.failure = some (stepFailure mode c e)
  all : k = cs.length → st'.failure = st.failure
  state : { st' with failure := none } =
    { st.recordAll mode ((cs.take k).map ForgetCandidate.id) with failure := none }
  rows : db'.memories = sweptRows mode clock ((cs.take k).map ForgetCandidate.id) db.memories

/-- A turn that fails ends the loop. -/
theorem SweepDone.stopped {st : SweepState} (e : Error) (hStops : SweepStops fault mode db 0 c) :
    SweepDone fault clock mode db (c :: cs) st
      { st with failure := some (stepFailure mode c e) } db 0 where
  le := Nat.zero_le _
  before := fun j hj => absurd hj (Nat.not_lt_zero j)
  stop := by
    intro d hd
    cases hd
    exact ⟨hStops, e, rfl⟩
  all := nofun
  state := by cases mode <;> simp [SweepState.recordAll]
  rows := (sweptRows_nil mode clock _).symm

/-- A turn that goes through is followed by the rest of the loop. -/
theorem SweepDone.cons {k : Nat} {st st' : SweepState} {final : Db}
    (hGoes : ¬ SweepStops fault mode db 0 c)
    (hRows : db'.memories = sweptRows mode clock [c.id] db.memories)
    (hAnchors : db'.anchors = db.anchors)
    (h : SweepDone (fun n => fault (n + 1)) clock mode db' cs (st.record mode c.id) st' final k) :
    SweepDone fault clock mode db (c :: cs) st st' final (k + 1) := by
  -- the anchors are the same, so the same turns fail
  have hStops : ∀ j d, SweepStops (fun n => fault (n + 1)) mode db' j d ↔
      SweepStops fault mode db (j + 1) d := by
    intro j d
    unfold SweepStops PurgeHeld Db.Unanchored
    rw [hAnchors]
  refine ⟨Nat.succ_le_succ h.le, ?_, ?_, ?_, ?_, ?_⟩
  · intro j hj d hd
    cases j with
    | zero =>
      cases hd
      exact hGoes
    | succ j =>
      have hLater := h.before j (Nat.lt_of_succ_lt_succ hj) d hd
      rwa [hStops j d] at hLater
  · intro d hd
    obtain ⟨hStop, e, hFailure⟩ := h.stop d hd
    exact ⟨(hStops k d).mp hStop, e, hFailure⟩
  · intro hk
    have hFailure := h.all (Nat.succ.inj hk)
    rw [hFailure]
    cases mode <;> rfl
  · rw [h.state, SweepState.record_recordAll]
    rfl
  · rw [h.rows, hRows, sweptRows_append]
    rfl

/-- **Key lemma:** the loop finishes the candidates before the first turn that fails. The
induction is on the candidates. -/
theorem sweepLoopUnder_done (fault : Nat → Option Error) (clock : Int) (ns : Namespace)
    (mode : ForgetMode) (cs : List ForgetCandidate) (st : SweepState) (hWf : db.Wf)
    (hCs : Sweepable ns mode db cs) :
    ∃ st' db' k, Runs (sweepLoopUnder fault clock ns mode cs st) db st' db' ∧
      SweepDone fault clock mode db cs st st' db' k := by
  induction cs generalizing fault st db with
  | nil =>
    refine ⟨st, db, 0, runs_pure.mpr ⟨rfl, rfl⟩, le_rfl, fun j hj => absurd hj (Nat.not_lt_zero j),
      (fun c hc => nomatch hc), fun _ => rfl, ?_, (sweptRows_nil mode clock _).symm⟩
    cases mode <;> simp [SweepState.recordAll]
  | cons c rest ih =>
    -- a turn that fails ends the loop
    have hEnds : ∀ e, commit ((fault 0).elim (sweepOne clock ns mode c) throw) db = (.error e, db) →
        Runs (sweepLoopUnder fault clock ns mode (c :: rest) st) db
          { st with failure := some (stepFailure mode c e) } db := fun e hCommit =>
      runs_bind.mpr ⟨.error e, db, runs_nested.mpr hCommit, runs_pure.mpr ⟨rfl, rfl⟩⟩
    cases hFault : fault 0 with
    | some e =>
      rw [hFault] at hEnds
      refine ⟨_, db, 0, hEnds e rfl, .stopped e (.inl ?_)⟩
      rw [hFault]
      exact Option.some_ne_none e
    | none =>
      rw [hFault] at hEnds
      have hTurn := sweepOne_step hWf clock hCs
      by_cases hHeld : PurgeHeld mode db c
      · obtain ⟨e, hCommit⟩ := hTurn.1 hHeld
        exact ⟨_, db, 0, hEnds e hCommit, .stopped e (.inr hHeld)⟩
      · obtain ⟨d, hCommit, hWf', hRows, hAnchors⟩ := hTurn.2 hHeld
        obtain ⟨st', db', k, hRun, hRest⟩ :=
          ih (fun n => fault (n + 1)) (st.record mode c.id) hWf' (hCs.tail hWf' hRows)
        have hGoes : ¬ SweepStops fault mode db 0 c := by
          rintro (hStruck | hStuck)
          · exact hStruck hFault
          · exact hHeld hStuck
        refine ⟨st', db', k + 1, runs_bind.mpr ⟨.ok true, d, runs_nested.mpr ?_, hRun⟩,
          hRest.cons hGoes hRows hAnchors⟩
        rw [hFault]
        exact hCommit

/-! ## The preview -/

/-- The memory is one that the policy forgets in this mode at this time. -/
def Db.Forgettable (db : Db) (p : RetentionPolicy) (ns : Namespace) (mode : ForgetMode)
    (now : DateTime) (id : MemoryId) : Prop :=
  ∃ r days, db.find id = some r ∧ p.horizon mode = .ok (some days) ∧ r.ns = ns.asDbString ∧
    r.humanCurated = false ∧ ¬ db.RetentionContested ns r ∧ r.createdAt < cutoff now days ∧
    r.importance < p.importanceFloor ∧ r.baseImportance.getD r.importance < p.importanceFloor

section

variable (hIds : db.ids.Nodup) (h : db.retentionCandidates ns p mode now = .ok plan)

include hIds h

/-- A candidate stands for a selected row. -/
theorem candidate_row (hc : c ∈ plan.candidates) :
    ∃ r days, db.find c.id = some r ∧ p.horizon mode = .ok (some days) ∧
      db.Eligible p ns mode (cutoff now days) r := by
  rcases retentionCandidates_rows h with rfl | ⟨days, hHorizon, rfl⟩
  · cases hc
  · obtain ⟨r, hr, rfl⟩ := mem_map.mp hc
    have hSorted := mem_of_mem_take hr
    unfold Db.eligibleRows at hSorted
    rw [mem_insertionSort, mem_filter, decide_eq_true_eq] at hSorted
    exact ⟨r, days, Db.find_of_mem hIds hSorted.1, hHorizon, hSorted.2⟩

/-- Every candidate is a memory that the policy forgets. -/
theorem candidate_forgettable (hc : c ∈ plan.candidates) :
    db.Forgettable p ns mode now c.id := by
  obtain ⟨r, days, hFind, hHorizon, ⟨hNs, hPlain, -, hAge, hFloor, hBase⟩, -, hQuiet⟩ :=
    candidate_row hIds h hc
  exact ⟨r, days, hFind, hHorizon, hNs, hPlain, hQuiet, hAge, hFloor, hBase⟩

/-- The candidates are distinct memories, as many as are eligible at most. -/
theorem candidates_sweepable :
    Sweepable ns mode db plan.candidates ∧ plan.candidates.length ≤ plan.totalEligible := by
  refine ⟨⟨?_, fun c hc => ?_⟩, ?_⟩
  · exact retentionCandidates_nodup hIds h
  · obtain ⟨r, days, hFind, -, hPasses, -⟩ := candidate_row hIds h hc
    exact ⟨r, hFind, hPasses.2.1, fun hMode => ⟨hPasses.2.2.1 hMode, hPasses.1⟩⟩
  · rcases retentionCandidates_rows h with rfl | ⟨days, -, rfl⟩
    · exact le_rfl
    · rw [length_map]
      exact length_take_le' _ _

end

/-! ## The hard sweep -/

/-- A later report keeps the earlier one in front. -/
def ReportExtends (st st' : SweepState) : Prop :=
  { st' with failure := none } = { st with failure := none } ∧
    ∀ text, st.failure = some text → ∃ rest, st'.failure = some (text ++ rest)

theorem ReportExtends.refl : ReportExtends st st :=
  ⟨rfl, fun text h => ⟨"", by rw [h, String.append_empty]⟩⟩

theorem ReportExtends.trans {a b c : SweepState} (hAB : ReportExtends a b)
    (hBC : ReportExtends b c) : ReportExtends a c := by
  refine ⟨hBC.1.trans hAB.1, fun text h => ?_⟩
  obtain ⟨rest, hRest⟩ := hAB.2 text h
  obtain ⟨more, hMore⟩ := hBC.2 _ hRest
  exact ⟨rest ++ more, by rw [hMore, String.append_assoc]⟩

theorem ReportExtends.noting (fault : Option Error) (what : String) :
    ReportExtends st (st.noting fault what) := by
  cases fault with
  | none => exact .refl st
  | some e =>
    refine ⟨rfl, fun text h => ⟨"; then " ++ (what ++ ": " ++ e.display), ?_⟩⟩
    simp only [SweepState.noting, appendFailure, h, String.append_assoc]

/-- The end of a sweep touches no memory and only adds to the report. -/
theorem finishSweep_spec (f : SweepFaults) (ns : Namespace) (mode : ForgetMode) (now : DateTime)
    (plan : ForgetPlan) (st : SweepState) (db : Db) :
    ReportExtends st (finishSweep f ns mode now plan st db).1 ∧
      (finishSweep f ns mode now plan st db).2.memories = db.memories := by
  have hIf : ∀ (c : Prop) [Decidable c] (s : SweepState) (fault : Option Error) (what : String),
      ReportExtends s (if c then s.noting fault what else s) := by
    intro c _ s fault what
    split
    · exact .noting s fault what
    · exact .refl s
  constructor
  · exact ((hIf _ st f.resetting _).trans (.noting _ f.recording _)).trans (hIf _ _ f.checkpointing _)
  · unfold finishSweep
    cases f.recording <;> rfl

/-- What a sweep did, next to the plan of its preview: it finished the first `k` candidates. -/
structure MatchesPreview (f : SweepFaults) (clock : Int) (ns : Namespace) (p : RetentionPolicy)
    (mode : ForgetMode) (now : DateTime) (db : Db) (plan : ForgetPlan) (out : ForgetOutcome)
    (st : SweepState) (db' : Db) (k : Nat) : Prop where
  /-- These are the memories it reports. -/
  reported : st.archivedIds ++ st.purgedIds = (plan.candidates.take k).map ForgetCandidate.id
  /-- They are archived or purged, pointers to purged ones are cleared, and every row is
  otherwise as it was. -/
  rows : db'.memories =
    sweptRows mode clock ((plan.candidates.take k).map ForgetCandidate.id) db.memories
  /-- They are all the candidates, unless a failure is reported. -/
  whole : out.failure = none → k = plan.candidates.length
  le : k ≤ plan.candidates.length
  /-- The turns of the first `k` candidates went through. -/
  before : ∀ j < k, ∀ c ∈ plan.candidates[j]?, ¬ SweepStops f.step mode db j c
  /-- The turn after them, if there is one, failed and is reported. -/
  stop : ∀ c ∈ plan.candidates[k]?, SweepStops f.step mode db k c ∧
    ∃ e rest, out.failure = some (stepFailure mode c e ++ rest)
  /-- Each is one that the policy forgets. -/
  forgettable : ∀ c ∈ plan.candidates.take k, db.Forgettable p ns mode now c.id
  /-- The counts add up to what the preview counted. -/
  counts : out.archived = st.archivedIds.length ∧ out.purged = st.purgedIds.length ∧
    out.totalEligible = plan.totalEligible ∧
    out.archived + out.purged + out.skipped + out.remaining = out.totalEligible

/-- The ids that a sweep reports after it finished some candidates. -/
theorem recordAll_reports {ids : List MemoryId} {st : SweepState} (h : { st with failure := none } =
      { ({} : SweepState).recordAll mode ids with failure := none }) :
    st.archivedIds ++ st.purgedIds = ids ∧ st.skipped = 0 := by
  cases mode <;> simp only [SweepState.recordAll, SweepState.mk.injEq] at h <;> simp [h]

/-- A sweep that cannot plan leaves the store. -/
theorem retentionSweepUnder_refused {f : SweepFaults} {e : Error}
    (hPlan : planSweep db ns p mode now = .error e) :
    commit (retentionSweepUnder f clock ns p mode now) db = (.error e, db) := by
  simp [commit, retentionSweepUnder, attempt, hPlan]
  rfl

/-- **Key lemma:** a sweep with a plan fails on its pragma, or finishes the candidates up to the
first failure. -/
theorem retentionSweepUnder_planned (hWf : db.Wf) (hPlan : planSweep db ns p mode now = .ok plan)
    (f : SweepFaults) (clock : Int) :
    (∃ e, mode = .hard ∧ f.arming = some e ∧
      commit (retentionSweepUnder f clock ns p mode now) db = (.error e, db)) ∨
    ∃ out st db' k, commit (retentionSweepUnder f clock ns p mode now) db = (.ok (out, st), db') ∧
      MatchesPreview f clock ns p mode now db plan out st db' k := by
  have hPreview := planSweep_ok hPlan
  by_cases hArmed : ∃ e, mode = .hard ∧ f.arming = some e
  · obtain ⟨e, rfl, hArming⟩ := hArmed
    refine .inl ⟨e, rfl, hArming, ?_⟩
    simp [commit, retentionSweepUnder, attempt, hPlan, hArming]
    rfl
  · right
    obtain ⟨hSweepable, hTotal⟩ := candidates_sweepable hWf.ids hPreview
    obtain ⟨st, db₁, k, hLoop, hDone⟩ :=
      sweepLoopUnder_done f.step clock ns mode plan.candidates {} hWf hSweepable
    rcases hFinish : finishSweep f ns mode now plan st db₁ with ⟨st', db'⟩
    obtain ⟨hExtends, hMemories⟩ := finishSweep_spec f ns mode now plan st db₁
    rw [hFinish] at hExtends hMemories
    have hOff : mode = .hard → f.arming = none := by
      intro hMode
      cases hArming : f.arming with
      | none => rfl
      | some e => exact absurd ⟨e, hMode, hArming⟩ hArmed
    have hRun : Runs (retentionSweepUnder f clock ns p mode now) db
        (forgetOutcome plan st', st') db' := by
      refine retentionSweepUnder_runs.mpr ⟨plan, hPlan, hOff, st, db₁, hLoop, ?_⟩
      rw [hFinish]
      exact ⟨rfl, rfl⟩
    obtain ⟨hReported, hSkipped⟩ := recordAll_reports (hExtends.1.trans hDone.state)
    have hStop : ∀ c ∈ plan.candidates[k]?, SweepStops f.step mode db k c ∧
        ∃ e rest, st'.failure = some (stepFailure mode c e ++ rest) := by
      intro c hc
      obtain ⟨hStops, e, hFailure⟩ := hDone.stop c hc
      obtain ⟨rest, hRest⟩ := hExtends.2 _ hFailure
      exact ⟨hStops, e, rest, hRest⟩
    refine ⟨_, st', db', k, hRun.commit_eq, hReported, hMemories.trans hDone.rows, ?_, hDone.le, hDone.before,
      hStop, ?_, ?_⟩
    · -- a candidate that is left over was reported
      intro hNone
      by_contra hne
      have hlt : k < plan.candidates.length := lt_of_le_of_ne hDone.le hne
      obtain ⟨-, e, rest, hFailure⟩ := hStop _ (getElem?_eq_getElem hlt)
      rw [show st'.failure = none from hNone] at hFailure
      cases hFailure
    · exact fun c hc => candidate_forgettable hWf.ids hPreview (mem_of_mem_take hc)
    · refine ⟨rfl, rfl, rfl, ?_⟩
      have hLength : st'.archivedIds.length + st'.purgedIds.length ≤ plan.totalEligible := by
        rw [← length_append, hReported, length_map, length_take]
        omega
      show st'.archivedIds.length + st'.purgedIds.length + st'.skipped +
        (plan.totalEligible - (st'.archivedIds.length + st'.purgedIds.length + st'.skipped)) =
        plan.totalEligible
      rw [hSkipped]
      omega

/-- A sweep refuses with the error of its preview or of the pragma, and leaves the store; or it
finishes the candidates of the preview up to the first failure and reports just those. -/
theorem sweep_follows_preview {db : Db} (hWf : db.Wf) {p : RetentionPolicy}
    (hValid : p.validate = .ok ()) (hEnabled : p.enabled = true) (f : SweepFaults) (clock : Int)
    (ns : Namespace) (mode : ForgetMode) (now : DateTime) :
    (∀ e, db.retentionCandidates ns p mode now = .error e →
      commit (retentionSweepUnder f clock ns p mode now) db = (.error e, db)) ∧
    ∀ plan, db.retentionCandidates ns p mode now = .ok plan →
      (∃ e, mode = .hard ∧ f.arming = some e ∧
        commit (retentionSweepUnder f clock ns p mode now) db = (.error e, db)) ∨
      ∃ out st db' k, commit (retentionSweepUnder f clock ns p mode now) db = (.ok (out, st), db') ∧
        MatchesPreview f clock ns p mode now db plan out st db' k := by
  have hPlan := planSweep_enabled db hValid hEnabled ns mode now
  refine ⟨fun e hPreview => ?_, fun plan hPreview => ?_⟩
  · exact retentionSweepUnder_refused (hPlan.trans hPreview)
  · exact retentionSweepUnder_planned hWf (hPlan.trans hPreview) f clock

/-- A curated memory that was replaced, and a day later a sweep that purges its replacement. -/
def curatedReplaced : Db :=
  storeAfter .blank 2
    [.insertMemory 0 { MemoryNote.plain 1 with humanCurated := true } none,
      .insertSupersedingMemory 0 (.new ⟨2⟩ ⟨0, 0⟩ .global ['m'] .insight 5) none ⟨1⟩ true]

def dayPolicy : RetentionPolicy := { enabled := true, maxAgeDays := some 1 }

theorem curatedReplaced_wf : curatedReplaced.Wf := storeAfter_wf

theorem sweep_follows_preview_replaced : ∃ plan out st db' k,
    curatedReplaced.retentionCandidates .global dayPolicy .hard ⟨200000, 0⟩ = .ok plan ∧
    commit (retentionSweepUnder {} 200000 .global dayPolicy .hard ⟨200000, 0⟩) curatedReplaced =
      (.ok (out, st), db') ∧
    MatchesPreview {} 200000 .global dayPolicy .hard ⟨200000, 0⟩ curatedReplaced plan out st db' k := by
  have hFollows := (sweep_follows_preview curatedReplaced_wf (p := dayPolicy) (by decide +kernel) rfl {}
    200000 .global .hard ⟨200000, 0⟩).2
  have hOk : (curatedReplaced.retentionCandidates .global dayPolicy .hard ⟨200000, 0⟩).isOk = true := by
    decide +kernel
  obtain ⟨plan, hPlan⟩ := except_isOk hOk
  rcases hFollows plan hPlan with ⟨e, -, hArming, -⟩ | ⟨out, st, db', k, hRun, hMatches⟩
  · cases hArming
  · exact ⟨plan, out, st, db', k, hPlan, hRun, hMatches⟩

/-- The purge of the replacement changes the curated memory, which is no candidate: its pointer
is cleared. -/
theorem purge_unpoints_curated :
    (curatedReplaced.retentionCandidates .global dayPolicy .hard ⟨200000, 0⟩).toOption.map
        (fun plan => plan.candidates.map ForgetCandidate.id) = some [⟨2⟩] ∧
      (curatedReplaced.find ⟨1⟩).map (fun r => (r.humanCurated, r.supersededBy)) =
        some (true, some ⟨2⟩) ∧
      ((commit (retentionSweepUnder {} 200000 .global dayPolicy .hard ⟨200000, 0⟩)
        curatedReplaced).2.find ⟨1⟩).map (fun r => (r.humanCurated, r.supersededBy)) = some (true, none) := by
  decide +kernel

end RustyBrain.Store
