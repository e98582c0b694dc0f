import RustyBrain.Store.System

/-!
# rusty-brain — hard forget

What `purge_memory_for_retention` leaves behind in a reachable store, and when it goes
through at all. The purge deletes the links, the vector, the feedback and the log of a
memory before its row, and clears pointers to it; it does not delete from
`memory_anchors`, whose foreign key then holds the row.

## Results

* `runs_purgeMemoryForRetention` — a purge goes through exactly for an unanchored row.
-/

namespace RustyBrain.Store

open Transaction Relation List

variable {details : OplogDetails} {db : Db} {r : MemoryRow} {id : MemoryId} {now : Int}

/-! ## What is left of a memory -/

/-- A row of some table other than the log names `id`. -/
def Db.Mentions (db : Db) (id : MemoryId) : Prop :=
  id ∈ db.ids ∨ (∃ r ∈ db.memories, r.supersededBy = some id) ∨
  (∃ l ∈ db.links, l.sourceId = id ∨ l.targetId = id) ∨
  (∃ v ∈ db.vectors, v.memoryId = id) ∨ (∃ f ∈ db.feedback, f.memoryId = id) ∨
  ∃ a ∈ db.anchors, a.memoryId = id

/-- Between `db` and `db'` the memory `id` was forgotten: nothing names it but one purge
marker, and the rows of every other memory are the ones of before, with pointers to
`id` cleared. -/
structure Forgotten (db : Db) (id : MemoryId) (db' : Db) : Prop where
  absent : ¬ db'.Mentions id
  marker : ∃ m, m.op = .purge ∧ db'.oplog.filter (fun r => r.memoryId = some id) = [m]
  memories : db'.memories =
    (db.memories.filter fun r => r.memoryId ≠ id).map (MemoryRow.unpointed id)
  links : db'.links = db.links.filter fun l => l.sourceId ≠ id ∧ l.targetId ≠ id
  vectors : db'.vectors = db.vectors.filter fun v => v.memoryId ≠ id
  feedback : db'.feedback = db.feedback.filter fun f => f.memoryId ≠ id
  anchors : db'.anchors = db.anchors.filter fun a => a.memoryId ≠ id
  oplog : db'.oplog.filter (fun r => r.memoryId ≠ some id) =
    db.oplog.filter fun r => r.memoryId ≠ some id

/-- No anchor belongs to the memory. -/
def Db.Unanchored (db : Db) (id : MemoryId) : Prop := ∀ a ∈ db.anchors, a.memoryId ≠ id
  deriving Decidable

/-- After a purge nothing but one marker is left of the memory. -/
theorem Db.forgotten_purged (hFree : db.Unanchored id) (ns : Text) (now : Int)
    (details : OplogDetails) : Forgotten db id (db.purged id ns now details) where
  absent := by
    rintro (hIn | ⟨r, hr, hPtr⟩ | ⟨l, hl, hEnd⟩ | ⟨v, hv, hId⟩ | ⟨f, hf, hId⟩ | ⟨a, ha, hId⟩)
    · exact (Db.mem_ids_purged.mp hIn).2 rfl
    · obtain ⟨s, -, -, rfl⟩ := Db.mem_purged.mp hr
      exact (MemoryRow.unpointed_supersededBy.mp hPtr).2 rfl
    · rw [Db.purged_links, mem_filter, decide_eq_true_eq] at hl
      exact hl.2 hEnd
    · rw [Db.purged_vectors, mem_filter, decide_eq_true_eq] at hv
      exact hv.2 hId
    · rw [Db.purged_feedback, mem_filter, decide_eq_true_eq] at hf
      exact hf.2 hId
    · exact hFree a ha hId
  marker := by
    refine ⟨⟨db.lastSeq + 1, db.siteId, .purge, some id, ns, now, details⟩, rfl, ?_⟩
    rw [Db.purged_oplog, filter_append, filter_filter]
    simp
  memories := by
    rw [Db.purged_memories, filter_map]
    congr 1
    refine filter_congr fun r _ => ?_
    simp
  links := by
    rw [Db.purged_links]
    refine filter_congr fun l _ => ?_
    simp [not_or]
  vectors := rfl
  feedback := rfl
  anchors := by
    rw [Db.purged_anchors]
    refine (filter_eq_self.mpr fun a ha => ?_).symm
    simpa using hFree a ha
  oplog := by
    rw [Db.purged_oplog, filter_append, filter_filter]
    simp

/-! ## The purge of one memory -/

/-- **Key lemma:** in a well-formed store the purge of an uncurated memory goes through
exactly when the memory has no anchor. -/
theorem runs_purgeMemoryForRetention {db' : Db} (hWf : db.Wf)
    (hFind : db.find id = some r) (hPlain : r.humanCurated = false) {b : Bool} :
    Runs (purgeMemoryForRetention now id details) db b db' ↔
      b = true ∧ db.Unanchored id ∧ db' = db.purged id r.ns now details := by
  constructor
  · intro h
    rcases purgeMemoryForRetention_runs h with ⟨-, -, hCurated⟩ | ⟨rfl, s, hs, -, hFree, rfl⟩
    · rw [hCurated r hFind] at hPlain
      cases hPlain
    · rw [Option.some.inj (hFind.symm.trans hs)]
      exact ⟨rfl, hFree, rfl⟩
  · rintro ⟨rfl, hFree, rfl⟩
    have hRows : Runs (purgeRows now id r.ns details) db () (db.purged id r.ns now details) :=
      runs_purgeRows.mpr ⟨fun s hs _ => hWf.check s hs, fun _ => hFree, rfl⟩
    simp only [purgeMemoryForRetention, runs_bind, runs_get]
    refine ⟨db, db, ⟨rfl, rfl⟩, ?_⟩
    simp only [hFind, hPlain, Bool.false_eq_true, if_false, runs_bind, runs_pure]
    exact ⟨(), _, hRows, trivial, rfl⟩

/-- One turn of a hard sweep: the candidate is purged, or the turn fails. -/
theorem sweepOne_hard (hWf : db.Wf) (clock : Int) (ns : Namespace) {c : ForgetCandidate}
    (hFind : db.find c.id = some r) (hPlain : r.humanCurated = false) :
    (db.Unanchored c.id → commit (sweepOne clock ns .hard c) db =
      (.ok true, db.purged c.id r.ns clock (.retention .hard c.rule))) ∧
    (¬ db.Unanchored c.id → ∃ e, commit (sweepOne clock ns .hard c) db = (.error e, db)) := by
  have hRun : ∀ b db', Runs (sweepOne clock ns .hard c) db b db' ↔ b = true ∧
      db.Unanchored c.id ∧ db' = db.purged c.id r.ns clock (.retention .hard c.rule) :=
    fun b db' => runs_purgeMemoryForRetention hWf hFind hPlain
  rcases commit_cases (sweepOne clock ns .hard c) db with ⟨b, db', hOk, hEq⟩ | ⟨e, hEq⟩
  · obtain ⟨rfl, hFree, rfl⟩ := (hRun b db').mp hOk
    exact ⟨fun _ => hEq, fun hHeld => absurd hFree hHeld⟩
  · refine ⟨fun hFree => ?_, fun _ => ⟨e, hEq⟩⟩
    -- the body would have gone through
    have hOk := (hRun true _).mpr ⟨rfl, hFree, rfl⟩
    unfold Runs at hOk
    rw [commit, hOk] at hEq
    cases hEq

end RustyBrain.Store
