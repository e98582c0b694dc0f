import RustyBrain.Store.ReviewQueue

/-!
# rusty-brain — what the maintenance jobs read

The bounded scans behind the jobs of the daemon: `candidates_for_consolidation` and
`equivalent_duplicates` for the merging of duplicates, `memories_for_recalibration` and
`links_for_decay` for the others. Each scan orders the rows it selects and hands out the first
ones up to its limit.
-/

namespace RustyBrain.Store

open Transaction

/-! ## Consolidation -/

/-- `ConsolidationCandidate`. -/
structure ConsolidationCandidate where
  id : MemoryId
  ns : Namespace
  importance : Nat
  createdAt : DateTime
  humanCurated : Bool
  deriving DecidableEq

/-- One row of the candidate scan. -/
def consolidationCandidate (r : MemoryRow) : Result ConsolidationCandidate := do
  let ns ← parseNamespace r.ns
  let createdAt ← fromTs r.createdAt
  pure ⟨r.memoryId, ns, r.importance, createdAt, r.humanCurated⟩

/-- The current rows, oldest first. -/
def Db.currentRows (db : Db) : List MemoryRow :=
  (db.memories.filter MemoryRow.Current).insertionSort MemoryRow.OldestFirst

/-- `candidates_for_consolidation`. -/
def Db.candidatesForConsolidation (db : Db) (limit : Nat) : Result (List ConsolidationCandidate) :=
  (db.currentRows.take limit).mapM consolidationCandidate

/-- A neighbour is kept as a duplicate: it is current and equivalent to the anchor. -/
def Db.keepsDuplicate (db : Db) (anchor : MemoryNote) (id : MemoryId) : Result Bool := do
  match ← db.getMemory id with
  | some note =>
    pure (decide (note.archivedAt = none ∧ note.supersededBy = none) &&
      db.automaticallyEquivalent anchor note)
  | none => pure false

/-- The loop of `equivalent_duplicates`: the neighbours that are kept, in their order. -/
def Db.keepDuplicates (db : Db) (anchor : MemoryNote) :
    List (MemoryId × ℚ) → Result (List (MemoryId × ℚ))
  | [] => pure []
  | d :: rest => do
    let keep ← db.keepsDuplicate anchor d.1
    let kept ← db.keepDuplicates anchor rest
    pure (if keep then d :: kept else kept)

/-- `equivalent_duplicates`: the near-duplicates of a current anchor that are equivalent to it.
The limit has been applied before the equivalence is looked at. -/
def Db.equivalentDuplicates (env : Env) (db : Db) (ns : Namespace) (id : MemoryId) (threshold : ℚ)
    (limit : Nat) : Result (List (MemoryId × ℚ)) := do
  match ← db.getMemory id with
  | none => pure []
  | some anchor =>
    if anchor.ns ≠ ns ∨ anchor.archivedAt ≠ none ∨ anchor.supersededBy ≠ none then pure []
    else do
      let duplicates ← db.nearDuplicates env ns id threshold limit
      db.keepDuplicates anchor duplicates

/-! ## The other jobs -/

/-- `RecalRow`. -/
structure RecalRow where
  ns : Namespace
  id : MemoryId
  importance : Nat
  baseImportance : Nat
  accessCount : Nat
  lastAccessedAt : Option Int
  deriving DecidableEq

/-- One row of the recalibration scan. -/
def recalRow (r : MemoryRow) : Result RecalRow := do
  let ns ← parseNamespace r.ns
  pure ⟨ns, r.memoryId, r.importance, r.baseImportance.getD r.importance, r.accessCount,
    r.lastAccessedAt⟩

/-- `memories_for_recalibration`. -/
def Db.memoriesForRecalibration (db : Db) (limit : Nat) : Result (List RecalRow) :=
  (((db.memories.filter fun r => r.archivedAt = none).insertionSort
    fun a b => b.createdAt ≤ a.createdAt).take limit).mapM recalRow

/-- `ORDER BY source_id, target_id, link_type`. -/
def LinkRow.KeyLe (a b : LinkRow) : Prop :=
  a.sourceId.uuid < b.sourceId.uuid ∨ (a.sourceId.uuid = b.sourceId.uuid ∧ a.Le b)
  deriving Decidable

/-- One row of the decay scan: its creation time must be in range. -/
def decayRow (l : LinkRow) : Result LinkRow := do
  let _ ← fromTs l.createdAt
  pure l

/-- `links_for_decay`. -/
def Db.linksForDecay (db : Db) (limit : Nat) : Result (List LinkRow) :=
  ((db.links.insertionSort LinkRow.KeyLe).take limit).mapM decayRow

theorem parseNamespace_ok {s : Text} {ns : Namespace} (h : parseNamespace s = .ok ns) :
    Namespace.parseDbString s = some ns := by
  unfold parseNamespace at h
  split at h
  · next ns' hParse =>
    cases h
    exact hParse
  · cases h

end RustyBrain.Store
