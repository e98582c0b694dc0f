import RustyBrain.Store.ReviewQueue

/-!
# rusty-brain — statistics

`stats.rs`: the figures of a namespace, and the snapshot that a recall is stamped with.
-/

namespace RustyBrain.Store

open Transaction

/-! ## The figures of a namespace -/

/-- `FeedbackTotals`. -/
structure FeedbackTotals where
  helpful : Nat
  wrong : Nat
  stale : Nat
  deriving DecidableEq, Repr

/-- `TopRecalled`. -/
structure TopRecalled where
  id : MemoryId
  accessCount : Nat
  deriving DecidableEq

/-- `GrowthBucket`. The day is counted from the epoch; `strftime` writes it as a date. -/
structure GrowthBucket where
  day : Int
  count : Nat
  deriving DecidableEq, Repr

/-- `MemoryStats`, without the figures of the database file. -/
structure MemoryStats where
  ns : Text
  windowDays : Nat
  live : Nat
  archived : Nat
  vectors : Nat
  dbEmbeddingModel : Option Text
  feedback : FeedbackTotals
  totalAccesses : Nat
  accessedInWindow : Nat
  topRecalled : List TopRecalled
  neverRecalledLive : Nat
  contested : Nat
  lowConfidenceLive : Nat
  createdPerDay : List GrowthBucket
  reembedPending : Nat
  retentionEligible : Option Nat
  lastForgetAt : Option Int
  deriving DecidableEq

/-- The rows of a namespace. -/
def Db.rowsOf (db : Db) (ns : Namespace) : List MemoryRow :=
  db.memories.filter fun m => m.ns = ns.asDbString

/-- The feedback of one kind in a namespace. -/
def Db.feedbackCount (db : Db) (ns : Namespace) (kind : FeedbackKind) : Nat :=
  db.feedback.countP fun r => r.ns = ns.asDbString ∧ r.kind = kind

def Db.feedbackTotals (db : Db) (ns : Namespace) : FeedbackTotals :=
  ⟨db.feedbackCount ns .helpful, db.feedbackCount ns .wrong, db.feedbackCount ns .stale⟩

/-- More accesses first, then by id. -/
def MostRecalled (a b : MemoryRow) : Prop :=
  b.accessCount < a.accessCount ∨ (a.accessCount = b.accessCount ∧ a.memoryId.uuid ≤ b.memoryId.uuid)
  deriving Decidable

/-- The active memories that were recalled most. -/
def topRecalled (rows : List MemoryRow) (limit : Nat) : List TopRecalled :=
  (((rows.filter fun m => m.archivedAt = none ∧ 0 < m.accessCount).insertionSort MostRecalled).take
    limit).map fun m => ⟨m.memoryId, m.accessCount⟩

/-- The memories created on each day since a second, without the days that have none. -/
def createdPerDay (rows : List MemoryRow) (since : Int) : List GrowthBucket :=
  let days := (rows.filter fun m => since ≤ m.createdAt).map fun m => m.createdAt / 86400
  (days.dedup.insertionSort (· ≤ ·)).map fun d => ⟨d, days.count d⟩

/-- `retention_eligible_count`. -/
def Db.retentionEligibleCount (db : Db) (ns : Namespace) (p : RetentionPolicy) (now : DateTime) :
    Result Nat := do
  p.validate
  match ← p.horizon .apply with
  | none => pure 0
  | some days =>
    if ∀ m ∈ db.memories, p.Readable ns .apply (cutoff now days) m then
      pure (db.memories.countP (db.Eligible p ns .apply (cutoff now days)))
    else throw (.storage "malformed JSON")

/-- `last_forget_at`. -/
def Db.lastForgetAt (db : Db) (ns : Namespace) : Option Int :=
  ((db.oplog.filter fun r => r.op = .retentionSweep ∧ r.ns = ns.asDbString).map OplogRow.atTs).max?

/-- `namespace_stats`. -/
def Db.namespaceStats (db : Db) (ns : Namespace) (windowDays : Nat) (model inputVersion : Text)
    (topLimit : Nat) (retention : Option RetentionPolicy) (now : DateTime) : Result MemoryStats := do
  let rows := db.rowsOf ns
  let since := cutoff now windowDays
  let retentionEligible ← retention.mapM fun p => db.retentionEligibleCount ns p now
  pure
    { ns := ns.asDbString
      windowDays := windowDays
      live := rows.countP fun m => m.archivedAt = none
      archived := rows.countP fun m => m.archivedAt ≠ none
      vectors := db.vectors.length
      dbEmbeddingModel := db.metaModel
      feedback := db.feedbackTotals ns
      totalAccesses := (rows.map MemoryRow.accessCount).sum
      accessedInWindow := rows.countP fun m => m.archivedAt = none ∧ ∃ t ∈ m.lastAccessedAt, t ≥ since
      topRecalled := topRecalled rows topLimit
      neverRecalledLive := rows.countP fun m => m.archivedAt = none ∧ m.accessCount = 0
      contested := db.contestedCount ns
      lowConfidenceLive := rows.countP fun m =>
        m.archivedAt = none ∧ m.confidence < reviewLowConfidenceBound
      createdPerDay := createdPerDay rows since
      reembedPending := rows.countP fun m => m.archivedAt = none ∧
        (m.embeddingModel ≠ model ∨ m.embeddingInputVersion ≠ inputVersion)
      retentionEligible := retentionEligible
      lastForgetAt := db.lastForgetAt ns }

/-! ## The snapshot of a corpus -/

/-- `rb_types::CorpusSnapshot`. -/
@[ext]
structure CorpusSnapshot where
  memories : Nat
  generation : Nat
  lastWriteEpochS : Int
  deriving DecidableEq, Repr

/-- `corpus_snapshot`: the rows of the namespace, the last number of its log and of rows under
no namespace, and its last update. -/
def Db.corpusSnapshot (db : Db) (ns : Namespace) : CorpusSnapshot where
  memories := (db.rowsOf ns).length
  generation :=
    ((db.oplog.filter fun r => r.ns = ns.asDbString ∨ r.ns = []).map OplogRow.seq).max?.getD 0
  lastWriteEpochS := ((db.rowsOf ns).map MemoryRow.updatedAt).max?.getD 0

end RustyBrain.Store
