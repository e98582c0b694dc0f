import RustyBrain.Types.Note
import RustyBrain.Lib.Transaction

/-!
# rusty-brain — tables and statements of the store

The tables that `rb-store/migrations` create, as lists of rows in row-id order, and
the SQL statements the store runs on them. A statement checks what SQLite checks
with `foreign_keys = ON`: primary keys, `CHECK`s, and after each statement the
references into `memories`. A statement that fails ends the transaction, which
then leaves no trace (`Transaction.commit`).

What is left out of the tables: the full-text index (a copy of text columns that
triggers maintain), the indexes, and the keys of `meta` that no operation here reads.
-/

namespace RustyBrain.Store

open Transaction

/-! ## Rows -/

/-- A row of `memories`. List columns hold JSON text and time columns unix seconds.
Here and below `ns` is the `namespace` column and `atTs` the `at` column. -/
structure MemoryRow where
  memoryId : MemoryId
  ns : Text
  createdAt : Int
  updatedAt : Int
  content : Text
  summary : Text
  keywords : Text
  tags : Text
  context : Text
  memoryType : MemoryType
  importance : Nat
  confidence : ℚ
  relatedFiles : Text
  accessCount : Nat
  lastAccessedAt : Option Int
  archivedAt : Option Int
  supersededBy : Option MemoryId
  embeddingModel : Text
  embeddingInputVersion : Text
  originUser : Option Text
  originHost : Option Text
  originAgent : Option Text
  originSource : Option Text
  originChannel : Option WriteChannel
  sessionId : Option Text
  baseImportance : Option Nat
  trustClass : TrustClass
  humanCurated : Bool
  legacyUnknown : Bool
  deriving DecidableEq

namespace MemoryRow

/-- The `CHECK`s of `memories` that the column types do not already state. -/
def Check (r : MemoryRow) : Prop :=
  (1 ≤ r.importance ∧ r.importance ≤ 10) ∧ 0 ≤ r.confidence ∧ r.confidence ≤ 1
  deriving Decidable

/-- The text of the `CHECK` that a row fails. -/
def failed (r : MemoryRow) : String :=
  if 1 ≤ r.importance ∧ r.importance ≤ 10 then "confidence BETWEEN 0.0 AND 1.0"
  else "importance BETWEEN 1 AND 10"

/-- Neither archived nor superseded: the row is current truth. -/
def Current (r : MemoryRow) : Prop := r.archivedAt = none ∧ r.supersededBy = none
  deriving Decidable

/-- `ORDER BY created_at ASC, memory_id ASC`. -/
def OldestFirst (a b : MemoryRow) : Prop :=
  a.createdAt < b.createdAt ∨ (a.createdAt = b.createdAt ∧ a.memoryId.uuid ≤ b.memoryId.uuid)
  deriving Decidable

end MemoryRow

/-- A row of `memory_links`. -/
structure LinkRow where
  sourceId : MemoryId
  targetId : MemoryId
  linkType : LinkType
  strength : ℚ
  baseStrength : ℚ
  reason : Text
  createdAt : Int
  deriving DecidableEq

namespace LinkRow

/-- The primary key of `memory_links`. -/
def key (l : LinkRow) : MemoryId × MemoryId × LinkType := (l.sourceId, l.targetId, l.linkType)

/-- The `CHECK`s of `memory_links`. -/
def Check (l : LinkRow) : Prop :=
  (0 ≤ l.strength ∧ l.strength ≤ 1) ∧ 0 ≤ l.baseStrength ∧ l.baseStrength ≤ 1
  deriving Decidable

def failed (l : LinkRow) : String :=
  (if 0 ≤ l.strength ∧ l.strength ≤ 1 then "base_" else "") ++ "strength BETWEEN 0.0 AND 1.0"

end LinkRow

/-- A row of the vector table: one vector per memory, partitioned by namespace. The
table has no foreign key. -/
structure VectorRow where
  memoryId : MemoryId
  ns : Text
  embedding : Embedding
  deriving DecidableEq

/-- A row of `memory_feedback`, which has no foreign key. -/
structure FeedbackRow where
  id : Nat
  memoryId : MemoryId
  ns : Text
  kind : FeedbackKind
  principal : Option Text
  atTs : Int
  deriving DecidableEq

/-- A row of `memory_anchors`: `path` holds the value of a file anchor, `ref` the
value of any other. -/
structure AnchorRow where
  id : Nat
  memoryId : MemoryId
  ns : Text
  kind : AnchorKind
  path : Option Text
  startLine : Option Nat
  endLine : Option Nat
  ref : Option Text
  deriving DecidableEq

namespace AnchorRow

/-- The `CHECK`s of `memory_anchors`. -/
def Check (a : AnchorRow) : Prop :=
  ((a.kind = .file ∧ a.path.isSome ∧ a.ref = none) ∨
    (a.kind ≠ .file ∧ a.ref.isSome ∧ a.path = none ∧ a.startLine = none ∧ a.endLine = none)) ∧
  (∀ s ∈ a.startLine, 1 ≤ s) ∧
  (∀ e ∈ a.endLine, ∃ s ∈ a.startLine, s ≤ e)
  deriving Decidable

def failed (a : AnchorRow) : String :=
  if a.kind = .file ∧ (a.path = none ∨ a.ref ≠ none) ∨
      a.kind ≠ .file ∧ (a.ref = none ∨ (a.path, a.startLine, a.endLine) ≠ (none, none, none)) then
    "(kind = 'file' AND path IS NOT NULL AND ref IS NULL)\n    OR (kind IN ('commit', 'symbol') " ++
      "AND ref IS NOT NULL AND path IS NULL\n        AND start_line IS NULL AND end_line IS NULL)"
  else if ∃ s ∈ a.startLine, s < 1 then "start_line IS NULL OR start_line >= 1"
  else "end_line IS NULL OR (start_line IS NOT NULL AND end_line >= start_line)"

end AnchorRow

/-- The `op` column of `memory_oplog`. -/
inductive OplogOp where
  | insert | update | archive | supersede | link | unlink | feedback
  | setImportance | setConfidence | setLinkStrength
  | namespaceRename | retentionSweep | purge | scrub | reviewResolve | reviewSweep
  deriving DecidableEq, Repr

/-- `rb_types::ForgetMode`: archive, or delete for good. -/
inductive ForgetMode where
  | apply | hard
  deriving DecidableEq, Repr

/-- `rb_types::ForgetRule`: which horizon of the policy a candidate passed. -/
inductive ForgetRule where
  | archiveAge | maxAge
  deriving DecidableEq, Repr

/-- The `details` column of `memory_oplog`: the JSON payload of each kind of row, by
its fields. -/
inductive OplogDetails where
  | empty
  | edge (linkType : LinkType) (target : MemoryId)
  | edgeStrength (linkType : LinkType) (target : MemoryId) (strength : ℚ)
  | newId (new : MemoryId)
  | importance (value : Nat)
  | confidence (value : ℚ)
  | feedback (kind : FeedbackKind) (confidence : ℚ)
  | retention (mode : ForgetMode) (rule : ForgetRule)
  | sweep (mode : ForgetMode) (archived purged eligible skipped : Nat) (failure : Option String)
  | rename (old new : Text) (moved vectors mergedInto : Nat)
  | scrub (scanned redacted reembedPending : Nat)
  | review (payload : Text)
  deriving DecidableEq

/-- A row of `memory_oplog`. A row about no single memory stores the empty text as
its memory id, here `none`. -/
structure OplogRow where
  seq : Nat
  siteId : Text
  op : OplogOp
  memoryId : Option MemoryId
  ns : Text
  atTs : Int
  details : OplogDetails
  deriving DecidableEq

/-- A row of `review_state`. -/
structure ReviewRow where
  itemKey : String
  ns : Text
  reviewedAt : Int
  snoozeUntil : Option Int
  deriving DecidableEq

/-! ## The database -/

/-- The store: its tables, the `AUTOINCREMENT` counters (the largest number ever
given out), and the constants of the open connection. -/
structure Db where
  siteId : Text
  embeddingDim : Nat
  metaModel : Option Text
  metaDim : Option Nat
  memories : List MemoryRow
  links : List LinkRow
  vectors : List VectorRow
  feedback : List FeedbackRow
  anchors : List AnchorRow
  reviewState : List ReviewRow
  oplog : List OplogRow
  lastSeq : Nat
  lastFeedback : Nat
  lastAnchor : Nat
  deriving DecidableEq

/-- A store operation: a transaction over the tables. -/
abbrev StoreM (α : Type) := Tx Db Error α

namespace Db

/-- A freshly initialised store. -/
def init (siteId : Text) (embeddingDim : Nat) (model : Option Text) : Db where
  siteId := siteId
  embeddingDim := embeddingDim
  metaModel := model
  metaDim := some embeddingDim
  memories := []
  links := []
  vectors := []
  feedback := []
  anchors := []
  reviewState := []
  oplog := []
  lastSeq := 0
  lastFeedback := 0
  lastAnchor := 0

/-- The row of a memory. -/
def find (db : Db) (id : MemoryId) : Option MemoryRow :=
  db.memories.find? fun r => r.memoryId = id

/-- The ids that `memories` holds. -/
def ids (db : Db) : List MemoryId := db.memories.map MemoryRow.memoryId

end Db

end RustyBrain.Store
