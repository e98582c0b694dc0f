import RustyBrain.Store.Db

/-!
# rusty-brain — SQL statements

The statements the store runs, each with the constraints SQLite enforces on it and
one inversion lemma (`runs_…`) that says all a successful statement does. Everything
above this module is a sequence of these statements.
-/

namespace RustyBrain.Store

open Transaction List

variable {db db' : Db} {u : Unit} {n : Nat} {id : MemoryId} {details : OplogDetails}

/-! ## Constraint failures -/

/-- A row refers to a missing row of `memories`, or a deleted row is still referred to. -/
def foreignKeyFailed : Error := .storage "FOREIGN KEY constraint failed"

/-- A `CHECK` refuses the row. -/
def checkFailed (check : String) : Error := .storage ("CHECK constraint failed: " ++ check)

/-- The primary key `column` is taken. -/
def uniqueFailed (column : String) : Error := .storage ("UNIQUE constraint failed: " ++ column)

/-! ## `memories` -/

/-- The table with one more memory. -/
@[simps]
def Db.addMemory (db : Db) (r : MemoryRow) : Db :=
  { db with memories := db.memories ++ [r] }

/-- `INSERT INTO memories`. -/
def insertMemoryRow (r : MemoryRow) : StoreM Unit := do
  let db ← get
  require r.Check (checkFailed r.failed)
  require (r.memoryId ∉ db.ids) (uniqueFailed "memories.memory_id")
  -- a row may point at itself: the reference is checked after the insert
  require (∀ t ∈ r.supersededBy, t ∈ db.ids ∨ t = r.memoryId) foreignKeyFailed
  set (db.addMemory r)

/-- A row is refused for a `CHECK`, an id in use or a pointer to nothing. -/
theorem runs_insertMemoryRow {r : MemoryRow} :
    Runs (insertMemoryRow r) db u db' ↔
      r.Check ∧ r.memoryId ∉ db.ids ∧
      (∀ t ∈ r.supersededBy, t ∈ db.ids ∨ t = r.memoryId) ∧
      db.addMemory r = db' := by
  simp [insertMemoryRow]

section Update

variable (p : MemoryRow → Prop) [DecidablePred p] (f : MemoryRow → MemoryRow)

/-- The rows that `p` selects, rewritten by `f`. -/
@[simps]
def Db.setMemories (db : Db) : Db :=
  { db with memories := db.memories.map fun r => if p r then f r else r }

/-- `UPDATE memories SET f WHERE p`: the number of rows it touched. -/
def updateMemories : StoreM Nat := do
  let db ← get
  require (∀ r ∈ db.memories, p r → (f r).Check)
    (checkFailed (((db.memories.filter p).map f).find? (¬ ·.Check) |>.elim "" MemoryRow.failed))
  require (∀ r ∈ db.memories, p r → ∀ t ∈ (f r).supersededBy, t ∈ db.ids) foreignKeyFailed
  set (db.setMemories p f)
  pure (db.memories.countP p)

variable {p f}

/-- An update is refused as a whole when one row of it breaks a constraint. -/
theorem runs_updateMemories :
    Runs (updateMemories p f) db n db' ↔
      (∀ r ∈ db.memories, p r → (f r).Check) ∧
      (∀ r ∈ db.memories, p r → ∀ t ∈ (f r).supersededBy, t ∈ db.ids) ∧
      db.memories.countP p = n ∧ db.setMemories p f = db' := by
  simp only [updateMemories, runs_bind, runs_get, runs_require, runs_set, runs_pure]
  constructor
  · rintro ⟨_, _, ⟨rfl, rfl⟩, _, _, ⟨hCheck, rfl⟩, _, _, ⟨hFk, rfl⟩, _, _, rfl, hn, rfl⟩
    exact ⟨hCheck, hFk, hn, rfl⟩
  · rintro ⟨hCheck, hFk, hn, rfl⟩
    exact ⟨db, db, ⟨rfl, rfl⟩, (), db, ⟨hCheck, rfl⟩, (), db, ⟨hFk, rfl⟩, ⟨⟩, _, rfl, hn, rfl⟩

end Update

/-- No row of another table, and no pointer of another memory, refers to `id`. -/
def Db.Unreferenced (db : Db) (id : MemoryId) : Prop :=
  (∀ l ∈ db.links, l.sourceId ≠ id ∧ l.targetId ≠ id) ∧
  (∀ a ∈ db.anchors, a.memoryId ≠ id) ∧
  (∀ r ∈ db.memories, r.memoryId ≠ id → r.supersededBy ≠ some id)
  deriving Decidable

/-- The table without the row of a memory. -/
@[simps]
def Db.removeMemory (db : Db) (id : MemoryId) : Db :=
  { db with memories := db.memories.filter fun r => r.memoryId ≠ id }

/-- `DELETE FROM memories WHERE memory_id = id`. -/
def deleteMemoryRow (id : MemoryId) : StoreM Unit := do
  let db ← get
  require (id ∈ db.ids → db.Unreferenced id) foreignKeyFailed
  set (db.removeMemory id)

/-- A row that another table refers to stays. -/
theorem runs_deleteMemoryRow :
    Runs (deleteMemoryRow id) db u db' ↔
      (id ∈ db.ids → db.Unreferenced id) ∧ db.removeMemory id = db' := by
  simp [deleteMemoryRow]

/-! ## `memory_links` -/

/-- Both endpoints of a link are rows of `memories`. -/
def Db.HasEnds (db : Db) (l : LinkRow) : Prop := l.sourceId ∈ db.ids ∧ l.targetId ∈ db.ids
  deriving Decidable

/-- The store with other links. -/
@[simps]
def Db.setLinks (db : Db) (links : List LinkRow) : Db := { db with links := links }

/-- `INSERT INTO memory_links`, with the error that a taken primary key maps to. -/
def insertLinkRow (duplicate : Error) (l : LinkRow) : StoreM Unit := do
  let db ← get
  require l.Check (checkFailed l.failed)
  require (∀ k ∈ db.links, k.key ≠ l.key) duplicate
  require (db.HasEnds l) foreignKeyFailed
  set (db.setLinks (db.links ++ [l]))

/-- A link has two ends, and its key once. -/
theorem runs_insertLinkRow {e : Error} {l : LinkRow} :
    Runs (insertLinkRow e l) db u db' ↔
      l.Check ∧ (∀ k ∈ db.links, k.key ≠ l.key) ∧ db.HasEnds l ∧
      db.setLinks (db.links ++ [l]) = db' := by
  simp [insertLinkRow]

/-- Append the links whose key is not taken yet, one after the other. -/
def addLinks : List LinkRow → List LinkRow → List LinkRow
  | links, [] => links
  | links, l :: new =>
    if ∀ k ∈ links, k.key ≠ l.key then addLinks (links ++ [l]) new else addLinks links new

/-- What is there afterwards was there before or is new. -/
theorem mem_addLinks {links new : List LinkRow} {l : LinkRow} (h : l ∈ addLinks links new) :
    l ∈ links ∨ l ∈ new := by
  induction new generalizing links with
  | nil => exact .inl h
  | cons k rest ih =>
    unfold addLinks at h
    split at h
    · rcases ih h with hOld | hRest
      · rcases mem_append.mp hOld with hOld | hNew
        · exact .inl hOld
        · exact .inr (mem_singleton.mp hNew ▸ mem_cons_self)
      · exact .inr (mem_cons_of_mem _ hRest)
    · exact (ih h).imp_right (mem_cons_of_mem _)

/-- `INSERT OR IGNORE INTO memory_links … SELECT`: a taken key is skipped, a missing
endpoint is not. -/
def insertLinksOrIgnore (new : Db → List LinkRow) : StoreM Unit := do
  let db ← get
  require (∀ l ∈ addLinks db.links (new db), db.HasEnds l) foreignKeyFailed
  set (db.setLinks (addLinks db.links (new db)))

/-- `OR IGNORE` skips a key in use, but refuses a missing end. -/
theorem runs_insertLinksOrIgnore {new : Db → List LinkRow} :
    Runs (insertLinksOrIgnore new) db u db' ↔
      (∀ l ∈ addLinks db.links (new db), db.HasEnds l) ∧
      db.setLinks (addLinks db.links (new db)) = db' := by
  simp [insertLinksOrIgnore]

section Links

variable (p : LinkRow → Prop) [DecidablePred p]

/-- `DELETE FROM memory_links WHERE p`. -/
def deleteLinkRows : StoreM Nat := do
  let db ← get
  set (db.setLinks (db.links.filter fun l => ¬ p l))
  pure (db.links.countP p)

/-- `UPDATE memory_links SET strength = s WHERE p`. -/
def updateLinkStrength (s : ℚ) : StoreM Nat := do
  let db ← get
  require (∀ l ∈ db.links, p l → ({ l with strength := s } : LinkRow).Check)
    (checkFailed "strength BETWEEN 0.0 AND 1.0")
  set (db.setLinks (db.links.map fun l => if p l then { l with strength := s } else l))
  pure (db.links.countP p)

variable {p}

theorem runs_deleteLinkRows :
    Runs (deleteLinkRows p) db n db' ↔
      db.setLinks (db.links.filter fun l => ¬ p l) = db' ∧ db.links.countP p = n := by
  simp [deleteLinkRows]

theorem runs_updateLinkStrength {s : ℚ} :
    Runs (updateLinkStrength p s) db n db' ↔
      (∀ l ∈ db.links, p l → ({ l with strength := s } : LinkRow).Check) ∧
      db.setLinks (db.links.map fun l => if p l then { l with strength := s } else l) = db' ∧
      db.links.countP p = n := by
  simp [updateLinkStrength]

end Links

/-! ## `memory_vectors` -/

/-- The store with other vectors. -/
@[simps]
def Db.setVectors (db : Db) (vectors : List VectorRow) : Db := { db with vectors := vectors }

/-- `INSERT INTO memory_vectors`: the table refuses a second vector of a memory and a
vector of the wrong length. -/
def insertVectorRow (v : VectorRow) : StoreM Unit := do
  let db ← get
  require (v.embedding.length = db.embeddingDim)
    (.storage "Dimension mismatch for inserted vector")
  require (∀ w ∈ db.vectors, w.memoryId ≠ v.memoryId)
    (uniqueFailed "memory_vectors primary key")
  set (db.setVectors (db.vectors ++ [v]))

/-- The vector table takes one row for a memory, of its own dimension. -/
theorem runs_insertVectorRow {v : VectorRow} :
    Runs (insertVectorRow v) db u db' ↔
      v.embedding.length = db.embeddingDim ∧ (∀ w ∈ db.vectors, w.memoryId ≠ v.memoryId) ∧
      db.setVectors (db.vectors ++ [v]) = db' := by
  simp [insertVectorRow]

/-- The vectors of every other memory. -/
def Db.dropVector (db : Db) (id : MemoryId) : Db :=
  db.setVectors (db.vectors.filter fun v => v.memoryId ≠ id)

/-- `DELETE FROM memory_vectors WHERE memory_id = id`. -/
def deleteVectorRow (id : MemoryId) : StoreM Unit := modify fun db => db.dropVector id

@[simp]
theorem runs_deleteVectorRow : Runs (deleteVectorRow id) db u db' ↔ db.dropVector id = db' := by
  simp [deleteVectorRow]

/-- A vector row with the embedding `e` when it is the row of `id`. -/
def VectorRow.withEmbedding (id : MemoryId) (e : Embedding) (v : VectorRow) : VectorRow :=
  if v.memoryId = id then { v with embedding := e } else v

/-- `UPDATE memory_vectors SET embedding = e WHERE memory_id = id`. -/
def updateVectorRow (id : MemoryId) (e : Embedding) : StoreM Nat := do
  let db ← get
  set (db.setVectors (db.vectors.map (VectorRow.withEmbedding id e)))
  pure (db.vectors.countP fun v => v.memoryId = id)

theorem runs_updateVectorRow {e : Embedding} :
    Runs (updateVectorRow id e) db n db' ↔
      db.setVectors (db.vectors.map (VectorRow.withEmbedding id e)) = db' ∧
      (db.vectors.countP fun v => v.memoryId = id) = n := by
  simp [updateVectorRow]

/-! ## `memory_feedback`, `memory_anchors`, `review_state` -/

/-- The store with other feedback rows, numbered up to `last`. -/
@[simps]
def Db.setFeedback (db : Db) (feedback : List FeedbackRow) (last : Nat) : Db :=
  { db with feedback := feedback, lastFeedback := last }

/-- `INSERT INTO memory_feedback`. -/
def insertFeedbackRow (memoryId : MemoryId) (ns : Text) (kind : FeedbackKind)
    (principal : Option Text) (atTs : Int) : StoreM Unit :=
  modify fun db =>
    db.setFeedback (db.feedback ++ [⟨db.lastFeedback + 1, memoryId, ns, kind, principal, atTs⟩])
      (db.lastFeedback + 1)

/-- `DELETE FROM memory_feedback WHERE memory_id = id`. -/
def deleteFeedbackRows (id : MemoryId) : StoreM Unit :=
  modify fun db =>
    db.setFeedback (db.feedback.filter fun r => r.memoryId ≠ id) db.lastFeedback

/-- The store with one more anchor. -/
@[simps]
def Db.addAnchor (db : Db) (a : AnchorRow) : Db :=
  { db with anchors := db.anchors ++ [a], lastAnchor := db.lastAnchor + 1 }

/-- `INSERT INTO memory_anchors`; the row id comes from the counter. -/
def insertAnchorRow (mk : Nat → AnchorRow) : StoreM Unit := do
  let db ← get
  let a := mk (db.lastAnchor + 1)
  require a.Check (checkFailed a.failed)
  require (a.memoryId ∈ db.ids) foreignKeyFailed
  set (db.addAnchor a)

/-- An anchor gets the next number, and belongs to a memory. -/
theorem runs_insertAnchorRow {mk : Nat → AnchorRow} :
    Runs (insertAnchorRow mk) db u db' ↔
      (mk (db.lastAnchor + 1)).Check ∧ (mk (db.lastAnchor + 1)).memoryId ∈ db.ids ∧
      db.addAnchor (mk (db.lastAnchor + 1)) = db' := by
  simp [insertAnchorRow]

/-- The store with other review rows. -/
@[simps]
def Db.setReviewState (db : Db) (reviewState : List ReviewRow) : Db :=
  { db with reviewState := reviewState }

/-- `INSERT INTO review_state … ON CONFLICT(item_key) DO UPDATE`. -/
def upsertReviewRow (r : ReviewRow) : StoreM Unit :=
  modify fun db => db.setReviewState
    (if ∃ q ∈ db.reviewState, q.itemKey = r.itemKey then
      db.reviewState.map fun q => if q.itemKey = r.itemKey then r else q
    else db.reviewState ++ [r])

/-! ## `memory_oplog` -/

/-- The log with one more row; the sequence number comes from the counter, which
never goes back. -/
@[simps]
def Db.logged (db : Db) (op : OplogOp) (memoryId : Option MemoryId) (ns : Text) (now : Int)
    (details : OplogDetails) : Db :=
  { db with
    oplog := db.oplog ++ [⟨db.lastSeq + 1, db.siteId, op, memoryId, ns, now, details⟩]
    lastSeq := db.lastSeq + 1 }

/-- `INSERT INTO memory_oplog`. -/
def insertOplogRow (op : OplogOp) (memoryId : Option MemoryId) (ns : Text) (now : Int)
    (details : OplogDetails) : StoreM Unit :=
  modify fun db => db.logged op memoryId ns now details

@[simp]
theorem runs_insertOplogRow {op : OplogOp} {memoryId : Option MemoryId} {ns : Text} {now : Int}
    :
    Runs (insertOplogRow op memoryId ns now details) db u db' ↔
      db.logged op memoryId ns now details = db' := by
  simp [insertOplogRow]

/-- The log without the rows about a memory; the counter stays. -/
@[simps]
def Db.unlogged (db : Db) (id : MemoryId) : Db :=
  { db with oplog := db.oplog.filter fun r => r.memoryId ≠ some id }

/-- `DELETE FROM memory_oplog WHERE memory_id = id`. -/
def deleteOplogRows (id : MemoryId) : StoreM Unit := modify fun db => db.unlogged id

/-- `append_oplog`: one row about `id` under the namespace its row has now; a memory
that is not there logs nothing. -/
def appendOplog (op : OplogOp) (id : MemoryId) (now : Int) (details : OplogDetails) :
    StoreM Unit := do
  match (← get).find id with
  | some r => insertOplogRow op (some id) r.ns now details
  | none => pure ()

/-- The log after `append_oplog`. -/
def Db.appended (db : Db) (op : OplogOp) (id : MemoryId) (now : Int) (details : OplogDetails) :
    Db :=
  match db.find id with
  | some r => db.logged op (some id) r.ns now details
  | none => db

theorem runs_appendOplog {op : OplogOp} {now : Int} :
    Runs (appendOplog op id now details) db u db' ↔ db.appended op id now details = db' := by
  simp only [appendOplog, runs_bind, runs_get, Db.appended]
  constructor
  · rintro ⟨_, _, ⟨rfl, rfl⟩, h⟩
    cases hFind : db.find id with
    | none | some r => simpa [hFind] using h
  · intro h
    refine ⟨db, db, ⟨rfl, rfl⟩, ?_⟩
    cases hFind : db.find id with
    | none | some r => simpa [hFind] using h

end RustyBrain.Store
