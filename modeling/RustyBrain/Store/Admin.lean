import RustyBrain.Store.Core

/-!
# rusty-brain — administrative operations

Renaming a namespace, scrubbing stored secrets, accepting another embedding model
and rebuilding the vector table: `rename.rs`, `scrub.rs`, `reembed.rs` and the
rebuild of `lifecycle.rs`.
-/

namespace RustyBrain.Store

open Transaction

/-! ## Namespace rename -/

/-- `NamespaceRenameOutcome`. -/
structure NamespaceRenameOutcome where
  memories : Nat
  vectors : Nat
  mergedInto : Nat
  deriving DecidableEq, Repr

/-- The vectors of the memories of a namespace. -/
def Db.movingVectors (db : Db) (ns : Text) : List VectorRow :=
  db.vectors.filter fun v => ∃ m ∈ db.memories, m.memoryId = v.memoryId ∧ m.ns = ns

/-- `UPDATE … SET namespace = new WHERE namespace = old` on anchors and review rows. -/
@[simps]
def Db.rekeyed (db : Db) (old new : Text) : Db :=
  { db with
    anchors := db.anchors.map fun a => if a.ns = old then { a with ns := new } else a
    reviewState := db.reviewState.map fun r => if r.ns = old then { r with ns := new } else r }

/-- Re-key one row of the vector table: delete it and insert it under the new
partition, with the same bytes. -/
def moveVector (new : Text) (v : VectorRow) : StoreM Unit := do
  deleteVectorRow v.memoryId
  insertVectorRow ⟨v.memoryId, new, v.embedding⟩

/-- The rows of `memories` in a namespace. -/
def Db.countRows (db : Db) (ns : Text) : Nat := db.memories.countP fun m => m.ns = ns

/-- `rename_namespace`. -/
def renameNamespace (now : Int) (old new : Namespace) (merge : Bool) :
    StoreM NamespaceRenameOutcome := do
  let oldStr := old.asDbString
  let newStr := new.asDbString
  require (oldStr ≠ newStr) (.invalidArgument
    ("cannot rename namespace `" ++ String.ofList oldStr ++ "` to itself"))
  let db ← get
  require (db.countRows newStr = 0 ∨ merge = true) (.invalidArgument
    ("target namespace `" ++ String.ofList newStr ++ "` already has " ++
      toString (db.countRows newStr) ++ " memories; pass --merge to combine them"))
  require (db.countRows oldStr ≠ 0) (.invalidArgument
    ("namespace `" ++ String.ofList oldStr ++ "` has no memories to rename"))
  -- the moving vectors are read off before the rows change namespace
  let moving := db.movingVectors oldStr
  let moved ← updateMemories (fun m => m.ns = oldStr) (fun m => { m with ns := newStr })
  modify fun db => db.rekeyed oldStr newStr
  moving.forM (moveVector newStr)
  insertOplogRow .namespaceRename none newStr now
    (.rename oldStr newStr moved moving.length (db.countRows newStr))
  pure ⟨moved, moving.length, db.countRows newStr⟩

/-! ## Scrub -/

/-- The columns of a row that feed its embedding. -/
def MemoryRow.sameInput (a b : MemoryRow) : Prop :=
  a.content = b.content ∧ a.context = b.context ∧ a.keywords = b.keywords ∧ a.tags = b.tags
  deriving Decidable

/-- The five text columns of a row after redaction. List columns are redacted as the
JSON text they hold. -/
def MemoryRow.redactText (redact : Text → Text) (m : MemoryRow) : MemoryRow :=
  { m with
    content := redact m.content
    summary := redact m.summary
    context := redact m.context
    keywords := redact m.keywords
    tags := redact m.tags }

/-- Whether the scrub blanks the stamp of a row: it is active and an input of its
embedding changed. -/
def MemoryRow.blanksStamp (redact : Text → Text) (m : MemoryRow) : Prop :=
  m.archivedAt = none ∧ ¬ (m.redactText redact).sameInput m
  deriving Decidable

/-- A row after the scrub. -/
def MemoryRow.scrubbed (redact : Text → Text) (m : MemoryRow) : MemoryRow :=
  let r := m.redactText redact
  if m.blanksStamp redact then { r with embeddingInputVersion := [] } else r

/-- What a scrub counts. -/
structure ScrubOutcome where
  scanned : Nat := 0
  redacted : Nat := 0
  reembedPending : Nat := 0
  deriving DecidableEq, Repr

/-- `SCRUB_BATCH`. -/
def scrubBatch : Nat := 500

/-- `scrub_select_batch`: the next page of rows above the cursor, in id order. The
cursor before the first page is below every id. -/
def Db.scrubSelectBatch (db : Db) (cursor : Option MemoryId) : List MemoryRow :=
  ((db.memories.filter fun m => ∀ c ∈ cursor, c.uuid < m.memoryId.uuid).insertionSort
    fun a b => a.memoryId.uuid ≤ b.memoryId.uuid).take scrubBatch

/-- Redact one row of a page. A row in which nothing changes is not written. -/
def scrubRow (redact : Text → Text) (out : ScrubOutcome) (m : MemoryRow) :
    StoreM ScrubOutcome := do
  if m.redactText redact = m then
    pure out
  else do
    let _ ← updateMemories (fun r => r.memoryId = m.memoryId)
      (fun r => { r with
        content := (m.scrubbed redact).content
        summary := (m.scrubbed redact).summary
        context := (m.scrubbed redact).context
        keywords := (m.scrubbed redact).keywords
        tags := (m.scrubbed redact).tags
        embeddingInputVersion :=
          if m.blanksStamp redact then [] else r.embeddingInputVersion })
    pure { out with
      redacted := out.redacted + 1
      reembedPending := out.reembedPending + if m.blanksStamp redact then 1 else 0 }

/-- The rows of one page, one after the other. -/
def scrubPage (redact : Text → Text) : ScrubOutcome → List MemoryRow → StoreM ScrubOutcome
  | out, [] => pure out
  | out, m :: rest => do
    let out ← scrubRow redact out m
    scrubPage redact out rest

/-- The page loop of `scrub`. Every page moves the cursor up, so one turn more than
there are rows always reaches the empty page. -/
def scrubLoop (redact : Text → Text) : Nat → Option MemoryId → ScrubOutcome →
    StoreM ScrubOutcome
  | 0, _, out => pure out
  | fuel + 1, cursor, out => do
    let batch := (← get).scrubSelectBatch cursor
    match batch.getLast? with
    | none => pure out
    | some last => do
      let out ← scrubPage redact { out with scanned := out.scanned + batch.length } batch
      scrubLoop redact fuel (some last.memoryId) out

/-- `scrub`: one transaction; the checkpoint of the log file after it touches no table. -/
def scrub (redact : Text → Text) (now : Int) : StoreM ScrubOutcome := do
  let fuel := (← get).memories.length + 1
  let out ← scrubLoop redact fuel none {}
  if out.redacted > 0 then
    insertOplogRow .scrub none [] now (.scrub out.scanned out.redacted out.reembedPending)
  else pure ()
  pure out

/-! ## The vector table -/

/-- The meta rows and the empty vector table of another embedding space. -/
@[simps]
def Db.withSpace (db : Db) (dim : Nat) (model : Text) : Db :=
  { db with vectors := [], embeddingDim := dim, metaDim := some dim, metaModel := some model }

/-- `accept_embedding_space_change`: point the store at another model, drop the vectors
and blank every stamp. Whether anything changed. -/
def acceptEmbeddingSpaceChange (dim : Nat) (model : Text) : StoreM Bool := do
  require (dim ≠ 0) (.storage "embedding_dim must be greater than 0")
  let db ← get
  if db.metaModel = some model ∧ db.metaDim = some dim then
    pure false
  else do
    modify fun db => db.withSpace dim model
    let _ ← updateMemories (fun _ => True) (fun m => { m with embeddingInputVersion := [] })
    pure true

/-- The vectors of live memories, each under the namespace its memory has now. -/
def Db.vectorStash (db : Db) : List VectorRow :=
  db.vectors.filterMap fun v =>
    (db.memories.find? fun m => m.memoryId = v.memoryId ∧ m.archivedAt = none).map
      fun m => ⟨v.memoryId, m.ns, v.embedding⟩

/-- `SIMILARITY_LINK_MAX_COSINE_DISTANCE`, the `f32` nearest to 0.18. -/
def similarityLinkMaxCosineDistance : ℚ := 12079596 / 2 ^ 26

/-- A link of the similarity linker whose ends are too far apart by the new metric. -/
def tooFar (env : Env) (stash : List VectorRow) (l : LinkRow) : Prop :=
  l.reason = similarReason ∧
    ∃ s ∈ stash, ∃ t ∈ stash, s.memoryId = l.sourceId ∧ t.memoryId = l.targetId ∧
      env.distance s.embedding t.embedding > similarityLinkMaxCosineDistance
  deriving Decidable

/-- `rebuild_vector_table`: keep the vectors of live memories and drop similarity links
that no longer qualify. -/
def rebuildVectorTable (env : Env) : StoreM Unit := do
  let db ← get
  let stash := db.vectorStash
  let _ ← deleteLinkRows (tooFar env stash)
  modify fun db => db.setVectors []
  stash.forM insertVectorRow

end RustyBrain.Store
