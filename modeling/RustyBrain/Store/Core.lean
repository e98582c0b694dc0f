import RustyBrain.Store.Decode
import RustyBrain.Types.Update

/-!
# rusty-brain — the core write operations

`core.rs`, `link_decay.rs` and the shared bodies of `internal.rs`: inserting,
updating, archiving and superseding memories, their links, accesses, feedback and
vectors. Each operation is a transaction body; where the source reads the clock,
the second it read is the parameter `now`.
-/

namespace RustyBrain.Store

open Transaction

/-- What the store calls outside this repository, and the redaction that `scrub`
applies: SHA-256, the cosine similarity of two stored vectors (`none` when one of
them has no direction) and `vec_distance_cosine`. -/
structure Env where
  sha256 : List UInt8 → BitVec 256
  similarity : Embedding → Embedding → Option ℚ
  distance : Embedding → Embedding → ℚ
  redact : Text → Text

/-! ## Insert -/

/-- The row that `insert_memory_tx_body` writes for a note. -/
def noteRow (n : MemoryNote) : MemoryRow where
  memoryId := n.id
  ns := n.ns.asDbString
  createdAt := n.createdAt.secs
  updatedAt := n.updatedAt.secs
  content := n.content
  summary := n.summary
  keywords := jsonArray n.keywords
  tags := jsonArray n.tags
  context := n.context
  memoryType := n.memoryType
  importance := n.importance
  confidence := n.confidence
  relatedFiles := jsonArray n.relatedFiles
  accessCount := n.accessCount
  lastAccessedAt := n.lastAccessedAt.map DateTime.secs
  archivedAt := n.archivedAt.map DateTime.secs
  supersededBy := n.supersededBy
  embeddingModel := n.embeddingModel
  embeddingInputVersion := n.embeddingInputVersion
  originUser := n.originUser
  originHost := n.originHost
  originAgent := n.originAgent
  originSource := n.originSource
  originChannel := n.originChannel
  sessionId := n.sessionId
  -- the importance the author set, which recalibration never writes
  baseImportance := some n.importance
  trustClass := n.trustClass
  humanCurated := n.humanCurated
  legacyUnknown := n.legacyUnknown

/-- The anchors as stored: normalised, and each exact duplicate once, in the order
first seen. -/
def distinctAnchors (seen : List MemoryAnchor) : List MemoryAnchor → List MemoryAnchor
  | [] => []
  | a :: rest =>
    let b := { a with value := normalizeAnchorValue a.kind a.value }
    if b ∈ seen then distinctAnchors seen rest else b :: distinctAnchors (b :: seen) rest

/-- The row of one anchor; the value goes to the column of its kind. -/
def anchorRow (n : MemoryNote) (a : MemoryAnchor) (id : Nat) : AnchorRow where
  id := id
  memoryId := n.id
  ns := n.ns.asDbString
  kind := a.kind
  path := if a.kind = .file then some a.value else none
  startLine := a.startLine
  endLine := a.endLine
  ref := if a.kind = .file then none else some a.value

/-- The row of a link as created: its strength is also its baseline. -/
def linkRow (l : MemoryLink) : LinkRow :=
  ⟨l.sourceId, l.targetId, l.linkType, l.strength, l.strength, l.reason, l.createdAt.secs⟩

/-- One link of an inserted note, with its own log row about the source. -/
def insertNoteLink (now : Int) (l : MemoryLink) : StoreM Unit := do
  insertLinkRow (uniqueFailed "memory_links") (linkRow l)
  appendOplog .link l.sourceId now (.edge l.linkType l.targetId)

/-- The vector of an inserted note, under the note's namespace. -/
def insertNoteVector (n : MemoryNote) : Option Embedding → StoreM Unit
  | some e => insertVectorRow ⟨n.id, n.ns.asDbString, e⟩
  | none => pure ()

/-- `insert_memory_tx_body`. -/
def insertMemoryTxBody (now : Int) (n : MemoryNote) (embedding : Option Embedding) :
    StoreM Unit := do
  insertMemoryRow (noteRow n)
  appendOplog .insert n.id now .empty
  (distinctAnchors [] n.anchors).forM fun a => insertAnchorRow (anchorRow n a)
  insertNoteVector n embedding
  n.links.forM (insertNoteLink now)

/-- The checks of a note that every insert makes first. -/
def validateNote (n : MemoryNote) : StoreM Unit := do
  attempt (validateImportance n.importance)
  attempt (validateConfidence n.confidence)
  n.anchors.forM fun a => attempt a.validate

/-- `insert_memory`. -/
def insertMemory (now : Int) (n : MemoryNote) (embedding : Option Embedding) : StoreM Unit := do
  validateNote n
  insertMemoryTxBody now n embedding

/-! ## Supersede -/

/-- `SupersedeGuard`: the outcome of the guarded supersede. -/
inductive SupersedeGuard where
  | applied
  | selfSupersede
  | missingOld
  | oldResolved (archived superseded : Bool)
  | missingNew
  | newNotCurrent (archived superseded : Bool)
  deriving DecidableEq, Repr

/-- `supersede_guarded_in_tx`: the one place that sets a pointer. The new memory must
be current, and the old row is taken only while it is current itself. -/
def supersedeGuardedInTx (old new : MemoryId) (now : Int) : StoreM SupersedeGuard := do
  if old = new then
    pure .selfSupersede
  else
    match (← get).find new with
    | none => pure .missingNew
    | some r =>
      if r.Current then
        let affected ← updateMemories
          (fun m => m.memoryId = old ∧ m.supersededBy = none ∧ m.archivedAt = none)
          (fun m => { m with supersededBy := some new, archivedAt := some now, updatedAt := now })
        if affected = 0 then
          match (← get).find old with
          | none => pure .missingOld
          | some m => pure (.oldResolved m.archivedAt.isSome m.supersededBy.isSome)
        else
          deleteVectorRow old
          appendOplog .supersede old now (.newId new)
          pure .applied
      else
        pure (.newNotCurrent r.archivedAt.isSome r.supersededBy.isSome)

/-- The text of a Rust `bool`. -/
def boolText (b : Bool) : String := if b then "true" else "false"

/-- `supersede_in_tx`: the guarded supersede with the errors of the general path. -/
def supersedeInTx (old new : MemoryId) (now : Int) : StoreM Unit := do
  match ← supersedeGuardedInTx old new now with
  | .applied => pure ()
  | .selfSupersede =>
    throw (.invalidArgument ("a memory cannot supersede itself: " ++ old.display))
  | .missingOld => throw (.notFound old)
  | .oldResolved archived superseded =>
    throw (.stalePlan (old.display ++ " was already resolved (archived: " ++ boolText archived ++
      ", superseded: " ++ boolText superseded ++ "); re-plan against the current row"))
  | .missingNew => throw (.notFound new)
  | .newNotCurrent archived superseded =>
    throw (.stalePlan (new.display ++ " is no longer current truth (archived: " ++
      boolText archived ++ ", superseded: " ++ boolText superseded ++
      "); a supersede must point at an active replacement"))

/-- `supersede`. -/
def supersede (now : Int) (old new : MemoryId) : StoreM Unit := supersedeInTx old new now

/-- `SELECT MAX(seq) FROM memory_oplog WHERE memory_id = id`. -/
def Db.latestOplogSeqFor (db : Db) (id : MemoryId) : Option Nat :=
  ((db.oplog.filter fun r => r.memoryId = some id).map OplogRow.seq).max?

/-- `latest_oplog_seq_for`, which must find a row. -/
def latestOplogSeq (id : MemoryId) (missing : String) : StoreM Nat := do
  match (← get).latestOplogSeqFor id with
  | some seq => pure seq
  | none => throw (.storage missing)

/-- The refusals of `insert_superseding_memory` on its target: another namespace, and
a curated memory without the permission. -/
def checkTarget (n : MemoryNote) (old : MemoryId) (allowCuratedSupersede : Bool) :
    Option MemoryNote → StoreM Unit
  | some o => do
    require (o.ns = n.ns) (.notFound old)
    require (o.humanCurated = true → allowCuratedSupersede = true)
      (.stalePlan (old.display ++ " is human-curated; an explicit user supersede is required"))
  | none => pure ()

/-- The second half of `insert_superseding_memory`: retire a target that is current. A
target that is missing or already resolved stays as it is. -/
def retireTarget (now : Int) (new old : MemoryId) : Option MemoryNote → StoreM (Option Nat)
  | some o =>
    if o.archivedAt = none ∧ o.supersededBy = none then do
      supersedeInTx old new now
      let archivedSeq ← latestOplogSeq old "supersede oplog row is missing"
      pure (some archivedSeq)
    else pure none
  | none => pure none

/-- `insert_superseding_memory`: insert a replacement and retire its target in one
transaction; the sequence numbers of the two log rows. -/
def insertSupersedingMemory (now : Int) (n : MemoryNote) (embedding : Option Embedding)
    (old : MemoryId) (allowCuratedSupersede : Bool) : StoreM (Nat × Option Nat) := do
  require (n.id ≠ old) (.invalidArgument "a memory cannot supersede itself")
  validateNote n
  let oldNote ← attempt ((← get).getMemory old)
  checkTarget n old allowCuratedSupersede oldNote
  insertMemoryTxBody now n embedding
  let createdSeq ← latestOplogSeq n.id "insert oplog row is missing"
  let archivedSeq ← retireTarget now n.id old oldNote
  pure (createdSeq, archivedSeq)

/-- `DuplicateSupersede`. -/
structure DuplicateSupersede where
  archived : MemoryId
  survivor : MemoryId
  seq : Nat
  deriving DecidableEq, Repr

/-- The text `similar`, the reason of links the similarity linker made. -/
def similarReason : Text := ['s', 'i', 'm', 'i', 'l', 'a', 'r']

/-- `automatically_equivalent`: equal in every authored field, and neither has a link
that was not made by the similarity linker. -/
def Db.automaticallyEquivalent (db : Db) (a b : MemoryNote) : Bool :=
  decide (a.ns = b.ns ∧ a.content = b.content ∧ a.summary = b.summary ∧
    a.context = b.context ∧ a.memoryType = b.memoryType ∧ a.keywords = b.keywords ∧
    a.tags = b.tags ∧ a.relatedFiles = b.relatedFiles ∧ a.anchors = b.anchors ∧
    a.confidence = b.confidence ∧ a.trustClass = b.trustClass ∧
    a.originSource = b.originSource ∧ a.originChannel = b.originChannel ∧
    a.legacyUnknown = b.legacyUnknown ∧ a.originUser = b.originUser ∧
    a.originHost = b.originHost ∧ a.originAgent = b.originAgent ∧
    a.sessionId.isSome = b.sessionId.isSome) &&
  db.links.all fun l =>
    !(decide (l.sourceId = a.id ∨ l.sourceId = b.id ∨ l.targetId = a.id ∨ l.targetId = b.id)) ||
      decide (l.linkType = .references ∧ l.reason = similarReason)

/-- A note of the namespace `ns`, or `NotFound`. -/
def getInNamespace (ns : Namespace) (id : MemoryId) : StoreM MemoryNote := do
  match ← attempt ((← get).getMemory id) with
  | some n =>
    require (n.ns = ns) (.notFound id)
    pure n
  | none => throw (.notFound id)

/-- `supersede_duplicate`: collapse two equivalent memories, archiving the one that is
not curated; `none` leaves an uncertain pair alone. -/
def supersedeDuplicate (now : Int) (ns : Namespace) (old new : MemoryId) :
    StoreM (Option DuplicateSupersede) := do
  let oldNote ← getInNamespace ns old
  let newNote ← getInNamespace ns new
  if (← get).automaticallyEquivalent oldNote newNote = false ∨
      (oldNote.humanCurated = true ∧ newNote.humanCurated = true) then
    pure none
  else do
    let archived := if oldNote.humanCurated then new else old
    let survivor := if oldNote.humanCurated then old else new
    supersedeInTx archived survivor now
    let seq ← latestOplogSeq archived "supersede oplog row is missing"
    pure (some ⟨archived, survivor, seq⟩)

/-! ## Update and archive -/

/-- The row after an update: `importance` moves the author's prior with it, and a
change to an input of the embedding blanks the stamp. -/
def MemoryUpdates.applyTo (u : MemoryUpdates) (now : Int) (m : MemoryRow) : MemoryRow :=
  { m with
    content := u.content.getD m.content
    summary := u.summary.getD m.summary
    importance := u.importance.getD m.importance
    baseImportance := u.importance.or m.baseImportance
    tags := (u.tags.map jsonArray).getD m.tags
    context := u.context.getD m.context
    confidence := u.confidence.getD m.confidence
    humanCurated := u.humanCurated.getD m.humanCurated
    embeddingInputVersion := if u.touchesInput then [] else m.embeddingInputVersion
    updatedAt := now }

/-- `update_memory`. An update that names no field touches nothing. -/
def updateMemory (now : Int) (id : MemoryId) (u : MemoryUpdates) : StoreM Unit := do
  attempt (u.importance.elim (.ok ()) validateImportance)
  attempt (u.confidence.elim (.ok ()) validateConfidence)
  if u.isEmpty then
    pure ()
  else do
    let affected ← updateMemories (fun m => m.memoryId = id) (MemoryUpdates.applyTo u now)
    if affected > 0 then appendOplog .update id now .empty else pure ()

/-- `archive_with_details`: archive one active row, drop its vector and log it.
Returns whether a row was archived. -/
def archiveWithDetails (now : Int) (id : MemoryId) (details : OplogDetails)
    (protectCurated : Bool) (ns : Option Namespace) : StoreM Bool := do
  let affected ← updateMemories
    (fun m => m.memoryId = id ∧ m.archivedAt = none ∧
      (ns = none ∨ ns.map Namespace.asDbString = some m.ns) ∧
      (protectCurated = false ∨ m.humanCurated = false))
    (fun m => { m with archivedAt := some now, updatedAt := now })
  if affected > 0 then do
    deleteVectorRow id
    appendOplog .archive id now details
    pure true
  else pure false

/-- `archive_memory`. -/
def archiveMemory (now : Int) (id : MemoryId) : StoreM Unit := do
  let _ ← archiveWithDetails now id .empty false none
  pure ()

/-- `archive_unattended`. -/
def archiveUnattended (now : Int) (ns : Namespace) (id : MemoryId) : StoreM Bool :=
  archiveWithDetails now id .empty true (some ns)

/-- The body shared by the two maintenance writes to one column of an uncurated row. -/
def setUncurated (now : Int) (ns : Namespace) (id : MemoryId) (f : MemoryRow → MemoryRow)
    (op : OplogOp) (details : OplogDetails) : StoreM Bool := do
  let affected ← updateMemories
    (fun m => m.memoryId = id ∧ m.ns = ns.asDbString ∧ m.humanCurated = false) f
  if affected > 0 then do
    appendOplog op id now details
    pure true
  else pure false

/-- `set_recalibrated_importance`. -/
def setRecalibratedImportance (now : Int) (ns : Namespace) (id : MemoryId) (importance : Nat) :
    StoreM Bool := do
  attempt (validateImportance importance)
  setUncurated now ns id (fun m => { m with importance := importance }) .setImportance
    (.importance importance)

/-- `set_confidence`. -/
def setConfidence (now : Int) (ns : Namespace) (id : MemoryId) (confidence : ℚ) :
    StoreM Bool := do
  attempt (validateConfidence confidence)
  setUncurated now ns id (fun m => { m with confidence := confidence }) .setConfidence
    (.confidence confidence)

/-! ## Links -/

/-- The link a primary key names. -/
def LinkRow.Is (source target : MemoryId) (linkType : LinkType) (l : LinkRow) : Prop :=
  l.sourceId = source ∧ l.targetId = target ∧ l.linkType = linkType
  deriving Decidable

/-- `add_link`; `map_link_constraint_err` maps a taken key to a caller's mistake. -/
def addLink (now : Int) (l : MemoryLink) : StoreM Unit := do
  insertLinkRow
    (.invalidArgument ("a " ++ l.linkType.asStr ++ " link from " ++ l.sourceId.display ++
      " to " ++ l.targetId.display ++ " already exists"))
    (linkRow l)
  appendOplog .link l.sourceId now (.edge l.linkType l.targetId)

/-- `delete_link`. -/
def deleteLink (now : Int) (source target : MemoryId) (linkType : LinkType) : StoreM Unit := do
  let affected ← deleteLinkRows (LinkRow.Is source target linkType)
  if affected > 0 then appendOplog .unlink source now (.edge linkType target) else pure ()

/-- `set_link_strength`. -/
def setLinkStrength (now : Int) (source target : MemoryId) (linkType : LinkType)
    (strength : ℚ) : StoreM Unit := do
  let affected ← updateLinkStrength (LinkRow.Is source target linkType) strength
  if affected > 0 then
    appendOplog .setLinkStrength source now (.edgeStrength linkType target strength)
  else pure ()

/-! ## Accesses and feedback -/

/-- `record_access` and `record_accesses`: every named row once. -/
def recordAccesses (now : Int) (ids : List MemoryId) : StoreM Unit := do
  let _ ← updateMemories (fun m => m.memoryId ∈ ids)
    (fun m => { m with accessCount := m.accessCount + 1, lastAccessedAt := some now })
  pure ()

/-- One bump of `record_access_bumps`: the last access never moves back. -/
def AccessBump.applyTo (b : AccessBump) (m : MemoryRow) : MemoryRow :=
  { m with
    accessCount := m.accessCount + b.count
    lastAccessedAt :=
      match m.lastAccessedAt with
      | some t => if t < b.lastAccessedAt then some b.lastAccessedAt else some t
      | none => some b.lastAccessedAt }

/-- `record_access_bumps`. -/
def recordAccessBumps (bumps : List AccessBump) : StoreM Unit :=
  bumps.forM fun b => do
    let _ ← updateMemories (fun m => m.memoryId = b.id) (AccessBump.applyTo b)
    pure ()

/-- `record_feedback`: the feedback row, the nudged confidence and the log row. -/
def recordFeedback (now : Int) (id : MemoryId) (kind : FeedbackKind)
    (principal : Option Text) : StoreM ℚ := do
  match (← get).find id with
  | none => throw (.notFound id)
  | some r => do
    let confidence := kind.nudge r.confidence
    let _ ← updateMemories (fun m => m.memoryId = id)
      (fun m => { m with confidence := confidence })
    insertFeedbackRow id r.ns kind principal now
    appendOplog .feedback id now (.feedback kind confidence)
    pure confidence

/-! ## Vectors -/

/-- `EmbeddingInputFingerprint::from`. -/
def Env.fingerprint (env : Env) (n : MemoryNote) : BitVec 256 :=
  env.sha256 (fingerprintBytes n.content n.keywords n.tags n.context)

/-- The fallback of `update_vector` for a row that had no vector yet: an insert under
the namespace of the live row. -/
def insertMissingVector (id : MemoryId) (e : Embedding) : StoreM Unit := do
  match (← get).find id with
  | some r =>
    if r.archivedAt = none then insertVectorRow ⟨id, r.ns, e⟩ else pure ()
  | none => pure ()

/-- `update_vector`: write a vector computed outside the transaction, only while the
row is live and its inputs are still the ones that were embedded. -/
def updateVector (env : Env) (id : MemoryId) (e : Embedding) (model inputVersion : Text)
    (expected : BitVec 256) : StoreM Unit := do
  let db ← get
  require (e.length = db.embeddingDim) (.dimensionMismatch db.embeddingDim e.length)
  match ← attempt (db.getMemory id) with
  | none => throw (.notFound id)
  | some n => do
    require (n.archivedAt = none) (.notFound id)
    require (env.fingerprint n = expected)
      (.stalePlan "embedding inputs changed; retry reembed")
    let affected ← updateMemories (fun m => m.memoryId = id ∧ m.archivedAt = none)
      (fun m => { m with embeddingModel := model, embeddingInputVersion := inputVersion })
    require (affected ≠ 0) (.notFound id)
    let updated ← updateVectorRow id e
    if updated = 0 then insertMissingVector id e else pure ()

end RustyBrain.Store
