import RustyBrain.Store.System

/-!
# rusty-brain — a walk through the statements of an operation

What the operations of the store do to rows, vectors and the embedding space, statement by
statement. A relation between stores that each kind of statement respects (`Frames`) is respected
by whole operations (`Frames.within`), so that a property which is about some of the tables only is
shown once for each kind of statement, and not for each operation.
-/

namespace RustyBrain.Store

open Transaction List

variable {f : MemoryRow → MemoryRow} {n : MemoryNote} {e : Option Embedding} {p : MemoryRow → Prop}

/-- The texts of a memory, where they came from, its importance and its curation. -/
structure Wording where
  memoryId : MemoryId
  content : Text
  summary : Text
  keywords : Text
  tags : Text
  context : Text
  importance : Nat
  humanCurated : Bool
  trustClass : TrustClass
  originSource : Option Text
  originChannel : Option WriteChannel
  legacyUnknown : Bool

/-- The wording of a row. -/
def MemoryRow.wording (r : MemoryRow) : Wording where
  memoryId := r.memoryId
  content := r.content
  summary := r.summary
  keywords := r.keywords
  tags := r.tags
  context := r.context
  importance := r.importance
  humanCurated := r.humanCurated
  trustClass := r.trustClass
  originSource := r.originSource
  originChannel := r.originChannel
  legacyUnknown := r.legacyUnknown

/-- The dimension of the vector table and the markers of `meta`. -/
def Db.space (db : Db) : Nat × Option Text × Option Nat := (db.embeddingDim, db.metaModel, db.metaDim)

/-- The operations that rewrite wordings: an update, a scrub, and the recalibration of an
importance. -/
def Op.rewords : Op → Bool
  | .updateMemory .. => true
  | .scrub _ => true
  | .setRecalibratedImportance .. => true
  | _ => false

/-- The operations that stay in the space: all but an acceptance. -/
def Op.staysInSpace : Op → Bool
  | .acceptEmbeddingSpaceChange .. => false
  | _ => true

/-- The vector that an operation was given: of the note it inserts, or for the memory it
re-embeds. -/
def Op.embedding : Op → Option Embedding
  | .insertMemory _ _ e => e
  | .insertSupersedingMemory _ _ e _ _ => e
  | .reviewMerge _ _ _ _ _ e _ _ _ => e
  | .updateVector _ e _ _ _ => some e
  | _ => none

/-- The relation is respected by every kind of statement of the operation. -/
structure Frames (R : Db → Db → Prop) (op : Op) : Prop where
  addMemory : ∀ db n e, op.inserted = some (n, e) → R db (db.addMemory (noteRow n))
  setMemories : ∀ db (p : MemoryRow → Prop) [DecidablePred p] (f : MemoryRow → MemoryRow),
    (op.rewords = false → ∀ r, (f r).wording = r.wording) → R db (db.setMemories p f)
  setVectors : ∀ db vectors, (∀ v ∈ vectors, (∃ w ∈ db.vectors, w.embedding = v.embedding) ∨
    (v.embedding ∈ op.embedding ∧ v.embedding.length = db.embeddingDim)) →
      R db (db.setVectors vectors)
  others : ∀ db db', db'.memories = db.memories → db'.vectors = db.vectors →
    db'.space = db.space → R db db'
  newSpace : ∀ db dim model, op.staysInSpace = false → R db (db.withSpace dim model)
  purged : ∀ db id ns now details, R db (db.purged id ns now details)

section Statements

variable {R : Db → Db → Prop} {op : Op} (h : Frames R op)

include h

/-- Rows are rewritten in place; their wording only by an operation that may. -/
theorem Frames.update [DecidablePred p]
    (hf : op.rewords = false → ∀ r, (f r).wording = r.wording) : Within R (updateMemories p f) := by
  intro d n d' hRun
  obtain ⟨-, -, -, rfl⟩ := runs_updateMemories.mp hRun
  exact h.setMemories d p f hf

/-- Rewriting columns that are no wording. -/
theorem Frames.plain [DecidablePred p]
    (hf : ∀ r, (f r).wording = r.wording) : Within R (updateMemories p f) := h.update fun _ => hf

/-- Tables other than the memories and their vectors do not count. -/
theorem Frames.modify {f : Db → Db} (hMemories : ∀ d, (f d).memories = d.memories)
    (hVectors : ∀ d, (f d).vectors = d.vectors) (hSpace : ∀ d, (f d).space = d.space) :
    Within R (modify f : StoreM Unit) := by
  intro d u d' hRun
  rw [← runs_modify.mp hRun]
  exact h.others d _ (hMemories d) (hVectors d) (hSpace d)

theorem Frames.reviewState (ns : Namespace) (key : String) (at' : Int) (until' : Option Int) :
    Within R (upsertReviewState ns key at' until') :=
  h.modify (fun _ => rfl) (fun _ => rfl) fun _ => rfl

theorem Frames.reviewLog (ns : Namespace) {o : OplogOp} (details : Text) (now : DateTime) :
    Within R (appendReviewOplog ns o details now) :=
  h.modify (fun _ => rfl) (fun _ => rfl) fun _ => rfl

theorem Frames.appended (db : Db) (o : OplogOp) (id : MemoryId) (now : Int)
    (details : OplogDetails) : R db (db.appended o id now details) := by
  unfold Db.appended
  split <;> exact h.others db _ rfl rfl rfl

theorem Frames.log (o : OplogOp) (id : MemoryId) (now : Int) (details : OplogDetails) :
    Within R (appendOplog o id now details) := by
  intro d u d' hRun
  rw [← runs_appendOplog.mp hRun]
  exact h.appended d o id now details

theorem Frames.insertLinkRow (e : Error) (l : LinkRow) : Within R (insertLinkRow e l) := by
  intro d u d' hRun
  obtain ⟨-, -, -, rfl⟩ := runs_insertLinkRow.mp hRun
  exact h.others d _ rfl rfl rfl

theorem Frames.deleteLinks (p : LinkRow → Prop) [DecidablePred p] :
    Within R (deleteLinkRows p) := by
  intro d u d' hRun
  obtain ⟨rfl, -⟩ := runs_deleteLinkRows.mp hRun
  exact h.others d _ rfl rfl rfl

/-- The vector table takes a vector of its dimension only. -/
theorem Frames.insertVector {v : VectorRow} (hv : v.embedding ∈ op.embedding) :
    Within R (insertVectorRow v) := by
  intro d u d' hRun
  obtain ⟨hLength, -, rfl⟩ := runs_insertVectorRow.mp hRun
  refine h.setVectors d _ fun w hw => ?_
  rcases mem_concat.mp hw with hOld | rfl
  · exact .inl ⟨w, hOld, rfl⟩
  · exact .inr ⟨hv, hLength⟩

theorem Frames.dropVector (db : Db) (id : MemoryId) : R db (db.dropVector id) :=
  h.setVectors db _ fun v hv => .inl ⟨v, mem_of_mem_filter hv, rfl⟩

end Statements

section Bodies

variable {R : Db → Db → Prop} [IsPreorder Db R] {op : Op} (h : Frames R op)

include h

/-- A statement that may be followed by a row of the log. -/
theorem Frames.thenLog {x : StoreM Nat} (hx : Within R x) (o : OplogOp) (id : MemoryId)
    (now : Int) (details : OplogDetails) :
    Within R (x >>= fun n => if n > 0 then appendOplog o id now details else pure ()) := by
  exact hx.bind fun _ => .ite (h.log _ _ _ _) (.pure _)

/-- A supersede stamps a row and drops its vector. -/
theorem Frames.retired (db : Db) (old id : MemoryId) (now : Int) : R db (db.retired old id now) := by
  have hSet := h.setMemories db (Takes old) (MemoryRow.superseded id now) fun _ _ => rfl
  have hDrop := h.dropVector (db.setMemories (Takes old) (MemoryRow.superseded id now)) old
  exact trans_of R (trans_of R hSet hDrop) (h.appended _ _ _ _ _)

theorem Frames.supersedeInTx (old id : MemoryId) (now : Int) :
    Within R (supersedeInTx old id now) := by
  intro d u d' hRun
  obtain ⟨-, -, -, rfl⟩ := supersedeInTx_runs hRun
  exact h.retired _ _ _ _

/-- An insert brings the note of the operation, and its vector. -/
theorem Frames.insertMemoryTxBody (hn : op.inserted = some (n, e)) (he : ∀ v ∈ e, v ∈ op.embedding)
    (now : Int) : Within R (insertMemoryTxBody now n e) := by
  unfold Store.insertMemoryTxBody
  refine Within.bind ?_ fun _ => (h.log _ _ _ _).bind fun _ => Within.bind ?_ fun _ =>
    Within.bind ?_ fun _ => ?_
  · intro d u d' hRun
    obtain ⟨-, -, -, rfl⟩ := runs_insertMemoryRow.mp hRun
    exact h.addMemory d n e hn
  · refine Within.forM fun a _ d u d' hRun => ?_
    obtain ⟨-, -, rfl⟩ := runs_insertAnchorRow.mp hRun
    exact h.others d _ rfl rfl rfl
  · cases e with
    | none => exact .pure _
    | some v => exact h.insertVector (he v rfl)
  · exact Within.forM fun l _ => (h.insertLinkRow _ _).bind fun _ => h.log _ _ _ _

theorem Frames.archiveWithDetails (now : Int) (id : MemoryId) (details : OplogDetails)
    (protect : Bool) (ns : Option Namespace) :
    Within R (archiveWithDetails now id details protect ns) := by
  unfold Store.archiveWithDetails
  refine Within.bind (h.plain fun _ => rfl) fun affected => ?_
  split
  · refine Within.bind ?_ fun _ => (h.log _ _ _ _).bind fun _ => .pure _
    intro d u d' hRun
    rw [← runs_deleteVectorRow.mp hRun]
    exact h.dropVector d id
  · exact .pure _

theorem Frames.setUncurated (hf : op.rewords = false → ∀ r, (f r).wording = r.wording) (now : Int)
    (ns : Namespace) (id : MemoryId) (o : OplogOp) (details : OplogDetails) :
    Within R (setUncurated now ns id f o details) := by
  unfold Store.setUncurated
  exact Within.bind (h.update hf) fun _ =>
    .ite ((h.log _ _ _ _).bind fun _ => .pure _) (.pure _)

end Bodies

section Operations

variable {R : Db → Db → Prop} [IsPreorder Db R] {op : Op} (h : Frames R op)

include h

/-- A merge is an insert, two supersedes and links. -/
theorem Frames.reviewMerge (hn : op.inserted = some (n, e)) (he : ∀ v ∈ e, v ∈ op.embedding)
    (env : Env) (ns : Namespace) (a b : MemoryId) (minSimilarity : ℚ) (details : Text)
    (allow : Bool) (now : DateTime) :
    Within R (reviewMerge env ns a b minSimilarity n e details allow now) := by
  intro db u db' hRun
  obtain ⟨d, d', hBody, hState, hLog⟩ := reviewMerge_leaves hRun
  have hCopied : R d (d.copied n.id a b) := h.others d _ rfl rfl rfl
  refine trans_of R (h.insertMemoryTxBody hn he now.secs db () d hBody) (trans_of R hCopied ?_)
  refine trans_of R (h.retired _ a n.id now.secs) (trans_of R (h.retired _ b n.id now.secs) ?_)
  exact trans_of R (h.reviewState _ _ _ _ _ _ _ hState) (h.reviewLog _ _ _ _ _ _ hLog)

theorem Frames.recordFeedback (now : Int) (id : MemoryId) (kind : FeedbackKind)
    (principal : Option Text) : Within R (recordFeedback now id kind principal) := by
  unfold Store.recordFeedback
  refine Within.bind .get fun d => ?_
  split
  · intro d u d' hRun
    exact absurd hRun runs_throw
  · exact Within.bind (h.plain fun _ => rfl) fun _ =>
      Within.bind (h.modify (fun _ => rfl) (fun _ => rfl) fun _ => rfl) fun _ =>
      (h.log _ _ _ _).bind fun _ => .pure _

theorem Frames.updateMemory (hRewords : op.rewords = true) (now : Int) (id : MemoryId)
    (u : MemoryUpdates) : Within R (updateMemory now id u) := by
  unfold Store.updateMemory
  refine Within.bind (.attempt _) fun _ => Within.bind (.attempt _) fun _ => ?_
  split
  · exact .pure _
  · exact h.thenLog (h.update (by simp [hRewords])) _ _ _ _

/-- The vector that is stored is the one of the operation. -/
theorem Frames.updateVector {e : Embedding} (he : e ∈ op.embedding) (env : Env) (id : MemoryId)
    (model version : Text) (expected : BitVec 256) :
    Within R (updateVector env id e model version expected) := by
  intro db u db' hRun
  have hLength := updateVector_length hRun
  obtain ⟨r, n, vectors, -, -, -, -, hVectors, rfl⟩ := updateVector_runs hRun
  refine trans_of R (h.setMemories db (fun m => m.memoryId = r.memoryId ∧ m.archivedAt = none)
    (MemoryRow.stamped model version) fun _ _ => rfl) (h.setVectors _ _ fun v hv => ?_)
  rcases hVectors with ⟨-, rfl⟩ | ⟨-, rfl⟩
  · obtain ⟨w, hw, rfl⟩ := mem_map.mp hv
    unfold VectorRow.withEmbedding
    split
    · exact .inr ⟨he, hLength⟩
    · exact .inl ⟨w, hw, rfl⟩
  · rcases mem_concat.mp hv with hOld | rfl
    · exact .inl ⟨v, hOld, rfl⟩
    · exact .inr ⟨he, hLength⟩

/-- The vectors are written anew under the other name. -/
theorem Frames.renameNamespace (now : Int) (old ns : Namespace) (merge : Bool) :
    Within R (renameNamespace now old ns merge) := by
  intro db out db' hRun
  obtain ⟨-, -, d, details, hMove, rfl⟩ := renameNamespace_leaves hRun
  obtain ⟨vectors, rfl, -, hSource⟩ := moveVectors_runs hMove
  have hSet := h.setMemories db (fun m => m.ns = old.asDbString)
    (fun m => { m with ns := ns.asDbString }) fun _ _ => rfl
  have hRekeyed : ∀ d : Db, R d (d.rekeyed old.asDbString ns.asDbString) :=
    fun d => h.others d _ rfl rfl rfl
  have hKeys := trans_of R hSet (hRekeyed _)
  have hLogged : ∀ d : Db, ∀ op who ns' details, R d (d.logged op who ns' now details) :=
    fun d _ _ _ _ => h.others d _ rfl rfl rfl
  refine trans_of R (trans_of R hKeys (h.setVectors _ vectors fun v hv => .inl ?_))
    (hLogged _ _ _ _ _)
  rcases hSource v hv with ⟨hIn, -⟩ | ⟨m, hm, rfl⟩
  · exact ⟨v, hIn, rfl⟩
  · exact ⟨m, mem_of_mem_filter hm, rfl⟩

theorem Frames.scrub (hRewords : op.rewords = true) (redact : Text → Text) (now : Int) :
    Within R (scrub redact now) := by
  have hRow : ∀ out m, Within R (scrubRow redact out m) := by
    intro out m
    unfold scrubRow
    split
    · exact .pure _
    · exact Within.bind (h.update (by simp [hRewords])) fun _ => .pure _
  unfold Store.scrub
  refine Within.bind .get fun d => Within.bind (fun db out mid hLoop => ?_) fun out => ?_
  · exact scrubLoop_keeps (I := fun _ d => R db d)
      (fun hI hTurn => trans_of R hI (hRow _ _ _ _ _ hTurn)) (fun _ hI => hI) (refl_of R db) hLoop
  · split
    · exact Within.bind (h.modify (fun _ => rfl) (fun _ => rfl) fun _ => rfl) fun _ => .pure _
    · exact .pure _

/-- A rebuild writes back the vectors it read. -/
theorem Frames.rebuildVectorTable (env : Env) : Within R (rebuildVectorTable env) := by
  intro db u db' hRun
  simp only [Store.rebuildVectorTable, runs_bind, runs_get, runs_modify] at hRun
  obtain ⟨_, _, ⟨rfl, rfl⟩, n, _, hLinks, _, _, rfl, hInsert⟩ := hRun
  obtain ⟨rfl, -⟩ := insertVectors_runs hInsert
  obtain ⟨rfl, -⟩ := runs_deleteLinkRows.mp hLinks
  have hLinked := h.others db (db.setLinks (db.links.filter
    fun l => ¬tooFar env db.vectorStash l)) rfl rfl rfl
  refine trans_of R hLinked (h.setVectors _ db.vectorStash fun v hv => .inl ?_)
  obtain ⟨w, hw, m, -, -, -, rfl⟩ := mem_vectorStash hv
  exact ⟨w, hw, rfl⟩

theorem Frames.retentionSweep (clock : Int) (ns : Namespace) (p : RetentionPolicy)
    (mode : ForgetMode) (now : DateTime) : Within R (retentionSweep clock ns p mode now) := by
  refine retentionSweep_within (fun c => ?_) fun _ _ _ _ =>
    h.modify (fun _ => rfl) (fun _ => rfl) fun _ => rfl
  cases mode with
  | apply => exact h.archiveWithDetails _ _ _ _ _
  | hard =>
    intro d b d' hRun
    rcases purgeMemoryForRetention_runs hRun with ⟨-, rfl, -⟩ | ⟨-, r, -, -, -, rfl⟩
    · exact refl_of R _
    · exact h.purged _ _ _ _ _

/-- **Key lemma:** a relation that the statements of an operation respect is respected by the
operation. -/
theorem Frames.within (env : Env) : Within R (op.body env) := by
  cases op with
  | insertMemory now n e =>
    exact Within.bind (.of_read fun hRun => validateNote_runs hRun) fun _ =>
      h.insertMemoryTxBody rfl (fun _ hv => hv) now
  | insertSupersedingMemory now n e old allow =>
    exact Within.discard (insertSupersedingMemory_within
      (h.insertMemoryTxBody rfl (fun _ hv => hv) now) (h.supersedeInTx old n.id now))
  | reviewMerge ns a b minSimilarity n e details allow now =>
    exact h.reviewMerge rfl (fun _ hv => hv) _ _ _ _ _ _ _ _
  | supersede now old id => exact h.supersedeInTx _ _ _
  | supersedeDuplicate now ns old id =>
    exact Within.discard (supersedeDuplicate_within fun _ _ => h.supersedeInTx _ _ _)
  | updateMemory now id u => exact h.updateMemory rfl _ _ _
  | archiveMemory now id => exact (h.archiveWithDetails _ _ _ _ _).bind fun _ => .pure _
  | archiveUnattended now ns id => exact Within.discard (h.archiveWithDetails _ _ _ _ _)
  | setRecalibratedImportance now ns id importance =>
    refine Within.discard (Within.bind (.attempt _) fun _ => h.setUncurated ?_ _ _ _ _ _)
    exact nofun
  | setConfidence now ns id confidence =>
    refine Within.discard (Within.bind (.attempt _) fun _ => h.setUncurated ?_ _ _ _ _ _)
    exact fun _ _ => rfl
  | addLink now l => exact (h.insertLinkRow _ _).bind fun _ => h.log _ _ _ _
  | deleteLink now source target linkType => exact h.thenLog (h.deleteLinks _) _ _ _ _
  | setLinkStrength now source target linkType strength =>
    refine h.thenLog (fun d n d' hRun => ?_) _ _ _ _
    obtain ⟨-, rfl, -⟩ := runs_updateLinkStrength.mp hRun
    exact h.others d _ rfl rfl rfl
  | recordAccesses now ids => exact Within.bind (h.plain fun _ => rfl) fun _ => .pure _
  | recordAccessBumps bumps =>
    exact .forM fun b _ => Within.bind (h.plain fun _ => rfl) fun _ => .pure _
  | recordFeedback now id kind principal => exact Within.discard (h.recordFeedback _ _ _ _)
  | updateVector id e model version expected => exact h.updateVector rfl _ _ _ _ _
  | snoozeReviewItem ns key days details now =>
    exact Within.discard (snoozeReviewItem_within (h.reviewState _ _) (h.reviewLog _ _ _))
  | recordReviewResolution ns key details now =>
    exact recordReviewResolution_within (h.reviewState _ _) (h.reviewLog _ _ _)
  | recordReviewSweep ns details now =>
    exact h.reviewLog _ _ _
  | renameNamespace now old ns merge => exact Within.discard (h.renameNamespace _ _ _ _)
  | scrub now => exact Within.discard (h.scrub rfl _ _)
  | rebuildVectorTable => exact h.rebuildVectorTable _
  | retentionSweep clock ns p mode now => exact Within.discard (h.retentionSweep _ _ _ _ _)
  | acceptEmbeddingSpaceChange dim model =>
    refine Within.discard fun d b d' hRun => ?_
    rcases acceptEmbeddingSpaceChange_runs hRun with ⟨-, rfl⟩ | ⟨-, rfl⟩
    · exact refl_of R _
    · refine trans_of R (h.newSpace d dim model rfl) (h.setMemories _ (fun _ => True) _ ?_)
      exact fun _ _ => rfl

end Operations

end RustyBrain.Store
