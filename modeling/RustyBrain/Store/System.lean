import RustyBrain.Store.AdminOps

/-!
# rusty-brain — the store as a state machine

The write operations as one type, the store states that runs of them reach, and the
well-formedness every such state has.
-/

namespace RustyBrain.Store

open Transaction Relation List

/-! ## Operations -/

/-- The write operations of the store, with their arguments. -/
inductive Op where
  | insertMemory (now : Int) (note : MemoryNote) (embedding : Option Embedding)
  | supersede (now : Int) (old new : MemoryId)
  | insertSupersedingMemory (now : Int) (note : MemoryNote) (embedding : Option Embedding)
      (old : MemoryId) (allowCuratedSupersede : Bool)
  | supersedeDuplicate (now : Int) (ns : Namespace) (old new : MemoryId)
  | updateMemory (now : Int) (id : MemoryId) (updates : MemoryUpdates)
  | archiveMemory (now : Int) (id : MemoryId)
  | archiveUnattended (now : Int) (ns : Namespace) (id : MemoryId)
  | setRecalibratedImportance (now : Int) (ns : Namespace) (id : MemoryId) (importance : Nat)
  | setConfidence (now : Int) (ns : Namespace) (id : MemoryId) (confidence : ℚ)
  | addLink (now : Int) (link : MemoryLink)
  | deleteLink (now : Int) (source target : MemoryId) (linkType : LinkType)
  | setLinkStrength (now : Int) (source target : MemoryId) (linkType : LinkType) (strength : ℚ)
  | recordAccesses (now : Int) (ids : List MemoryId)
  | recordAccessBumps (bumps : List AccessBump)
  | recordFeedback (now : Int) (id : MemoryId) (kind : FeedbackKind) (principal : Option Text)
  | updateVector (id : MemoryId) (embedding : Embedding) (model inputVersion : Text)
      (expected : BitVec 256)
  | snoozeReviewItem (ns : Namespace) (key : String) (days : Nat) (details : Text)
      (now : DateTime)
  | recordReviewResolution (ns : Namespace) (key : String) (details : Text) (now : DateTime)
  | recordReviewSweep (ns : Namespace) (details : Text) (now : DateTime)
  | reviewMerge (ns : Namespace) (a b : MemoryId) (minSimilarity : ℚ) (note : MemoryNote)
      (embedding : Option Embedding) (details : Text) (allowCuratedSupersede : Bool)
      (now : DateTime)
  | renameNamespace (now : Int) (old new : Namespace) (merge : Bool)
  | scrub (now : Int)
  | acceptEmbeddingSpaceChange (dim : Nat) (model : Text)
  | rebuildVectorTable
  | retentionSweep (clock : Int) (ns : Namespace) (policy : RetentionPolicy) (mode : ForgetMode)
      (now : DateTime)

variable {P : Permits} {I : Db → Prop} {ops : List Op} {db db' : Db}

/-- The transaction of an operation, its result dropped. -/
def Op.body (env : Env) : Op → StoreM Unit
  | .insertMemory now n e => Store.insertMemory now n e
  | .supersede now old new => Store.supersede now old new
  | .insertSupersedingMemory now n e old allow =>
    discard (Store.insertSupersedingMemory now n e old allow)
  | .supersedeDuplicate now ns old new => discard (Store.supersedeDuplicate now ns old new)
  | .updateMemory now id u => Store.updateMemory now id u
  | .archiveMemory now id => Store.archiveMemory now id
  | .archiveUnattended now ns id => discard (Store.archiveUnattended now ns id)
  | .setRecalibratedImportance now ns id importance =>
    discard (Store.setRecalibratedImportance now ns id importance)
  | .setConfidence now ns id confidence => discard (Store.setConfidence now ns id confidence)
  | .addLink now l => Store.addLink now l
  | .deleteLink now source target linkType => Store.deleteLink now source target linkType
  | .setLinkStrength now source target linkType strength =>
    Store.setLinkStrength now source target linkType strength
  | .recordAccesses now ids => Store.recordAccesses now ids
  | .recordAccessBumps bumps => Store.recordAccessBumps bumps
  | .recordFeedback now id kind principal => discard (Store.recordFeedback now id kind principal)
  | .updateVector id e model version expected => Store.updateVector env id e model version expected
  | .snoozeReviewItem ns key days details now =>
    discard (Store.snoozeReviewItem ns key days details now)
  | .recordReviewResolution ns key details now => Store.recordReviewResolution ns key details now
  | .recordReviewSweep ns details now => Store.recordReviewSweep ns details now
  | .reviewMerge ns a b minSimilarity n e details allow now =>
    Store.reviewMerge env ns a b minSimilarity n e details allow now
  | .renameNamespace now old new merge => discard (Store.renameNamespace now old new merge)
  | .scrub now => discard (Store.scrub env.redact now)
  | .acceptEmbeddingSpaceChange dim model => discard (Store.acceptEmbeddingSpaceChange dim model)
  | .rebuildVectorTable => Store.rebuildVectorTable env
  | .retentionSweep clock ns p mode now => discard (Store.retentionSweep clock ns p mode now)

/-- The store after an operation was committed or rolled back. -/
def Op.run (env : Env) (op : Op) (db : Db) : Db := (commit (op.body env) db).2

/-- The note an operation inserts, with its vector. -/
def Op.inserted : Op → Option (MemoryNote × Option Embedding)
  | .insertMemory _ n e => some (n, e)
  | .insertSupersedingMemory _ n e _ _ => some (n, e)
  | .reviewMerge _ _ _ _ n e _ _ _ => some (n, e)
  | _ => none

/-- Operations that run without a person behind them; they must leave curated memories
alone. -/
def Op.unattended : Op → Bool
  | .setRecalibratedImportance .. => true
  | .setConfidence .. => true
  | .supersedeDuplicate .. => true
  | .archiveUnattended .. => true
  | .retentionSweep .. => true
  | .reviewMerge _ _ _ _ _ _ _ allow _ => !allow
  | .insertSupersedingMemory _ _ _ _ allow => !allow
  | _ => false

/-- The rows and vectors an insert brings are permitted. -/
def Op.InsertsPermitted (P : Permits) (op : Op) : Prop :=
  ∀ n e, op.inserted = some (n, e) → P.row (noteRow n) ∧ ∀ v ∈ e, P.vec (noteRow n) v

/-- The vector a re-embedding brings is permitted for the row it would be stored for. -/
def Op.StampPermitted (P : Permits) (env : Env) (db : Db) : Op → Prop
  | .updateVector id e model version expected =>
    ∀ r n, db.find id = some r → Decodes r n → r.archivedAt = none →
      env.fingerprint n = expected → P.vec (r.stamped model version) e
  | _ => True

/-! ## Well-formed stores -/

/-- What SQLite's constraints and the store's own bookkeeping keep true of the tables. -/
structure Db.Wf (db : Db) : Prop where
  ids : db.ids.Nodup
  check : ∀ r ∈ db.memories, r.Check
  links : ∀ l ∈ db.links, db.HasEnds l
  pointers : ∀ r ∈ db.memories, ∀ t ∈ r.supersededBy, t ∈ db.ids
  anchors : ∀ a ∈ db.anchors, a.Check ∧ (∀ v ∈ a.path.or a.ref, normalizeAnchorValue a.kind v = v) ∧
    ∃ r ∈ db.memories, r.memoryId = a.memoryId ∧ r.ns = a.ns
  seqs : db.oplog.Pairwise (fun a b => a.seq < b.seq)
  lastSeq : ∀ r ∈ db.oplog, r.seq ≤ db.lastSeq
  strength : ∀ l ∈ db.links, l.Check

theorem Db.init_wf (siteId : Text) (dim : Nat) (model : Option Text) :
    (Db.init siteId dim model).Wf where
  ids := nodup_nil
  check := fun _ h => nomatch h
  links := fun _ h => nomatch h
  pointers := fun _ h => nomatch h
  anchors := fun _ h => nomatch h
  seqs := .nil
  lastSeq := fun _ h => nomatch h
  strength := fun _ h => nomatch h

theorem Db.mem_ids {id : MemoryId} : id ∈ db.ids ↔ ∃ r ∈ db.memories, r.memoryId = id :=
  mem_map

/-- An update of rows that keeps ids and namespaces keeps the tables well formed when it
keeps the checks and sets pointers only to rows that exist. -/
theorem Db.Wf.setMemories (h : db.Wf) {p : MemoryRow → Prop} [DecidablePred p]
    {f : MemoryRow → MemoryRow}
    (hId : ∀ r ∈ db.memories, p r → (f r).memoryId = r.memoryId)
    (hNs : ∀ r ∈ db.memories, p r → (f r).ns = r.ns)
    (hCheck : ∀ r ∈ db.memories, p r → r.Check → (f r).Check)
    (hPtr : ∀ r ∈ db.memories, p r → ∀ t ∈ (f r).supersededBy, t ∈ db.ids) :
    (db.setMemories p f).Wf := by
  have hIds : (db.setMemories p f).ids = db.ids := db.ids_setMemories hId
  refine ⟨hIds ▸ h.ids, db.forall_setMemories h.check hCheck, fun l hl => ?_, ?_, fun a ha => ?_,
    h.seqs, h.lastSeq, h.strength⟩
  · have hEnds := h.links l hl
    unfold Db.HasEnds at hEnds ⊢
    rw [hIds]
    exact hEnds
  · rw [hIds]
    exact db.forall_setMemories h.pointers fun r hr hp _ => hPtr r hr hp
  · obtain ⟨hAnchor, hNorm, r, hr, hOwner, hSame⟩ := h.anchors a ha
    refine ⟨hAnchor, hNorm, _, Db.mem_setMemories_of_mem hr, ?_⟩
    by_cases hp : p r
    · rw [if_pos hp, hId r hr hp, hNs r hr hp]
      exact ⟨hOwner, hSame⟩
    · rw [if_neg hp]
      exact ⟨hOwner, hSame⟩

theorem Db.Wf.setVectors (h : db.Wf) (vectors : List VectorRow) :
    (db.setVectors vectors).Wf :=
  ⟨h.ids, h.check, h.links, h.pointers, h.anchors, h.seqs, h.lastSeq, h.strength⟩

theorem Db.Wf.logged (h : db.Wf) (op : OplogOp) (id : Option MemoryId) (ns : Text)
    (now : Int) (details : OplogDetails) : (db.logged op id ns now details).Wf := by
  refine ⟨h.ids, h.check, h.links, h.pointers, h.anchors, ?_, ?_, h.strength⟩
  · rw [Db.logged_oplog, pairwise_append]
    refine ⟨h.seqs, pairwise_singleton _ _, fun a ha b hb => ?_⟩
    rw [mem_singleton.mp hb]
    exact Nat.lt_succ_of_le (h.lastSeq a ha)
  · intro r hr
    rcases mem_concat.mp hr with hOld | rfl
    · exact (h.lastSeq r hOld).trans (Nat.le_succ _)
    · exact le_rfl

theorem Db.Wf.setLinks (h : db.Wf) {links : List LinkRow} (hEnds : ∀ l ∈ links, db.HasEnds l)
    (hCheck : ∀ l ∈ links, l.Check) : (db.setLinks links).Wf :=
  ⟨h.ids, h.check, hEnds, h.pointers, h.anchors, h.seqs, h.lastSeq, hCheck⟩

theorem Db.Wf.addMemory (h : db.Wf) {r : MemoryRow} (hCheck : r.Check)
    (hNew : r.memoryId ∉ db.ids) (hPtr : ∀ t ∈ r.supersededBy, t ∈ db.ids ∨ t = r.memoryId) :
    (db.addMemory r).Wf := by
  have hIds : (db.addMemory r).ids = db.ids ++ [r.memoryId] := map_append
  have hGrow : ∀ id ∈ db.ids, id ∈ (db.addMemory r).ids :=
    fun id hid => hIds ▸ mem_append_left _ hid
  refine ⟨?_, ?_, fun l hl => ?_, ?_, fun a ha => ?_, h.seqs, h.lastSeq, h.strength⟩
  · rw [hIds]
    exact h.ids.append (nodup_singleton _) (disjoint_singleton.mpr hNew)
  · intro s hs
    rcases mem_concat.mp hs with hOld | rfl
    · exact h.check s hOld
    · exact hCheck
  · exact ⟨hGrow _ (h.links l hl).1, hGrow _ (h.links l hl).2⟩
  · intro s hs t ht
    rcases mem_concat.mp hs with hOld | rfl
    · exact hGrow t (h.pointers s hOld t ht)
    · rcases hPtr t ht with hThere | rfl
      · exact hGrow t hThere
      · exact hIds ▸ mem_append_right _ (mem_singleton_self _)
  · obtain ⟨hAnchor, hNorm, s, hs, hOwner⟩ := h.anchors a ha
    exact ⟨hAnchor, hNorm, s, mem_append_left _ hs, hOwner⟩

/-- Memories and anchors of a renamed namespace move together. -/
theorem Db.Wf.renamed (h : db.Wf) (old new : Text) :
    ((db.relabelled old new).rekeyed old new).Wf := by
  have hIds : (db.relabelled old new).ids = db.ids :=
    db.ids_setMemories fun _ _ _ => rfl
  refine ⟨?_, ?_, fun l hl => ?_, ?_, fun a ha => ?_, h.seqs, h.lastSeq, h.strength⟩
  · exact hIds ▸ h.ids
  · exact db.forall_setMemories h.check fun r _ _ hr => hr
  · obtain ⟨hSource, hTarget⟩ := h.links l hl
    exact ⟨hIds.symm ▸ hSource, hIds.symm ▸ hTarget⟩
  · refine db.forall_setMemories (Q := fun r => ∀ t ∈ r.supersededBy, t ∈ Db.ids _) ?_
      fun r _ _ hr => hr
    exact fun r hr t ht => hIds.symm ▸ h.pointers r hr t ht
  · obtain ⟨b, hb, rfl⟩ := mem_map.mp ha
    obtain ⟨hAnchor, hNorm, r, hr, hOwner, hSame⟩ := h.anchors b hb
    by_cases hOld : b.ns = old
    · rw [if_pos hOld]
      have hMoved := Db.mem_setMemories_of_mem (p := fun m => m.ns = old)
        (f := fun m => { m with ns := new }) hr
      rw [if_pos (hSame.trans hOld)] at hMoved
      exact ⟨hAnchor, hNorm, _, hMoved, hOwner, rfl⟩
    · rw [if_neg hOld]
      have hStays := Db.mem_setMemories_of_mem (p := fun m => m.ns = old)
        (f := fun m => { m with ns := new }) hr
      rw [if_neg fun hNs => hOld (hSame.symm.trans hNs)] at hStays
      exact ⟨hAnchor, hNorm, r, hStays, hOwner, hSame⟩

theorem Write.wf (hWrite : Write P db db') (h : db.Wf) : db'.Wf := by
  cases hWrite with
  | addMemory r _ hCheck hNew hPtr => exact h.addMemory hCheck hNew hPtr
  | edit p f hCheck hLife =>
    refine h.setMemories (fun r hr hp => (hLife r hr hp).memoryId)
      (fun r hr hp => (hLife r hr hp).ns) hCheck fun r hr hp t ht => ?_
    rw [(hLife r hr hp).supersededBy] at ht
    exact h.pointers r hr t ht
  | archive id p now | restamp r e model version vectors =>
    refine Db.Wf.setVectors ?_ _
    refine h.setMemories (fun _ _ _ => rfl) (fun _ _ _ => rfl) (fun _ _ _ hr => hr) ?_
    exact fun r hr _ => h.pointers r hr
  | supersede old new now _ hNew =>
    refine Db.Wf.setVectors ?_ _
    refine h.setMemories (fun _ _ _ => rfl) (fun _ _ _ => rfl) (fun _ _ _ hr => hr) ?_
    rintro r - - t ht
    obtain ⟨s, hs, rfl, -⟩ := hNew
    rw [← Option.some.inj ht]
    exact mem_map_of_mem hs
  | setLinks links hEnds hCheck =>
    refine h.setLinks (fun l hl => ?_) fun l hl => ?_
    · rcases hEnds l hl with hNew | ⟨k, hk, hSource, hTarget⟩
      · exact hNew
      · exact ⟨hSource ▸ (h.links k hk).1, hTarget ▸ (h.links k hk).2⟩
    · rcases hCheck l hl with hNew | ⟨k, hk, hSame⟩
      · exact hNew
      · exact hSame (h.strength k hk)
  | addVector r e => exact h.setVectors _
  | addAnchor a hCheck hOwner hNorm =>
    refine ⟨h.ids, h.check, h.links, h.pointers, fun b hb => ?_, h.seqs, h.lastSeq, h.strength⟩
    rcases mem_concat.mp hb with hOld | rfl
    · exact h.anchors b hOld
    · exact ⟨hCheck, hNorm, hOwner⟩
  | setFeedback | setReviewState =>
    exact ⟨h.ids, h.check, h.links, h.pointers, h.anchors, h.seqs, h.lastSeq, h.strength⟩
  | log => exact h.logged ..
  | rename old new vectors => exact (h.renamed old new).setVectors vectors
  | newSpace dim model =>
    have hSpace : (db.withSpace dim model).Wf :=
      ⟨h.ids, h.check, h.links, h.pointers, h.anchors, h.seqs, h.lastSeq, h.strength⟩
    refine hSpace.setMemories (fun _ _ _ => rfl) (fun _ _ _ => rfl) (fun _ _ _ hr => hr) ?_
    exact fun r hr _ => h.pointers r hr
  | keepVectors vectors => exact h.setVectors vectors

/-- Taking a memory that no anchor holds out of every table leaves nothing dangling. -/
theorem Db.Wf.purged (h : db.Wf) {id : MemoryId}
    (hAnchors : ∀ a ∈ db.anchors, a.memoryId ≠ id) (ns : Text) (now : Int)
    (details : OplogDetails) : (db.purged id ns now details).Wf := by
  refine ⟨?_, fun r hr => ?_, fun l hl => ?_, fun r hr t ht => ?_, fun a ha => ?_, ?_,
    fun r hr => ?_, fun l hl => h.strength l (mem_of_mem_filter hl)⟩
  · rw [Db.ids_purged]
    exact h.ids.filter _
  · obtain ⟨s, hs, -, rfl⟩ := Db.mem_purged.mp hr
    exact MemoryRow.unpointed_check (h.check s hs)
  · rw [Db.purged_links, mem_filter, decide_eq_true_eq, not_or] at hl
    obtain ⟨hOld, hSource, hTarget⟩ := hl
    exact ⟨Db.mem_ids_purged.mpr ⟨(h.links l hOld).1, hSource⟩,
      Db.mem_ids_purged.mpr ⟨(h.links l hOld).2, hTarget⟩⟩
  · -- pointers to the purged memory were cleared before it went
    obtain ⟨s, hs, -, rfl⟩ := Db.mem_purged.mp hr
    obtain ⟨hPtr, hne⟩ := MemoryRow.unpointed_supersededBy.mp ht
    exact Db.mem_ids_purged.mpr ⟨h.pointers s hs t hPtr, hne⟩
  · obtain ⟨hAnchor, hNorm, r, hr, hOwner, hSame⟩ := h.anchors a ha
    have hThere : r.unpointed id ∈ (db.purged id ns now details).memories :=
      Db.mem_purged.mpr ⟨r, hr, hOwner ▸ hAnchors a ha, rfl⟩
    refine ⟨hAnchor, hNorm, _, hThere, ?_, ?_⟩
    · rw [MemoryRow.unpointed_memoryId, hOwner]
    · rw [MemoryRow.unpointed_ns, hSame]
  · rw [Db.purged_oplog, pairwise_append]
    refine ⟨h.seqs.sublist filter_sublist, pairwise_singleton _ _, fun a ha b hb => ?_⟩
    rw [mem_singleton.mp hb]
    exact Nat.lt_succ_of_le (h.lastSeq a (mem_of_mem_filter ha))
  · rw [Db.purged_oplog] at hr
    rcases mem_concat.mp hr with hOld | rfl
    · exact (h.lastSeq r (mem_of_mem_filter hOld)).trans (Nat.le_succ _)
    · exact le_rfl

/-- One effect keeps the tables well formed. -/
theorem Effect.wf (hEffect : Effect P db db') (h : db.Wf) :
    db'.Wf := by
  cases hEffect with
  | write hWrite => exact hWrite.wf h
  | purge id ns now details _ hAnchors => exact h.purged hAnchors ns now details

/-- What every effect on a well-formed store keeps, a run of effects keeps. -/
theorem Effects.invariant (hRun : Effects P db db') (hWf : db.Wf)
    (hStep : ∀ d d', Effect P d d' → d.Wf → I d → I d') (h : I db) : db'.Wf ∧ I db' :=
  invariant_of_steps (I := fun d => d.Wf ∧ I d)
    (fun d d' hEffect hd => ⟨hEffect.wf hd.1, hStep d d' hEffect hd.1 hd.2⟩) hRun ⟨hWf, h⟩

theorem Effects.wf (hRun : Effects P db db') (h : db.Wf) : db'.Wf :=
  invariant_of_steps (I := Db.Wf) (fun _ _ => Effect.wf) hRun h

/-! ## Operations are runs of effects -/

section

variable {P : Permits} {env : Env} {op : Op} {db db' : Db}

/-- The operation is a sweep, the only one that runs several transactions. -/
def Op.isSweep : Op → Bool
  | .retentionSweep .. => true
  | _ => false

/-- Every operation but the sweep is a run of writes. An unattended one needs the
permission to harm uncurated memories only. -/
theorem Op.writes {u : Unit} (hIds : db.ids.Nodup) (hSweep : op.isSweep = false)
    (hInserts : op.InsertsPermitted P) (hStamp : op.StampPermitted P env db)
    (hHarm : ∀ id, op.unattended = false ∨ db.Uncurated id → P.harm id)
    (h : Runs (op.body env) db u db') : Writes P db db' := by
  cases op with
  | insertMemory now n e =>
    obtain ⟨hRow, hVec⟩ := hInserts n e rfl
    exact insertMemory_writes hRow hVec db u db' h
  | supersede now old new => exact supersede_writes (hHarm old (.inl rfl)) db u db' h
  | insertSupersedingMemory now n e old allow =>
    obtain ⟨hRow, hVec⟩ := hInserts n e rfl
    obtain ⟨_, h⟩ := runs_discard.mp h
    refine insertSupersedingMemory_writes hIds hRow hVec (fun id hAllowed => hHarm id ?_) h
    simpa [Op.unattended] using hAllowed
  | supersedeDuplicate now ns old new =>
    obtain ⟨_, h⟩ := runs_discard.mp h
    exact supersedeDuplicate_writes hIds (fun id hPlain => hHarm id (.inr hPlain)) h
  | updateMemory now id updates => exact updateMemory_writes (hHarm id (.inl rfl)) db u db' h
  | archiveMemory now id => exact archiveMemory_writes (fun id => hHarm id (.inl rfl)) hIds h
  | archiveUnattended now ns id =>
    obtain ⟨_, h⟩ := runs_discard.mp h
    exact archiveUnattended_writes hIds (fun id hPlain => hHarm id (.inr hPlain)) h
  | setRecalibratedImportance now ns id importance | setConfidence now ns id confidence =>
    obtain ⟨_, h⟩ := runs_discard.mp h
    exact setUncurated_writes hIds (fun id hPlain => hHarm id (.inr hPlain)) h
      (fun _ => ⟨rfl, rfl, rfl, rfl⟩) fun _ => .inl ⟨⟨rfl, rfl, rfl, rfl⟩, rfl, rfl⟩
  | addLink now link => exact linkThenLog_writes db u db' h
  | deleteLink now source target linkType =>
    exact Within.bind deleteLinkRows_writes (fun _ => thenLog_writes) db u db' h
  | setLinkStrength now source target linkType strength =>
    exact Within.bind updateLinkStrength_writes (fun _ => thenLog_writes) db u db' h
  | recordAccesses now ids => exact recordAccesses_writes now ids db u db' h
  | recordAccessBumps bumps => exact recordAccessBumps_writes bumps db u db' h
  | recordFeedback now id kind principal =>
    obtain ⟨q, h⟩ := runs_discard.mp h
    exact recordFeedback_writes (hHarm id (.inl rfl)) db q db' h
  | updateVector id e model version expected => exact updateVector_writes hStamp h
  | snoozeReviewItem ns key days details now =>
    obtain ⟨t, h⟩ := runs_discard.mp h
    exact snoozeReviewItem_within (fun _ _ => upsertReviewState_writes) appendReviewOplog_writes db t db' h
  | recordReviewResolution ns key details now =>
    exact recordReviewResolution_within (fun _ _ => upsertReviewState_writes) appendReviewOplog_writes db u db' h
  | recordReviewSweep ns details now => exact appendReviewOplog_writes db u db' h
  | reviewMerge ns a b minSimilarity n e details allow now =>
    obtain ⟨hRow, hVec⟩ := hInserts n e rfl
    refine reviewMerge_writes hIds hRow hVec (fun id hAllowed => hHarm id ?_) h
    simpa [Op.unattended] using hAllowed
  | renameNamespace now old new merge =>
    obtain ⟨out, h⟩ := runs_discard.mp h
    exact renameNamespace_writes now old new merge db out db' h
  | scrub now =>
    obtain ⟨out, h⟩ := runs_discard.mp h
    exact scrub_writes hIds (fun id => hHarm id (.inl rfl)) h
  | acceptEmbeddingSpaceChange dim model =>
    obtain ⟨b, h⟩ := runs_discard.mp h
    exact acceptEmbeddingSpaceChange_writes dim model db b db' h
  | rebuildVectorTable => exact rebuildVectorTable_writes env db u db' h
  | retentionSweep => cases hSweep

/-- Going on by effects from distinct ids: the preorder a sweep stays within. -/
def Continues (P : Permits) (db db' : Db) : Prop := db.ids.Nodup → Effects P db db'

instance : IsPreorder Db (Continues P) where
  refl := fun _ _ => .refl
  trans := fun _ _ _ h₁ h₂ hIds => (h₁ hIds).trans (h₂ ((h₁ hIds).ids_nodup hIds))

theorem retentionSweep_effects {clock : Int} {ns : Namespace} {p : RetentionPolicy}
    {mode : ForgetMode} {now : DateTime} (hHarm : ∀ id, P.harm id) :
    Within (Continues P) (retentionSweep clock ns p mode now) := by
  refine retentionSweep_within (fun c db b db' h hIds => ?_)
    fun op ns now details db u db' h _ => ?_
  · exact sweepOne_effects hIds (fun id _ => hHarm id) h
  · obtain rfl := runs_insertOplogRow.mp h
    exact .single (.write (.log ..))

/-- **Key result:** an operation that may touch every memory is a run of effects. -/
theorem Op.effects (hIds : db.ids.Nodup) (hInserts : op.InsertsPermitted P)
    (hStamp : op.StampPermitted P env db) (hHarm : ∀ id, P.harm id) :
    Effects P db (op.run env db) := by
  unfold Op.run
  rcases commit_cases (op.body env) db with ⟨u, db', hRun, hEq⟩ | ⟨e, hEq⟩
  · rw [hEq]
    cases hSweep : op.isSweep with
    | false => exact (op.writes hIds hSweep hInserts hStamp (fun id _ => hHarm id) hRun).effects
    | true =>
      cases op with
      | retentionSweep clock ns p mode now =>
        obtain ⟨out, hRun⟩ := runs_discard.mp hRun
        exact retentionSweep_effects hHarm db out db' hRun hIds
      | _ => cases hSweep
  · rw [hEq]

/-- Where every vector is permitted, so is that of a re-embedding. -/
theorem Op.stampPermitted (h : ∀ r e, P.vec r e) : op.StampPermitted P env db := by
  cases op with
  | updateVector => exact fun _ _ _ _ _ _ => h _ _
  | _ => trivial

end

/-! ## Reachable stores -/

section

variable (env : Env) (A : Op → Prop)

/-- One operation among those the callers issue. -/
def Step (db db' : Db) : Prop := ∃ op, A op ∧ db' = op.run env db

/-- A store that some sequence of the callers' operations leads to from an empty one. -/
def Reachable (db : Db) : Prop :=
  ∃ siteId dim model, ReflTransGen (Step env A) (Db.init siteId dim model) db

variable {env A}

/-- Every permission at once: what a caller bound by no promise may do. -/
def Permits.all : Permits := ⟨fun _ => True, fun _ => True, fun _ _ => True⟩

/-- Outside functions that say nothing, for runs on fixed inputs. -/
def Env.blank : Env := ⟨fun _ => 0, fun _ _ => none, fun _ _ => 0, id⟩

/-- Whatever it does, an operation is a run of effects that need no permission. -/
theorem Op.effects_all {op : Op} (hIds : db.ids.Nodup) : Effects .all db (op.run env db) :=
  op.effects hIds (fun _ _ _ => ⟨trivial, fun _ _ => trivial⟩)
    (Op.stampPermitted fun _ _ => trivial) fun _ => trivial

theorem Op.run_wf {op : Op} (h : db.Wf) : (op.run env db).Wf := (Op.effects_all h.ids).wf h

/-- So does the transaction of an operation that commits. -/
theorem Op.wf_of_runs (env : Env) (op : Op)
    (h : Runs (op.body env) db () db') (hWf : db.Wf) : db'.Wf := by
  have hRun : op.run env db = db' := by
    unfold Op.run commit
    rw [h]
  exact hRun ▸ Op.run_wf hWf

/-- What holds of an empty store and is kept by every operation on a well-formed one holds of
every reachable store, which is well-formed itself. -/
theorem Reachable.invariant (h : Reachable env A db)
    (hInit : ∀ siteId dim model, I (Db.init siteId dim model))
    (hStep : ∀ op db, A op → db.Wf → I db → I (op.run env db)) : db.Wf ∧ I db := by
  obtain ⟨siteId, dim, model, hRun⟩ := h
  refine invariant_of_steps (I := fun d => d.Wf ∧ I d) (fun s s' hLast hs => ?_) hRun
    ⟨Db.init_wf siteId dim model, hInit siteId dim model⟩
  obtain ⟨op, hOp, rfl⟩ := hLast
  exact ⟨Op.run_wf hs.1, hStep op s hOp hs.1 hs.2⟩

/-- Every reachable store is well formed. -/
theorem Reachable.wf (h : Reachable env A db) : db.Wf :=
  (h.invariant (I := fun _ => True) (fun _ _ _ => trivial) fun _ _ _ _ _ => trivial).1

/-- The store after a list of operations on an empty one. -/
def storeAfter (env : Env) (dim : Nat) (ops : List Op) : Db :=
  ops.foldl (fun db op => op.run env db) (Db.init [] dim none)

theorem storeAfter_reachable {dim : Nat} (h : ∀ op ∈ ops, A op) :
    Reachable env A (storeAfter env dim ops) := by
  refine ⟨[], dim, none, ?_⟩
  unfold storeAfter
  generalize Db.init [] dim none = db
  induction ops generalizing db with
  | nil => exact .refl
  | cons op rest ih =>
    refine ReflTransGen.head ⟨op, h op mem_cons_self, rfl⟩ (ih ?_ _)
    exact fun o ho => h o (mem_cons_of_mem _ ho)

theorem storeAfter_wf {dim : Nat} : (storeAfter env dim ops).Wf :=
  (storeAfter_reachable (A := fun _ => True) fun _ _ => trivial).wf

end

end RustyBrain.Store
