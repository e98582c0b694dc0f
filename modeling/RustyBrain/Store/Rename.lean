import RustyBrain.Store.Relabel
import RustyBrain.Store.VectorIndex

/-!
# rusty-brain — renaming a namespace

`rename_namespace` re-keys the memories, their vectors and anchors, and the review rows of a
namespace. Into a name under which nothing is stored, it exchanges two names, and reads that
are scoped to a namespace cannot tell. The feedback table has a namespace column as well, and
is left as it is.

## Results

* `renameNamespace_mirrors` — the store after a rename is the one before under other names.
* `rename_carries_iff` — every read moves along, exactly when no feedback was given under the
  old name.
-/

namespace RustyBrain.Store

open Transaction List

/-! ## The store after a rename -/

/-- Nothing is stored under the name, in any table that has a namespace column. -/
structure Db.Vacant (db : Db) (ns : Text) : Prop where
  memories : ∀ m ∈ db.memories, m.ns ≠ ns
  vectors : ∀ v ∈ db.vectors, v.ns ≠ ns
  anchors : ∀ a ∈ db.anchors, a.ns ≠ ns
  reviewState : ∀ r ∈ db.reviewState, r.ns ≠ ns
  feedback : ∀ r ∈ db.feedback, r.ns ≠ ns

/-- The loop of the rename puts the moved vectors behind the others, in their order. -/
theorem moveVectors_eq {new : Text} {moving : List VectorRow} {db db' : Db} {u : PUnit}
    (hNodup : (moving.map VectorRow.memoryId).Nodup)
    (h : Runs (moving.forM (moveVector new)) db u db') :
    db' = db.setVectors ((db.vectors.filter fun v => v.memoryId ∉ moving.map VectorRow.memoryId) ++
      moving.map fun v => ⟨v.memoryId, new, v.embedding⟩) := by
  induction moving generalizing db with
  | nil =>
    obtain ⟨-, rfl⟩ := runs_pure.mp h
    simp
    rfl
  | cons v rest ih =>
    obtain ⟨hFresh, hNodup⟩ := nodup_cons.mp hNodup
    obtain ⟨_, mid, hMove, hRest⟩ := runs_bind.mp h
    simp only [moveVector, runs_bind, deleteVectorRow, runs_modify] at hMove
    obtain ⟨_, _, rfl, hInsert⟩ := hMove
    obtain ⟨-, -, rfl⟩ := runs_insertVectorRow.mp hInsert
    rw [ih hNodup hRest]
    simp only [Db.setVectors, Db.dropVector, filter_append, filter_filter, map_cons,
      append_assoc]
    congr 1
    have hOthers : db.vectors.filter (fun w => (decide (w.memoryId ∉ rest.map VectorRow.memoryId) &&
        decide (w.memoryId ≠ v.memoryId))) =
        db.vectors.filter fun w => w.memoryId ∉ v.memoryId :: rest.map VectorRow.memoryId := by
      refine filter_congr fun w _ => ?_
      simp only [mem_cons, not_or, ← Bool.decide_and]
      exact decide_eq_decide.mpr and_comm
    have hMoved : [VectorRow.mk v.memoryId new v.embedding].filter (fun w =>
        w.memoryId ∉ rest.map VectorRow.memoryId) = [VectorRow.mk v.memoryId new v.embedding] := by
      refine filter_eq_self.mpr fun w hw => ?_
      rw [mem_singleton.mp hw]
      exact decide_eq_true hFresh
    rw [hOthers, hMoved]
    rfl

section Rename

variable {db db' : Db} {old new : Namespace} {now : Int} {merge : Bool} {out : NamespaceRenameOutcome}

/-- What a rename that succeeds leaves behind. -/
theorem renameNamespace_runs (hIndexed : db.Indexed False)
    (h : Runs (renameNamespace now old new merge) db out db') :
    old.asDbString ≠ new.asDbString ∧
    db'.memories = db.memories.map (fun m =>
      if m.ns = old.asDbString then { m with ns := new.asDbString } else m) ∧
    db'.anchors = db.anchors.map (fun a =>
      if a.ns = old.asDbString then { a with ns := new.asDbString } else a) ∧
    db'.reviewState = db.reviewState.map (fun r =>
      if r.ns = old.asDbString then { r with ns := new.asDbString } else r) ∧
    db'.vectors = (db.vectors.filter fun v =>
        v.memoryId ∉ (db.movingVectors old.asDbString).map VectorRow.memoryId) ++
      (db.movingVectors old.asDbString).map (fun v => ⟨v.memoryId, new.asDbString, v.embedding⟩) ∧
    db'.links = db.links ∧ db'.feedback = db.feedback ∧ db'.embeddingDim = db.embeddingDim ∧
    ∃ r, r.memoryId = none ∧ db'.oplog = db.oplog ++ [r] := by
  obtain ⟨hNe, -, d, details, hMove, rfl⟩ := renameNamespace_leaves h
  have hNodup : ((db.movingVectors old.asDbString).map VectorRow.memoryId).Nodup :=
    hIndexed.nodup.sublist (filter_sublist.map _)
  obtain rfl := moveVectors_eq hNodup hMove
  exact ⟨hNe, rfl, rfl, rfl, rfl, rfl, rfl, rfl, _, rfl, rfl⟩

/-- The vectors that move are those of the old partition. -/
theorem movingVectors_eq (hIds : db.ids.Nodup) (hIndexed : db.Indexed False) (ns : Text) :
    db.movingVectors ns = db.vectors.filter fun v => v.ns = ns := by
  refine filter_congr fun v hv => decide_eq_decide.mpr ?_
  obtain ⟨r, hr, hId, -, hNs⟩ := hIndexed.live v hv
  constructor
  · rintro ⟨m, hm, hmId, rfl⟩
    rw [← hNs, Db.row_unique hIds hr hm (hId.trans hmId.symm)]
  · rintro rfl
    exact ⟨r, hr, hId, hNs⟩

/-- On names other than the new one, renaming is exchanging. -/
theorem swap_of_ne {old new x : Text} (hx : x ≠ new) :
    Equiv.swap old new x = if x = old then new else x := by
  split
  next hOld => rw [hOld, Equiv.swap_apply_left]
  next hOld => exact Equiv.swap_apply_of_ne_of_ne hOld hx

/-- A lookup by a key that one element has. -/
theorem find?_of_unique {α : Type} {l : List α} {p : α → Prop} [DecidablePred p] {x : α} (hx : x ∈ l)
    (hpx : p x) (hUnique : ∀ y ∈ l, p y → y = x) : l.find? (fun y => p y) = some x := by
  cases hFind : l.find? fun y => p y with
  | none => exact absurd (decide_eq_true hpx) (find?_eq_none.mp hFind x hx)
  | some y =>
    have hy : p y := by simpa using find?_some hFind
    rw [hUnique y (mem_of_find?_eq_some hFind) hy]

/-- The vector table after a rename into a vacant name, each partition by itself. -/
theorem renamed_vectors {o n : Text} (hIds : db.ids.Nodup) (hIndexed : db.Indexed False)
    (hVacant : ∀ v ∈ db.vectors, v.ns ≠ n) (hNe : o ≠ n)
    (hVectors : db'.vectors = (db.vectors.filter fun v =>
        v.memoryId ∉ (db.movingVectors o).map VectorRow.memoryId) ++
      (db.movingVectors o).map fun v => ⟨v.memoryId, n, v.embedding⟩) :
    db'.vectors.filter (fun v => v.ns = n) =
        (db.vectors.filter fun v => v.ns = o).map (VectorRow.relabel (Equiv.swap o n)) ∧
      db'.vectors.filter (fun v => v.ns = o) = [] ∧
      ∀ id, db'.vectors.find? (fun v => v.memoryId = id) =
        (db.vectors.find? fun v => v.memoryId = id).map (VectorRow.relabel (Equiv.swap o n)) := by
  rw [movingVectors_eq hIds hIndexed] at hVectors
  have hMoved : ∀ v : VectorRow, v.ns = o →
      v.relabel (Equiv.swap o n) = ⟨v.memoryId, n, v.embedding⟩ := by
    rintro v rfl
    rw [VectorRow.relabel, Equiv.swap_apply_left]
  have hStays : ∀ v ∈ db.vectors, v.ns ≠ o → v.relabel (Equiv.swap o n) = v := by
    intro v hv hOld
    rw [VectorRow.relabel, Equiv.swap_apply_of_ne_of_ne hOld (hVacant v hv)]
  have hMap : (db.vectors.filter fun v => v.ns = o).map (fun v => VectorRow.mk v.memoryId n v.embedding) =
      (db.vectors.filter fun v => v.ns = o).map (VectorRow.relabel (Equiv.swap o n)) := by
    refine map_congr_left fun v hv => (hMoved v ?_).symm
    exact of_decide_eq_true (mem_filter.mp hv).2
  -- a vector stays when it is not under the old name: no other vector has its id
  have hLeft : ∀ v ∈ db.vectors,
      v.memoryId ∉ (db.vectors.filter fun v => v.ns = o).map VectorRow.memoryId ↔ v.ns ≠ o := by
    intro v hv
    refine not_congr ⟨fun hIn => ?_, fun hOld => ?_⟩
    · obtain ⟨w, hw, hId⟩ := mem_map.mp hIn
      obtain ⟨hw, hwNs⟩ := mem_filter.mp hw
      rw [← inj_on_of_nodup_map hIndexed.nodup hw hv hId]
      exact of_decide_eq_true hwNs
    · exact mem_map_of_mem (mem_filter.mpr ⟨hv, decide_eq_true hOld⟩)
  rw [filter_congr fun v hv => decide_eq_decide.mpr (hLeft v hv), hMap] at hVectors
  have hMem : ∀ w, w ∈ db'.vectors ↔ ∃ v ∈ db.vectors, v.relabel (Equiv.swap o n) = w := by
    intro w
    rw [hVectors, mem_append, mem_map]
    simp only [mem_filter, decide_eq_true_eq]
    constructor
    · rintro (⟨hw, hOld⟩ | ⟨v, ⟨hv, -⟩, rfl⟩)
      · exact ⟨w, hw, hStays w hw hOld⟩
      · exact ⟨v, hv, rfl⟩
    · rintro ⟨v, hv, rfl⟩
      by_cases hOld : v.ns = o
      · exact .inr ⟨v, ⟨hv, hOld⟩, rfl⟩
      · rw [hStays v hv hOld]
        exact .inl ⟨hv, hOld⟩
  refine ⟨?_, ?_, fun id => ?_⟩
  · rw [hVectors, filter_append, filter_filter]
    have hNone : db.vectors.filter (fun v => decide (v.ns = n) && decide (v.ns ≠ o)) = [] := by
      refine filter_eq_nil_iff.mpr fun v hv => ?_
      simp [hVacant v hv]
    have hAll : ((db.vectors.filter fun v => v.ns = o).map (VectorRow.relabel (Equiv.swap o n))).filter
        (fun v => v.ns = n) =
          (db.vectors.filter fun v => v.ns = o).map (VectorRow.relabel (Equiv.swap o n)) := by
      refine filter_eq_self.mpr fun w hw => decide_eq_true ?_
      obtain ⟨v, hv, rfl⟩ := mem_map.mp hw
      rw [hMoved v (of_decide_eq_true (mem_filter.mp hv).2)]
    rw [hNone, hAll, nil_append]
  · refine filter_eq_nil_iff.mpr fun w hw => ?_
    obtain ⟨v, hv, rfl⟩ := (hMem w).mp hw
    rw [decide_eq_true_eq]
    by_cases hOld : v.ns = o
    · rw [hMoved v hOld]
      exact hNe.symm
    · rw [hStays v hv hOld]
      exact hOld
  · cases hFind : db.vectors.find? fun v => v.memoryId = id with
    | none =>
      refine find?_eq_none.mpr fun w hw => ?_
      obtain ⟨v, hv, rfl⟩ := (hMem w).mp hw
      exact find?_eq_none.mp hFind v hv
    | some v =>
      have hv := mem_of_find?_eq_some hFind
      have hId : v.memoryId = id := by simpa using find?_some hFind
      refine find?_of_unique ((hMem _).mpr ⟨v, hv, rfl⟩) hId fun w hw hwId => ?_
      obtain ⟨u, hu, rfl⟩ := (hMem w).mp hw
      rw [inj_on_of_nodup_map hIndexed.nodup hu hv (hwId.trans hId.symm)]

/-- **A rename into a vacant name exchanges the two names**, for reads of the new name after it
and of the old name before it, and the other way round. -/
theorem renameNamespace_mirrors (hIds : db.ids.Nodup) (hIndexed : db.Indexed False)
    (hVacant : db.Vacant new.asDbString) (h : Runs (renameNamespace now old new merge) db out db') :
    Mirrors (Equiv.swap old.asDbString new.asDbString) old new db db' ∧
    Mirrors (Equiv.swap old.asDbString new.asDbString) new old db db' ∧ db'.feedback = db.feedback := by
  obtain ⟨hNe, hMemories, hAnchors, hReview, hVectors, hLinks, hFeedback, hDim, r, hBulk, hOplog⟩ :=
    renameNamespace_runs hIndexed h
  obtain ⟨hNew, hOld, hFind⟩ := renamed_vectors hIds hIndexed hVacant.vectors hNe hVectors
  have hRows : db'.memories = db.memories.map
      (MemoryRow.relabel (Equiv.swap old.asDbString new.asDbString)) := by
    refine hMemories.trans (map_congr_left fun m hm => ?_)
    rw [MemoryRow.relabel, swap_of_ne (hVacant.memories m hm)]
    split <;> rfl
  have hAnchorRows : db'.anchors = db.anchors.map
      (AnchorRow.relabel (Equiv.swap old.asDbString new.asDbString)) := by
    refine hAnchors.trans (map_congr_left fun a ha => ?_)
    rw [AnchorRow.relabel, swap_of_ne (hVacant.anchors a ha)]
    split <;> rfl
  have hReviewRows : db'.reviewState = db.reviewState.map
      (ReviewRow.relabel (Equiv.swap old.asDbString new.asDbString)) := by
    refine hReview.trans (map_congr_left fun x hx => ?_)
    rw [ReviewRow.relabel, swap_of_ne (hVacant.reviewState x hx)]
    split <;> rfl
  have hTouched : ∀ id since, db'.TouchedSince id since ↔ db.TouchedSince id since := by
    intro id since
    unfold Db.TouchedSince
    rw [hOplog]
    simp [hBulk]
  have hVacantOld : db.vectors.filter (fun v => v.ns = new.asDbString) = [] :=
    filter_eq_nil_iff.mpr fun v hv => by simp [hVacant.vectors v hv]
  refine ⟨⟨?_, hRows, hLinks, hAnchorRows, hReviewRows, hDim, hNew, hFind, hTouched⟩,
    ⟨?_, hRows, hLinks, hAnchorRows, hReviewRows, hDim, ?_, hFind, hTouched⟩, hFeedback⟩
  · exact (Equiv.swap_apply_left _ _).symm
  · exact (Equiv.swap_apply_right _ _).symm
  · rw [hOld, hVacantOld]
    rfl

end Rename

/-! ## Reads of a vacant name -/

/-- The figures of a namespace with no memories. -/
def emptyFigures (windowDays : Nat) (retentionEligible : Option Nat) : MemoryStats where
  ns := []
  windowDays := windowDays
  live := 0
  archived := 0
  vectors := 0
  dbEmbeddingModel := none
  feedback := ⟨0, 0, 0⟩
  totalAccesses := 0
  accessedInWindow := 0
  topRecalled := []
  neverRecalledLive := 0
  contested := 0
  lowConfidenceLive := 0
  createdPerDay := []
  reembedPending := 0
  retentionEligible := retentionEligible
  lastForgetAt := none

/-- Every read of the namespace finds nothing. A request that is not valid is refused as ever. -/
structure Db.ReadsEmpty (env : Env) (fts : Fts) (db : Db) (ns : Namespace) : Prop where
  list : ∀ f limit, db.listFiltered ns f limit = (prepareFilter f).map fun _ => []
  keyword : ∀ query limit f, db.keywordSearchFiltered fts ns query limit f = f.validate.map fun _ => []
  vector : ∀ e limit f, db.vectorSearchFiltered env ns e limit f = f.validate >>= fun _ =>
    if e.length ≠ db.embeddingDim then .error (.dimensionMismatch db.embeddingDim e.length) else .ok []
  review : ∀ params now, db.reviewQueue env ns params now =
    params.validate.map fun _ => ⟨[], ⟨0, 0, 0, 0, 0⟩, false⟩
  stats : ∀ windowDays model version topLimit retention now,
    (db.namespaceStats ns windowDays model version topLimit retention now).map MemoryStats.figures =
      (retention.mapM fun p => (RetentionPolicy.validate p).map fun _ => 0).map (emptyFigures windowDays)

section Vacant

variable {db : Db} {ns : Namespace} (hVacant : db.Vacant ns.asDbString)

include hVacant

theorem vacant_filter {p : MemoryRow → Prop} [DecidablePred p] (hp : ∀ m, p m → m.ns = ns.asDbString) :
    db.memories.filter p = [] :=
  filter_eq_nil_iff.mpr fun m hm hpm => hVacant.memories m hm (hp m (of_decide_eq_true hpm))

theorem vacant_readable (f : RecallFilter) : ∀ m ∈ db.memories, TagsReadable ns f m :=
  fun m hm _ hTerms => absurd hTerms.1 (hVacant.memories m hm)

theorem vacant_farEnd (id : MemoryId) : ¬ db.FarEnd ns id :=
  fun ⟨m, hm, _, _, hNs⟩ => hVacant.memories m hm hNs

theorem vacant_nearest (env : Env) (e : Embedding) : db.nearest env ns e = [] := by
  have hNone : db.vectors.filter (fun v => v.ns = ns.asDbString) = [] :=
    filter_eq_nil_iff.mpr fun v hv => by simp [hVacant.vectors v hv]
  unfold Db.nearest
  rw [hNone]
  rfl

theorem vacant_listFiltered (f : RecallFilter) (limit : Nat) :
    db.listFiltered ns f limit = (prepareFilter f).map fun _ => [] := by
  unfold Db.listFiltered
  rw [vacant_filter hVacant fun m hm => hm.1.1.1]
  have hReadable := vacant_readable hVacant f
  unfold TagsReadable at hReadable
  rw [if_pos hReadable]
  cases prepareFilter f <;> simp <;> rfl

theorem vacant_keywordSearch (fts : Fts) (query : Text) (limit : Nat) (f : RecallFilter) :
    db.keywordSearchFiltered fts ns query limit f = f.validate.map fun _ => [] := by
  unfold Db.keywordSearchFiltered
  simp only
  rw [if_pos fun m hm _ => vacant_readable hVacant f m hm, vacant_filter hVacant fun m hm => hm.2.1.1.1]
  cases f.validate <;> simp <;> rfl

theorem vacant_vectorSearchEligible (env : Env) {e : Embedding} (limit : Nat) (f : RecallFilter)
    (hDim : e.length = db.embeddingDim) :
    db.vectorSearchEligible env ns e limit f = f.validate.map fun _ => [] := by
  unfold Db.vectorSearchEligible
  rw [if_pos (vacant_readable hVacant f), if_pos hDim, vacant_nearest hVacant]
  cases f.validate <;> simp <;> rfl

theorem vacant_vectorSearchFiltered (env : Env) (e : Embedding) (limit : Nat) (f : RecallFilter) :
    db.vectorSearchFiltered env ns e limit f = f.validate >>= fun _ =>
      if e.length ≠ db.embeddingDim then .error (.dimensionMismatch db.embeddingDim e.length)
      else .ok [] := by
  have hPlain : e.length = db.embeddingDim → db.vectorSearch env ns e limit = .ok [] := by
    intro hDim
    unfold Db.vectorSearch
    rw [if_neg (not_not.mpr hDim), vacant_nearest hVacant]
    split
    · rfl
    · simp [Db.probeLoop]
  unfold Db.vectorSearchFiltered
  cases hValid : f.validate with
  | error err => rfl
  | ok u =>
    show (if e.length ≠ db.embeddingDim then _ else _) = (if e.length ≠ db.embeddingDim then _ else _)
    split
    · rfl
    next hDim =>
      split
      · rfl
      · split
        · exact hPlain (not_not.mp hDim)
        · rw [vacant_vectorSearchEligible hVacant env limit f (not_not.mp hDim), hValid]
          rfl

theorem vacant_reviewQueue (env : Env) (params : ReviewQueueParams) (now : DateTime) :
    db.reviewQueue env ns params now = params.validate.map fun _ => ⟨[], ⟨0, 0, 0, 0, 0⟩, false⟩ := by
  have hSnoozed : db.snoozedKeys ns now.secs = [] := by
    have hNone : db.reviewState.filter (fun r => r.ns = ns.asDbString ∧
        ∃ t ∈ r.snoozeUntil, t > now.secs) = [] :=
      filter_eq_nil_iff.mpr fun r hr hTerms =>
        hVacant.reviewState r hr (of_decide_eq_true hTerms).1
    unfold Db.snoozedKeys
    rw [hNone]
    rfl
  have hPairs : db.openPairs ns params.since now.secs = [] := by
    have hNone : db.contradictionPairs ns params.since = [] := by
      unfold Db.contradictionPairs
      simp only [vacant_farEnd hVacant, false_and, and_false, decide_false, filter_false]
      rfl
    unfold Db.openPairs
    rw [hNone]
    rfl
  have hItems : db.contradictionItems ns params.since now.secs params.limit = .ok [] := by
    unfold Db.contradictionItems
    rw [hPairs, take_nil]
    rfl
  have hScan : db.scanAnchors ns params.since = [] := by
    unfold Db.scanAnchors
    rw [vacant_filter hVacant fun m hm => hm.1]
    rfl
  have hLow : ∀ limit, db.lowTier ns params.since now.secs limit = (0, []) := by
    intro limit
    unfold Db.lowTier Db.singleTier
    rw [vacant_filter hVacant fun m hm => hm.1.1, insertionSort_nil, take_nil]
    rfl
  have hStale : ∀ limit, db.staleTier ns params.since now.secs limit = (0, []) := by
    intro limit
    unfold Db.staleTier Db.singleTier
    rw [vacant_filter hVacant fun m hm => hm.1.1, insertionSort_nil, take_nil]
    rfl
  unfold Db.reviewQueue
  simp only [hPairs, hItems, hScan, hLow, hStale, hSnoozed]
  cases params.validate <;> rfl

theorem vacant_feedbackTotals : db.feedbackTotals ns = ⟨0, 0, 0⟩ := by
  have hNone : ∀ kind, db.feedbackCount ns kind = 0 := fun kind =>
    countP_eq_zero.mpr fun r hr hTerms => hVacant.feedback r hr (of_decide_eq_true hTerms).1
  unfold Db.feedbackTotals
  rw [hNone, hNone, hNone]

theorem vacant_stats (windowDays : Nat) (model version : Text) (topLimit : Nat)
    (retention : Option RetentionPolicy) (now : DateTime) :
    (db.namespaceStats ns windowDays model version topLimit retention now).map MemoryStats.figures =
      (retention.mapM fun p => (RetentionPolicy.validate p).map fun _ => 0).map (emptyFigures windowDays) := by
  have hRows : db.rowsOf ns = [] := vacant_filter hVacant fun _ hm => hm
  have hContested : db.contestedCount ns = 0 := by
    unfold Db.contestedCount
    rw [Finset.card_eq_zero, Finset.eq_empty_iff_forall_notMem]
    intro id hId
    obtain ⟨other, hFar, -⟩ := Db.mem_statsContested.mp hId
    exact vacant_farEnd hVacant id hFar
  have hRetention : ∀ p : RetentionPolicy, db.retentionEligibleCount ns p now =
      p.validate.map fun _ => 0 := by
    intro p
    unfold Db.retentionEligibleCount
    cases p.validate with
    | error err => rfl
    | ok u =>
      rw [show p.horizon .apply = .ok (p.archiveAfterDays.or p.maxAgeDays) from rfl]
      cases p.archiveAfterDays.or p.maxAgeDays with
      | none => rfl
      | some days =>
        have hReadable : ∀ m ∈ db.memories, p.Readable ns .apply (cutoff now days) m :=
          fun m hm _ hTerms => absurd hTerms.1 (hVacant.memories m hm)
        have hNone : db.memories.countP (db.Eligible p ns .apply (cutoff now days)) = 0 :=
          countP_eq_zero.mpr fun m hm hTerms =>
            hVacant.memories m hm (of_decide_eq_true hTerms).1.1
        exact (if_pos hReadable).trans (congrArg Except.ok hNone)
  have hTop : topRecalled [] topLimit = [] := by simp [topRecalled]
  unfold Db.namespaceStats
  simp only [hRows, hContested, vacant_feedbackTotals hVacant, hRetention, hTop, map_bind_ok]
  cases retention.mapM fun p => (RetentionPolicy.validate p).map fun _ => 0 <;> rfl

/-- **Nothing is read from a vacant name.** -/
theorem readsEmpty_of_vacant (env : Env) (fts : Fts) : db.ReadsEmpty env fts ns where
  list := vacant_listFiltered hVacant
  keyword := vacant_keywordSearch hVacant fts
  vector := vacant_vectorSearchFiltered hVacant env
  review := vacant_reviewQueue hVacant env
  stats := vacant_stats hVacant

end Vacant

/-! ## What a rename carries -/

/-- Every read of `new` gives in `db'` what the read of `old` gave in `db`; notes name the
namespace they were read from. -/
structure Carries (env : Env) (fts : Fts) (old new : Namespace) (db db' : Db) : Prop where
  list : ∀ f limit, db'.listFiltered new f limit =
    (db.listFiltered old f limit).map (List.map fun n => { n with ns := new })
  keyword : ∀ query limit f, db'.keywordSearchFiltered fts new query limit f =
    db.keywordSearchFiltered fts old query limit f
  vector : ∀ e limit f, db'.vectorSearchFiltered env new e limit f =
    db.vectorSearchFiltered env old e limit f
  review : ∀ params now, db'.reviewQueue env new params now = db.reviewQueue env old params now
  stats : ∀ windowDays model version topLimit retention now,
    (db'.namespaceStats new windowDays model version topLimit retention now).map MemoryStats.figures =
      (db.namespaceStats old windowDays model version topLimit retention now).map MemoryStats.figures

section Carries

variable {env : Env} {fts : Fts} {db db' : Db} {old new : Namespace}

theorem Mirrors.carries {f : Text ≃ Text} (h : Mirrors f old new db db') (hOld : old.WellFormed)
    (hNew : new.WellFormed) (hFeedback : db'.feedbackTotals new = db.feedbackTotals old) :
    Carries env fts old new db db' where
  list := h.listFiltered hOld hNew
  keyword := h.keywordSearchFiltered fts
  vector := h.vectorSearchFiltered env
  review := h.reviewQueue env
  stats := h.figures hFeedback

/-- A read that is empty stays so under another name. -/
theorem Carries.readsEmpty (h : Carries env fts new old db db') (hDim : db'.embeddingDim = db.embeddingDim)
    (hEmpty : db.ReadsEmpty env fts new) : db'.ReadsEmpty env fts old where
  list := by
    intro f limit
    rw [h.list, hEmpty.list]
    cases prepareFilter f <;> rfl
  keyword := fun query limit f => (h.keyword query limit f).trans (hEmpty.keyword query limit f)
  vector := by
    intro e limit f
    rw [h.vector, hEmpty.vector, hDim]
  review := fun params now => (h.review params now).trans (hEmpty.review params now)
  stats := fun w m v t r now => (h.stats w m v t r now).trans (hEmpty.stats w m v t r now)

/-- The feedback figures are among those that are carried. -/
theorem Carries.feedback (h : Carries env fts old new db db') :
    db'.feedbackTotals new = db.feedbackTotals old := by
  have hStats := h.stats 0 [] [] 0 none ⟨0, 0⟩
  exact congrArg MemoryStats.feedback (Except.ok.inj hStats)

theorem feedbackTotals_zero_iff (db : Db) (ns : Namespace) :
    db.feedbackTotals ns = ⟨0, 0, 0⟩ ↔ ∀ r ∈ db.feedback, r.ns ≠ ns.asDbString := by
  simp only [Db.feedbackTotals, FeedbackTotals.mk.injEq, Db.feedbackCount, countP_eq_zero,
    decide_eq_true_eq, not_and]
  constructor
  · rintro ⟨hHelpful, hWrong, hStale⟩ r hr hNs
    cases hKind : r.kind with
    | helpful => exact hHelpful r hr hNs hKind
    | wrong => exact hWrong r hr hNs hKind
    | stale => exact hStale r hr hNs hKind
  · intro hNone
    exact ⟨fun r hr hNs => absurd hNs (hNone r hr), fun r hr hNs => absurd hNs (hNone r hr),
      fun r hr hNs => absurd hNs (hNone r hr)⟩

/-- **A rename into a vacant name carries every read along, and leaves nothing under the old
name, exactly when no feedback was given under it**: feedback is counted by the namespace that
it was given under, and the rename does not re-key it. -/
theorem rename_carries_iff {now : Int} {merge : Bool} {out : NamespaceRenameOutcome}
    (hReach : Reachable env (fun _ => True) db) (hOld : old.WellFormed) (hNew : new.WellFormed)
    (hVacant : db.Vacant new.asDbString) (h : Runs (renameNamespace now old new merge) db out db') :
    (Carries env fts old new db db' ∧ db'.ReadsEmpty env fts old) ↔
      ∀ r ∈ db.feedback, r.ns ≠ old.asDbString := by
  have hWf := hReach.wf
  have hIndexed : db.Indexed False := hReach.indexed fun _ _ => False.elim
  obtain ⟨hTo, hFrom, hSame⟩ := renameNamespace_mirrors hWf.ids hIndexed hVacant h
  have hNewTotals : db'.feedbackTotals new = ⟨0, 0, 0⟩ := by
    rw [feedbackTotals_zero_iff, hSame]
    exact hVacant.feedback
  rw [← feedbackTotals_zero_iff]
  constructor
  · rintro ⟨hCarries, -⟩
    exact hCarries.feedback.symm.trans hNewTotals
  · intro hZero
    refine ⟨hTo.carries hOld hNew (hNewTotals.trans hZero.symm), ?_⟩
    have hOldTotals : db'.feedbackTotals old = db.feedbackTotals new := by
      have hHere : db'.feedbackTotals old = db.feedbackTotals old := by
        simp only [Db.feedbackTotals, Db.feedbackCount, hSame]
      rw [hHere, hZero, vacant_feedbackTotals hVacant]
    exact (hFrom.carries hNew hOld hOldTotals).readsEmpty hFrom.dim (readsEmpty_of_vacant hVacant env fts)

end Carries

/-- A memory that a client found helpful. -/
def ratedStore : Db :=
  storeAfter .blank 2
    [.insertMemory 0 (.plain 1) (some [0, 1]),
      .recordFeedback 1 ⟨1⟩ .helpful none]

/-- The store after it moved to a project. -/
def ratedStoreMoved : Except Error NamespaceRenameOutcome × Db :=
  commit (renameNamespace 2 .global (.project ['p']) false) ratedStore

/-- The rename succeeds; the figures of the project have no feedback, and those of the name
without memories still have it. -/
theorem rename_strands_feedback :
    ratedStoreMoved.1 = .ok ⟨1, 1, 0⟩ ∧
    ratedStore.Vacant (Namespace.asDbString (.project ['p'])) ∧
    (ratedStore.namespaceStats .global 30 [] [] 5 none ⟨3, 0⟩).map MemoryStats.feedback =
      .ok ⟨1, 0, 0⟩ ∧
    (ratedStoreMoved.2.namespaceStats (.project ['p']) 30 [] [] 5 none ⟨3, 0⟩).map MemoryStats.feedback =
      .ok ⟨0, 0, 0⟩ ∧
    (ratedStoreMoved.2.namespaceStats .global 30 [] [] 5 none ⟨3, 0⟩).map
      (fun s => (s.live, s.archived, s.feedback)) = .ok (0, 0, ⟨1, 0, 0⟩) := by
  refine ⟨by decide +kernel, ⟨by decide +kernel, by decide +kernel, by decide +kernel,
    by decide +kernel, by decide +kernel⟩, by decide +kernel, by decide +kernel, by decide +kernel⟩

/-- The same memory before anybody gave feedback. -/
def unratedStore : Db :=
  storeAfter .blank 2 [.insertMemory 0 (.plain 1) (some [0, 1])]

/-- The result at that store: the rename succeeds and carries every read. -/
theorem rename_carries_iff_unratedStore :
    ∃ out db', Runs (renameNamespace 2 .global (.project ['p']) false) unratedStore out db' ∧
      Carries .blank ⟨fun _ _ _ => none, Char.isAlphanum⟩ .global (.project ['p']) unratedStore db' := by
  have hReach : Reachable .blank (fun _ => True) unratedStore :=
    storeAfter_reachable fun _ _ => trivial
  have hOk : (commit (renameNamespace 2 .global (.project ['p']) false) unratedStore).1.isOk = true := by
    decide +kernel
  obtain ⟨out, hRuns⟩ := runs_of_isOk hOk
  have hGlobal : Namespace.global.WellFormed := trivial
  have hProject : (Namespace.project ['p']).WellFormed := by decide
  have hVacant : unratedStore.Vacant (Namespace.asDbString (.project ['p'])) :=
    ⟨by decide +kernel, by decide +kernel, by decide +kernel, by decide +kernel, by decide +kernel⟩
  have hUnrated : ∀ r ∈ unratedStore.feedback, r.ns ≠ Namespace.global.asDbString := by
    decide +kernel
  exact ⟨out, _, hRuns, ((rename_carries_iff hReach hGlobal hProject hVacant hRuns).mpr hUnrated).1⟩

end RustyBrain.Store
