import RustyBrain.Daemon.Resolve
import RustyBrain.Lib.Machine
import RustyBrain.Store.MergeGraph
import RustyBrain.Store.TwinScan

/-!
# rusty-brain — do repeated sweeps merge every duplicate?

The comment on the second tier of `review_queue` says that a memory joins at most one pair per
sweep and that what remains is paired again by later sweeps, which is to converge. A sweep that
merges takes two active memories for one, so sweeps do come to rest. They come to rest with
duplicates left where the scan does not offer a pair that a policy may merge: a curated memory
is the first twin of an uncurated one in every sweep, the scan starts from the 200 oldest
memories in every sweep, and the contradictions that no policy resolves fill the queue first.

## Results

* `sweepLoop_shrinks` — a sweep takes as many active memories as it reports merges.
* `sweep_merges` — a clear store with twins loses some.
-/

namespace RustyBrain.Store

open Transaction List

variable {u : Unit} {env : Env} {db db' : Db} {ns : Namespace}
  {a b : MemoryId} {minSimilarity : ℚ} {n : MemoryNote} {e : Option Embedding} {details : Text}
  {allow : Bool} {now : DateTime}

/-! ## A merge leaves fewer active memories -/

/-- Fewer elements pass a stronger test, if one of them fails it. -/
theorem countP_lt_of_mem {α : Type} {p q : α → Bool} {xs : List α}
    (hpq : ∀ x, q x = true → p x = true) {x : α} (hx : x ∈ xs) (hp : p x = true)
    (hq : q x = false) : xs.countP q < xs.countP p := by
  obtain ⟨before, after, rfl⟩ := append_of_mem hx
  have hBefore : before.countP q ≤ before.countP p := countP_mono_left fun y _ => hpq y
  have hAfter : after.countP q ≤ after.countP p := countP_mono_left fun y _ => hpq y
  rw [countP_append, countP_append, countP_cons_of_pos hp,
    countP_cons_of_neg (by rw [hq]; exact Bool.false_ne_true)]
  omega

/-- A memory that is taken is not active any more. -/
theorem Db.activeCount_retired {old new : MemoryId} {r : MemoryRow} (hr : r ∈ db.memories)
    (hTakes : Takes old r) (hNs : r.ns = ns.asDbString) (secs : Int) :
    (db.retired old new secs).activeCount ns < db.activeCount ns := by
  unfold activeCount
  rw [Db.retired_memories]
  show List.countP _ (db.memories.map fun r => if Takes old r then r.superseded new secs else r) < _
  rw [countP_map]
  have hDead : ∀ s : MemoryRow, (s.superseded new secs).archivedAt ≠ none :=
    fun _ => Option.some_ne_none _
  refine countP_lt_of_mem (fun s hs => ?_) hr ?_ ?_
  · rw [Function.comp_apply, decide_eq_true_eq] at hs
    split at hs
    · exact absurd hs.2 (hDead s)
    · exact decide_eq_true hs
  · exact decide_eq_true ⟨hNs, hTakes.2.2⟩
  · rw [Function.comp_apply, if_pos hTakes, decide_eq_false_iff_not]
    exact fun h => hDead r h.2

/-- One combined memory comes, and two go. -/
theorem reviewMerge_activeCount
    (h : Runs (reviewMerge env ns a b minSimilarity n e details allow now) db u db') :
    db'.activeCount ns < db.activeCount ns := by
  have hGuards := reviewMerge_guards h
  obtain ⟨ra, hFindA, hNsA, hCurrentA, -⟩ := hGuards.members a mem_cons_self
  obtain ⟨rb, hFindB, hNsB, hCurrentB, -⟩ :=
    hGuards.members b (mem_cons_of_mem _ mem_cons_self)
  obtain ⟨hInA, hTakesA⟩ := takes_of_current hFindA hCurrentA
  obtain ⟨hInB, hTakesB⟩ := takes_of_current hFindB hCurrentB
  obtain ⟨d, d', hBody, hState, hLog⟩ := reviewMerge_leaves h
  have hRows : (d.copied n.id a b).memories = db.memories ++ [noteRow n] :=
    (insertMemoryTxBody_adds hBody).memories
  obtain ⟨hMemories, -⟩ := resolution_recorded hState hLog
  clear hState
  generalize d.copied n.id a b = d₃ at *
  have hAdded : d₃.activeCount ns ≤ db.activeCount ns + 1 := by
    unfold Db.activeCount
    rw [hRows, countP_append]
    exact Nat.add_le_add_left (countP_le_length.trans_eq rfl) _
  have hFirst : (d₃.retired a n.id now.secs).activeCount ns < d₃.activeCount ns :=
    Db.activeCount_retired (hRows ▸ mem_append_left _ hInA) hTakesA hNsA _
  -- the second original is as it was when the first is taken
  have hInB₄ : rb ∈ (d₃.retired a n.id now.secs).memories := by
    rw [Db.retired_memories]
    refine Db.mem_setMemories.mpr ⟨rb, hRows ▸ mem_append_left _ hInB, .inr ⟨?_, rfl⟩⟩
    exact fun hTakes => hGuards.distinct.1 (hTakes.1.symm.trans hTakesB.1)
  have hSecond : ((d₃.retired a n.id now.secs).retired b n.id now.secs).activeCount ns <
      (d₃.retired a n.id now.secs).activeCount ns :=
    Db.activeCount_retired hInB₄ hTakesB hNsB _
  have hEnd : db'.activeCount ns =
      ((d₃.retired a n.id now.secs).retired b n.id now.secs).activeCount ns := by
    unfold Db.activeCount
    rw [hMemories]
  omega

/-! ## A merge snoozes nothing -/

/-- The review rows are unchanged. -/
def SameReview (d d' : Db) : Prop := d'.reviewState = d.reviewState

instance : IsPreorder Db SameReview where
  refl := fun _ => rfl
  trans := fun _ _ _ h₁ h₂ => Eq.trans h₂ h₁

theorem appendOplog_sameReview (op : OplogOp) (id : MemoryId) (now : Int) (details : OplogDetails) :
    Within SameReview (appendOplog op id now details) := by
  intro d u d' h
  rw [← runs_appendOplog.mp h]
  unfold SameReview Db.appended
  split <;> rfl

theorem insertNoteLink_sameReview (now : Int) (l : MemoryLink) :
    Within SameReview (insertNoteLink now l) := by
  refine Within.bind (fun d u d' h => ?_) fun _ => appendOplog_sameReview _ _ _ _
  obtain ⟨-, -, -, rfl⟩ := runs_insertLinkRow.mp h
  rfl

theorem insertMemoryTxBody_sameReview (now : Int) (n : MemoryNote) (e : Option Embedding) :
    Within SameReview (insertMemoryTxBody now n e) := by
  refine Within.bind (fun d u d' h => ?_) fun _ =>
    Within.bind (appendOplog_sameReview _ _ _ _) fun _ =>
    Within.bind (Within.forM fun a _ d v d' h => ?_) fun _ =>
    Within.bind (fun d u d' h => ?_) fun _ => Within.forM fun l _ => insertNoteLink_sameReview _ l
  · obtain ⟨-, -, -, rfl⟩ := runs_insertMemoryRow.mp h
    rfl
  · obtain ⟨-, -, rfl⟩ := runs_insertAnchorRow.mp h
    rfl
  · cases e with
    | none => exact Within.pure _ _ _ _ h
    | some v =>
      obtain ⟨-, -, rfl⟩ := runs_insertVectorRow.mp h
      rfl

theorem Db.retired_reviewState (db : Db) (old new : MemoryId) (secs : Int) :
    (db.retired old new secs).reviewState = db.reviewState := by
  unfold Db.retired Db.appended
  split <;> rfl

/-- No item of the namespace was ever snoozed, or its snooze was taken back. -/
def Db.Unsnoozed (db : Db) (ns : Namespace) : Prop :=
  ∀ r ∈ db.reviewState, r.ns = ns.asDbString → r.snoozeUntil = none
  deriving Decidable

theorem Db.Unsnoozed.snoozedKeys (h : db.Unsnoozed ns) (secs : Int) : db.snoozedKeys ns secs = [] := by
  have hNone : (db.reviewState.filter fun r =>
      r.ns = ns.asDbString ∧ ∃ t ∈ r.snoozeUntil, t > secs) = [] := by
    refine filter_eq_nil_iff.mpr fun r hr hSnoozed => ?_
    rw [decide_eq_true_eq] at hSnoozed
    obtain ⟨hNs, t, ht, -⟩ := hSnoozed
    rw [h r hr hNs] at ht
    cases ht
  unfold Db.snoozedKeys
  rw [hNone]
  rfl

/-- The row that a resolution leaves has no snooze. -/
theorem upsertReviewState_unsnoozed {key : String} {secs : Int}
    (h : Runs (upsertReviewState ns key secs none) db u db') (hOld : db.Unsnoozed ns) :
    db'.Unsnoozed ns := by
  rw [← runs_modify.mp h]
  intro r hr hNs
  rw [Db.setReviewState_reviewState] at hr
  split at hr
  · obtain ⟨q, hq, rfl⟩ := mem_map.mp hr
    by_cases hKey : q.itemKey = key
    · rw [if_pos hKey]
    · rw [if_neg hKey] at hNs ⊢
      exact hOld q hq hNs
  · rcases mem_concat.mp hr with hq | rfl
    · exact hOld r hq hNs
    · rfl

theorem reviewMerge_unsnoozed
    (h : Runs (reviewMerge env ns a b minSimilarity n e details allow now) db u db')
    (hOld : db.Unsnoozed ns) : db'.Unsnoozed ns := by
  obtain ⟨d, d', hBody, hState, hLog⟩ := reviewMerge_leaves h
  have hSame : d.reviewState = db.reviewState := insertMemoryTxBody_sameReview _ _ _ _ _ _ hBody
  have hAfter : d'.Unsnoozed ns := by
    refine upsertReviewState_unsnoozed hState ?_
    unfold Db.Unsnoozed
    rw [Db.retired_reviewState, Db.retired_reviewState]
    exact hSame ▸ hOld
  rw [← runs_insertOplogRow.mp hLog]
  exact hAfter

/-- What a store keeps along sweeps that merge composed memories. -/
structure Db.Ready (db : Db) (ns : Namespace) : Prop where
  wf : db.Wf
  indexed : db.Indexed
  unsnoozed : db.Unsnoozed ns

/-- An operation that inserts active notes, and keeps the snoozes away, keeps a store ready. -/
theorem Db.Ready.of_runs (h : db.Ready ns) (env : Env) (op : Op) (hActive : VectorsForActive op)
    (hRuns : Runs (op.body env) db () db') (hUnsnoozed : db'.Unsnoozed ns) : db'.Ready ns := by
  have hRun : op.run env db = db' := by
    unfold Op.run
    rw [hRuns.commit_eq]
  rw [← hRun]
  exact ⟨Op.run_wf h.wf, Op.run_indexed (fun _ => hActive) h.wf h.indexed, hRun ▸ hUnsnoozed⟩

/-! ## What a queue reads -/

/-- The tables that a review queue of a whole namespace reads are the same. -/
structure SameRows (d d' : Db) : Prop where
  memories : d'.memories = d.memories
  vectors : d'.vectors = d.vectors
  links : d'.links = d.links
  reviewState : d'.reviewState = d.reviewState
  embeddingDim : d'.embeddingDim = d.embeddingDim

theorem SameRows.trans {d₁ d₂ d₃ : Db} (h : SameRows d₁ d₂) (h' : SameRows d₂ d₃) :
    SameRows d₁ d₃ :=
  ⟨h'.memories.trans h.memories, h'.vectors.trans h.vectors, h'.links.trans h.links,
    h'.reviewState.trans h.reviewState, h'.embeddingDim.trans h.embeddingDim⟩

theorem SameRows.farEnd (h : SameRows db db') (id : MemoryId) : db'.FarEnd ns id ↔ db.FarEnd ns id := by
  unfold Db.FarEnd
  rw [h.memories]

theorem SameRows.snoozedKeys (h : SameRows db db') (secs : Int) :
    db'.snoozedKeys ns secs = db.snoozedKeys ns secs := by
  unfold Db.snoozedKeys
  rw [h.reviewState]

theorem Db.openPairs_congr (h : SameRows db db') {secs : Int} :
    db'.openPairs ns none secs = db.openPairs ns none secs := by
  unfold Db.openPairs Db.contradictionPairs
  simp only [h.farEnd, h.snoozedKeys, h.links, Option.mem_def, reduceCtorEq, false_imp_iff,
    implies_true]

/-- The queue of a whole namespace does not read the log. -/
theorem Db.reviewQueue_congr (h : SameRows db db') {params : ReviewQueueParams}
    (hSince : params.since = none) :
    db'.reviewQueue env ns params now = db.reviewQueue env ns params now := by
  have hKeys : db'.snoozedKeys ns now.secs = db.snoozedKeys ns now.secs := h.snoozedKeys _
  have hItem : ∀ reason ids s, db'.reviewItem now.secs reason ids s =
      db.reviewItem now.secs reason ids s := by
    intro reason ids s
    unfold Db.reviewItem Db.reviewMember Db.find
    rw [h.memories]
  have hAnchors : db'.scanAnchors ns none = db.scanAnchors ns none := by
    unfold Db.scanAnchors
    simp only [h.memories, Option.mem_def, reduceCtorEq, false_imp_iff, implies_true]
  have hNear : ∀ id limit, db'.nearDuplicates env ns id params.threshold limit =
      db.nearDuplicates env ns id params.threshold limit := by
    intro id limit
    unfold Db.nearDuplicates Db.asDuplicate
    simp only [h.farEnd, h.vectors, h.embeddingDim]
  have hScan : db'.scanAnchor env ns params now.secs = db.scanAnchor env ns params now.secs := by
    funext scan anchor
    unfold Db.scanAnchor
    simp only [hNear, hKeys, hItem]
  have hSingle : ∀ reason, db'.Single ns none now.secs reason = db.Single ns none now.secs reason := by
    intro reason
    funext m
    simp only [Db.Single, hKeys, Option.mem_def, reduceCtorEq, false_imp_iff, implies_true]
  unfold Db.reviewQueue Db.contradictionItems Db.lowTier Db.staleTier Db.singleTier
  simp only [hSince, Db.openPairs_congr h, hAnchors, hScan, hItem, hSingle, h.memories, hKeys]

end RustyBrain.Store

namespace RustyBrain.Daemon

open Store Engine Transaction Sessions List

section Sweep

variable {c : Connection} {o : Outside} {reason : ReviewReason} {ids : List MemoryId}
  {threshold : ℚ} {explicit : Bool} {db db' : Db}

/-! ## One planned merge -/

theorem Outside.disturb_alone (hAlone : o.others = []) (env : Env) (d : Db) :
    o.disturb env d = d := by
  unfold Outside.disturb
  rw [hAlone]
  rfl

/-- A merge that fails leaves the store as it was, if nobody else writes. -/
theorem merge_atomic (hAlone : o.others = []) :
    Atomic (applyReviewAction c o reason ids .merge threshold explicit) := by
  have hNotes : Reads (memberNotes (direct (interrupt (o.disturb c.env))) c ids) := fun d =>
    congrArg Prod.snd (outcome_memberNotes _ c ids d)
  refine (Reads.view _).bind_atomic fun _ => (checkContradiction_reads _ c reason ids).bind_atomic
    fun _ => hNotes.bind_atomic fun notes =>
      (Reads.interrupt (o.disturb_alone hAlone c.env)).bind_atomic fun _ => ?_
  split
  · unfold applyMerge
    split
    · exact (Reads.throw _).atomic
    · exact (Reads.view _).bind_atomic fun ⟨n, e⟩ => Atomic.call_then _ _
  · contradiction
  · exact (Reads.pure _).bind_atomic fun _ => Atomic.call_then _ _

/-- What a planned merge does to a store that nobody else writes to: nothing, or one
transaction of the store with a composed memory. -/
theorem merge_turn (hAlone : o.others = [])
    (h : outcome (applyReviewAction c o reason ids .merge threshold explicit) db = (res, db')) :
    (res.isOk = false ∧ db' = db) ∨ (res.isOk = true ∧ ∃ a b input n e details,
      c.engine.composeNote o.freshId o.clock input = .ok (n, e) ∧
      Runs (reviewMerge c.env c.engine.ns a b threshold n e details explicit o.clock) db () db') := by
  cases res with
  | error err => exact .inl ⟨rfl, merge_atomic hAlone db err db' h⟩
  | ok resolution =>
    refine .inr ⟨rfl, ?_⟩
    have hDone : Completes (applyReviewAction c o reason ids .merge threshold explicit) db resolution
        db' := h
    simp only [applyReviewAction, applyReviewActionOver, completes_bind, lift, completes_view] at hDone
    obtain ⟨⟨⟩, _, ⟨hValid, rfl⟩, hDone⟩ := hDone
    obtain ⟨rfl, a, b, rfl, -⟩ := validate_merge_iff.mp hValid
    simp only [checkContradiction, completes_pure, completes_memberNotes] at hDone
    obtain ⟨_, _, ⟨-, rfl⟩, notes, _, ⟨hNotes, rfl⟩, _, _, hPause, hDone⟩ := hDone
    obtain rfl := completes_interrupt.mp hPause
    obtain ⟨na, nb, -, -, rfl⟩ := mapM_pair hNotes
    rw [o.disturb_alone hAlone] at hDone
    dsimp only [applyMerge] at hDone
    split at hDone
    · exact absurd hDone completes_throw
    · simp only [direct, completes_bind, lift, completes_view, completes_call, completes_pure] at hDone
      obtain ⟨⟨n, e⟩, _, ⟨hComposed, rfl⟩, ⟨⟩, _, hMerge, -, rfl⟩ := hDone
      exact ⟨_, _, _, n, e, _, hComposed, hMerge⟩

/-- The policy plans merges only. -/
theorem planAction_autoMergeDups {action : ReviewAction}
    (h : ReviewPolicy.autoMergeDups.planAction item = some action) : action = .merge := by
  unfold ReviewPolicy.planAction at h
  split at h
  · cases h
  · split at h
    · split at h
      · exact (Option.some.inj h).symm
      · cases h
    next hPolicy _ => cases hPolicy
    · cases h

/-- One turn of the loop keeps the store ready and takes an active memory if it merges. -/
theorem merge_turn_shrinks (hAlone : o.others = []) (hReady : db.Ready c.engine.ns)
    (h : outcome (applyReviewAction c o reason ids .merge threshold explicit) db = (res, db')) :
    db'.Ready c.engine.ns ∧
      db'.activeCount c.engine.ns + (if res.isOk = true then 1 else 0) ≤
        db.activeCount c.engine.ns := by
  rcases merge_turn hAlone h with ⟨hFailed, rfl⟩ | ⟨hMerged, a, b, input, n, e, details, hComposed, hRun⟩
  · rw [hFailed]
    exact ⟨hReady, by simp⟩
  · have hActive : VectorsForActive
        (.reviewMerge c.engine.ns a b threshold n e details explicit o.clock) := by
      refine vectorsForActive_of_composed fun n' e' hInserted => ?_
      cases hInserted
      exact ⟨_, _, _, _, hComposed⟩
    have hFewer := reviewMerge_activeCount hRun
    rw [hMerged, if_pos rfl]
    exact ⟨hReady.of_runs c.env _ hActive hRun (reviewMerge_unsnoozed hRun hReady.unsnoozed), hFewer⟩

/-! ## One sweep -/

/-- Along the loop of a sweep the store stays ready, and each merge takes an active memory.
The induction is on the items; the loop goes on from the store that a turn left. -/
theorem sweepLoop_shrinks (out : ReviewOutcome)
    (hReady : db.Ready c.engine.ns) (hAlone : ∀ p ∈ items, p.2.others = []) :
    (outcome (sweepLoop c .autoMergeDups threshold items out) db).2.Ready c.engine.ns ∧
    (outcome (sweepLoop c .autoMergeDups threshold items out) db).2.activeCount c.engine.ns +
        (sweepVisits c .autoMergeDups threshold items db).countP (Visit.merged c threshold) ≤
      db.activeCount c.engine.ns := by
  induction items generalizing db out with
  | nil => exact ⟨hReady, le_rfl⟩
  | cons head rest ih =>
    obtain ⟨item, o⟩ := head
    have hRest : ∀ p ∈ rest, p.2.others = [] := fun p hp => hAlone p (mem_cons_of_mem _ hp)
    have hHere : o.others = [] := hAlone (item, o) mem_cons_self
    rw [sweepLoop, sweepVisits]
    split
    · exact ih _ hReady hRest
    next action hPlanned =>
      obtain rfl := planAction_autoMergeDups hPlanned
      rw [outcome_attempted_bind, countP_cons]
      have hMerged : Visit.merged c threshold ⟨db, item, o, .merge⟩ =
          (outcome (applyReviewAction c o item.reason (item.members.map ReviewMember.id) .merge
            threshold false) db).1.isOk := rfl
      rw [hMerged]
      rcases hOut : outcome (applyReviewAction c o item.reason
        (item.members.map ReviewMember.id) .merge threshold false) db with ⟨e | res, mid⟩
      · obtain ⟨hMid, hCount⟩ := merge_turn_shrinks hHere hReady hOut
        simp only [Except.isOk, Except.toBool, Bool.false_eq_true, if_false, Nat.add_zero]
          at hCount ⊢
        cases e with
        | stalePlan message =>
          obtain ⟨hAfter, hFewer⟩ := ih _ hMid hRest
          exact ⟨hAfter, hFewer.trans hCount⟩
        | _ => exact ⟨hMid, hCount⟩
      · obtain ⟨hMid, hCount⟩ := merge_turn_shrinks hHere hReady hOut
        obtain ⟨hAfter, hFewer⟩ := ih (out.count .merge) hMid hRest
        simp only [Except.isOk, Except.toBool, if_true] at hCount ⊢
        refine ⟨hAfter, ?_⟩
        show _ + (_ + 1) ≤ _
        omega

section Whole

variable {params : ReviewQueueParams} {now : DateTime} {outside : Nat → Outside} {plan : ReviewPlan}

/-- After its loop a sweep only records itself. -/
theorem runReviewSweep_state (policy : ReviewPolicy) (outside : Nat → Outside)
    (hPlan : db.reviewQueue c.env c.engine.ns params now = .ok plan) :
    ∃ details, Runs (recordReviewSweep c.engine.ns details (outside plan.items.length).clock)
      (outcome (sweepLoop c policy params.threshold (plannedItems plan outside)
        { policy := some policy, totalItems := plan.items.length }) db).2 ()
      (outcome (runReviewSweep c policy params now outside) db).2 := by
  obtain ⟨out, failure, hLoop⟩ : ∃ out failure, (outcome (sweepLoop c policy params.threshold
      (plannedItems plan outside) { policy := some policy, totalItems := plan.items.length }) db).1 =
      .ok (out, failure) := by
    obtain ⟨out, failure, hLoop, -⟩ := sweepLoop_merged policy (plannedItems plan outside)
      { policy := some policy, totalItems := plan.items.length }
    exact ⟨out, failure, hLoop⟩
  rw [runReviewSweep_eq hPlan (Prod.ext hLoop rfl)]
  exact ⟨_, runs_insertOplogRow.mpr rfl⟩

/-- A sweep leaves the store ready, and takes at least as many active memories as it reports
merges. -/
theorem runReviewSweep_shrinks (hReady : db.Ready c.engine.ns) (hAlone : ∀ i, (outside i).others = [])
    (hPlan : db.reviewQueue c.env c.engine.ns params now = .ok plan) :
    (outcome (runReviewSweep c .autoMergeDups params now outside) db).2.Ready c.engine.ns ∧
    (outcome (runReviewSweep c .autoMergeDups params now outside) db).2.activeCount c.engine.ns +
        (sweepVisits c .autoMergeDups params.threshold (plannedItems plan outside) db).countP
          (Visit.merged c params.threshold) ≤ db.activeCount c.engine.ns := by
  have hItems : ∀ p ∈ plannedItems plan outside, p.2.others = [] := by
    intro p hp
    obtain ⟨q, -, rfl⟩ := mem_map.mp hp
    exact hAlone q.2
  obtain ⟨hLoop, hCount⟩ := sweepLoop_shrinks
    { policy := some .autoMergeDups, totalItems := plan.items.length } hReady hItems
  obtain ⟨details, hRecord⟩ := runReviewSweep_state .autoMergeDups outside hPlan
  refine ⟨hLoop.of_runs c.env (.recordReviewSweep c.engine.ns details
    (outside plan.items.length).clock) (fun _ _ hNone => nomatch hNone) hRecord ?_, ?_⟩
  · rw [← runs_insertOplogRow.mp hRecord]
    exact hLoop.unsnoozed
  · rw [← runs_insertOplogRow.mp hRecord]
    exact hCount

/-! ## Progress -/

/-- Nothing outside the pair stops the merge of its two members: they can be read and are not
quarantined, the combined memory can be composed, and the store has room for it. -/
def Feasible (c : Connection) (v : Visit) : Prop :=
  ∀ a b, v.item.members.map ReviewMember.id = [a, b] → ∃ na nb n e,
    (member c.engine v.db a = .ok na ∧ member c.engine v.db b = .ok nb) ∧
    (na.isQuarantined = false ∧ nb.isQuarantined = false) ∧
    c.engine.composeNote v.out.freshId v.out.clock (mergeInput c.provenance na nb) = .ok (n, e) ∧
    v.db.Admits n e

/-- No step of the sweep fails: the queue can be made, and each planned merge is feasible. -/
def Smooth (c : Connection) (params : ReviewQueueParams) (now : DateTime) (outside : Nat → Outside)
    (db : Db) : Prop :=
  ∃ plan, db.reviewQueue c.env c.engine.ns params now = .ok plan ∧
    ∀ v ∈ sweepVisits c .autoMergeDups params.threshold (plannedItems plan outside) db, Feasible c v

/-- The sweep gets at the twins of the store. The contradictions leave room in the queue, the
scan starts from every active memory, and of two twins neither is curated or replaced and the
score that the merge checks is high enough too. -/
structure Clear (c : Connection) (params : ReviewQueueParams) (now : DateTime) (db : Db) : Prop where
  room : (db.openPairs c.engine.ns none now.secs).length < params.limit
  reach : db.activeCount c.engine.ns ≤ nearDupScanBudget
  plain : ∀ u ∈ db.vectors, ∀ v ∈ db.vectors,
    db.Twins c.env c.engine.ns params.threshold u.memoryId v.memoryId →
      ∀ r ∈ db.memories, r.memoryId = u.memoryId ∨ r.memoryId = v.memoryId →
        r.humanCurated = false ∧ r.supersededBy = none
  agrees : ∀ u ∈ db.vectors, ∀ v ∈ db.vectors,
    db.Twins c.env c.engine.ns params.threshold u.memoryId v.memoryId →
      ∃ s ∈ db.storedPairSimilarity c.env u.memoryId v.memoryId, params.threshold ≤ s

/-- A merge that went through was feasible. -/
theorem feasible_of_merged {v : Visit} (hWf : v.db.Wf) (hAlone : v.out.others = [])
    (h : v.merged c threshold = true) : Feasible c v := by
  unfold Visit.merged at h
  rw [Bool.and_eq_true, decide_eq_true_eq] at h
  obtain ⟨hMerge, hOk⟩ := h
  rw [hMerge] at hOk
  obtain ⟨res, -, hDone⟩ := completes_of_isOk hOk
  obtain ⟨-, a, b, na, nb, hIds, -, hA, hB, hQa, hQb, n, e, hComposed, hGuards⟩ :=
    (completes_merge_iff (Outside.disturb_wf hWf)).mp ⟨res, _, hDone⟩
  intro a' b' hIds'
  obtain ⟨rfl, rfl⟩ : a = a' ∧ b = b' := by simpa using hIds.symm.trans hIds'
  exact ⟨na, nb, n, e, ⟨hA, hB⟩, ⟨hQa, hQb⟩, hComposed, v.out.disturb_alone hAlone c.env v.db ▸ hGuards.room⟩

/-- Whether a store is clear can be read off the tables of a queue. -/
theorem Clear.of_sameRows (hClear : Clear c params now db) (h : SameRows db db') :
    Clear c params now db' := by
  have hTwins : ∀ a b, db'.Twins c.env c.engine.ns params.threshold a b ↔
      db.Twins c.env c.engine.ns params.threshold a b := by
    intro a b
    unfold Db.Twins Db.FarEnd
    rw [h.memories, h.vectors]
  refine ⟨?_, ?_, ?_, ?_⟩
  · rw [Db.openPairs_congr h]
    exact hClear.room
  · unfold Db.activeCount
    rw [h.memories]
    exact hClear.reach
  · simp only [hTwins, h.memories, h.vectors]
    exact hClear.plain
  · unfold Db.storedPairSimilarity
    simp only [hTwins, h.vectors]
    exact hClear.agrees

/-- Of an item that a policy plans nothing for the loop makes no call. -/
theorem sweepVisits_skip {tier rest : List (ReviewItem × Outside)}
    (hSkip : ∀ p ∈ tier, policy.planAction p.1 = none) :
    sweepVisits c policy threshold (tier ++ rest) db = sweepVisits c policy threshold rest db := by
  induction tier with
  | nil => rfl
  | cons head tier ih =>
    obtain ⟨item, o⟩ := head
    rw [cons_append, sweepVisits, hSkip (item, o) mem_cons_self]
    exact ih fun p hp => hSkip p (mem_cons_of_mem _ hp)

/-- The members of a feasible pair of twins in a clear store pass the guards of the merge. -/
theorem Clear.admissible (hClear : Clear c params now db) (hWf : db.Wf) (hAlone : o.others = [])
    {a b : MemoryId} (hTwins : db.Twins c.env c.engine.ns params.threshold a b)
    (hFor : item.IsFor .nearDuplicate [a, b]) (hFeasible : Feasible c ⟨db, item, o, .merge⟩) :
    Admissible c o item.reason (item.members.map ReviewMember.id) params.threshold false db := by
  obtain ⟨na, nb, n, e, ⟨hA, hB⟩, ⟨hQa, hQb⟩, hComposed, hRoom⟩ := hFeasible a b hFor.members
  obtain ⟨⟨hne, hEndA, hEndB⟩, u, hu, v, hv, ⟨rfl, rfl⟩, -⟩ := id hTwins
  -- both members are active rows of the namespace, neither curated nor replaced
  have hMember : ∀ id ∈ [u.memoryId, v.memoryId], ∃ r, db.find id = some r ∧
      r.ns = c.engine.ns.asDbString ∧ r.Current ∧ (r.humanCurated = true → false = true) := by
    intro id hId
    obtain ⟨r, hr, hRow, hLive, hNs⟩ : db.FarEnd c.engine.ns id := by
      rcases mem_pair.mp hId with rfl | rfl
      · exact hEndA
      · exact hEndB
    have hEnds := mem_pair.mp hId
    rw [← hRow] at hEnds ⊢
    obtain ⟨hPlain, hCurrent⟩ := hClear.plain u hu v hv hTwins r hr hEnds
    exact ⟨r, Db.find_of_mem hWf.ids hr, hNs, ⟨hLive, hCurrent⟩, fun h => hPlain.symm.trans h⟩
  have hThere : ∀ id ∈ [u.memoryId, v.memoryId], n.id ≠ id := by
    rintro id hId rfl
    obtain ⟨r, hFind, -⟩ := hMember n.id hId
    exact hRoom.newId (Db.mem_ids.mpr ⟨r, Db.find_some hFind⟩)
  obtain ⟨s, hScore, hHigh⟩ := hClear.agrees u hu v hv hTwins
  rw [hFor.kind, hFor.members]
  refine ⟨rfl, _, _, na, nb, rfl, hne, hA, hB, hQa, hQb, n, e, hComposed, ?_⟩
  rw [o.disturb_alone hAlone]
  refine ⟨⟨hne, hThere _ mem_cons_self, hThere _ (mem_cons_of_mem _ mem_cons_self)⟩,
    ?_, hMember, ⟨s, hScore, hHigh⟩, hRoom⟩
  rw [(composeNote_ok hComposed).1]
  rfl

/-- **Progress.** A sweep of a clear store with twins merges: the first item after the
contradictions is a pair that the policy plans, and its merge goes through. -/
theorem sweep_merges (hReady : db.Ready c.engine.ns) (hSince : params.since = none)
    (hAlone : ∀ i, (outside i).others = []) (hClear : Clear c params now db) {a b : MemoryId}
    (hTwins : db.Twins c.env c.engine.ns params.threshold a b)
    (hPlan : db.reviewQueue c.env c.engine.ns params now = .ok plan)
    (hFeasible : ∀ v ∈ sweepVisits c .autoMergeDups params.threshold (plannedItems plan outside) db,
      Feasible c v) :
    0 < (sweepVisits c .autoMergeDups params.threshold (plannedItems plan outside) db).countP
      (Visit.merged c params.threshold) := by
  obtain ⟨tier1, item, rest, x, y, s, hItems, hKind, hxy, hItem⟩ := Db.reviewQueue_pair hReady.wf
    hReady.indexed (hReady.unsnoozed.snoozedKeys _) hSince hClear.room hClear.reach hTwins hPlan
  have hFor := Db.reviewItem_isFor hItem
  have hPlanned : ReviewPolicy.autoMergeDups.planAction item = some .merge := by
    have hPlain : ∀ id ∈ [x, y], db.Uncurated id := by
      obtain ⟨-, u, hu, v, hv, ⟨rfl, rfl⟩, -⟩ := id hxy
      intro id hId r hr hRow
      have hEnds := mem_pair.mp hId
      rw [← hRow] at hEnds
      exact (hClear.plain u hu v hv hxy r hr hEnds).1
    have hTwo : item.members.length = 2 := by
      rw [← length_map (f := ReviewMember.id), hFor.members]
      rfl
    unfold ReviewPolicy.planAction
    rw [Db.reviewItem_uncurated hPlain hItem, if_neg Bool.false_ne_true, hFor.kind]
    exact if_pos hTwo
  -- the calls of the loop start with this item
  have hVisits : ∃ o more, o.others = [] ∧
      sweepVisits c .autoMergeDups params.threshold (plannedItems plan outside) db =
        ⟨db, item, o, .merge⟩ :: more := by
    unfold plannedItems
    rw [hItems, zipIdx_append, map_append, sweepVisits_skip, zipIdx_cons,
      map_cons, sweepVisits, hPlanned]
    · exact ⟨_, _, hAlone _, rfl⟩
    · intro p hp
      obtain ⟨q, hq, rfl⟩ := mem_map.mp hp
      have hReason := hKind q.1 (fst_mem_of_mem_zipIdx hq)
      unfold ReviewPolicy.planAction
      rw [hReason]
      split <;> rfl
  obtain ⟨o, more, hStill, hVisits⟩ := hVisits
  rw [hVisits] at hFeasible ⊢
  refine countP_pos_iff.mpr ⟨_, mem_cons_self, ?_⟩
  obtain ⟨res, db', hDone⟩ := (completes_merge_iff (Outside.disturb_wf hReady.wf)).mpr
    (hClear.admissible hReady.wf hStill hxy hFor (hFeasible _ mem_cons_self))
  show (outcome (applyReviewAction c o item.reason (item.members.map ReviewMember.id) .merge
    params.threshold false) db).1.isOk = true
  rw [hDone]
  rfl

end Whole

end Sweep

/-! ## Sweep after sweep -/

/-- The store after a number of sweeps of `auto_merge_dups`, of which each has its own time and
meets its own things outside. -/
def afterSweeps (c : Connection) (params : ReviewQueueParams) (now : Nat → DateTime)
    (outside : Nat → Nat → Outside) (db : Db) : Nat → Db
  | 0 => db
  | k + 1 => (outcome (runReviewSweep c .autoMergeDups params (now k) (outside k))
      (afterSweeps c params now outside db k)).2

section Runs

variable {c : Connection} {params : ReviewQueueParams} {now : Nat → DateTime}
  {outside : Nat → Nat → Outside} {db : Db}

/-- Every store along smooth sweeps is ready. -/
theorem afterSweeps_ready (hReady : db.Ready c.engine.ns)
    (hAlone : ∀ k i, (outside k i).others = [])
    (hSmooth : ∀ k, Smooth c params (now k) (outside k) (afterSweeps c params now outside db k))
    (k : Nat) : (afterSweeps c params now outside db k).Ready c.engine.ns := by
  induction k with
  | zero => exact hReady
  | succ k ih =>
    obtain ⟨plan, hPlan, -⟩ := hSmooth k
    exact (runReviewSweep_shrinks ih (hAlone k) hPlan).1

/-- **Clear sweeps converge.** Take any store that operations with active notes lead to, without
snoozes, and sweep it again and again with nobody else writing and no step failing. If every
sweep starts from a clear store, then after at most as many sweeps as there were active memories
one merges nothing, and in its store no two memories that are active and not curated have
similar vectors, whether they are linked or not. -/
theorem clear_sweeps_converge (c : Connection) (params : ReviewQueueParams) (now : Nat → DateTime)
    (outside : Nat → Nat → Outside) {db : Db} (hSince : params.since = none)
    (hReach : Reachable c.env VectorsForActive db) (hUnsnoozed : db.Unsnoozed c.engine.ns)
    (hAlone : ∀ k i, (outside k i).others = [])
    (hSmooth : ∀ k, Smooth c params (now k) (outside k) (afterSweeps c params now outside db k))
    (hClear : ∀ k, Clear c params (now k) (afterSweeps c params now outside db k)) :
    ∃ k ≤ db.activeCount c.engine.ns,
      (∃ report, (outcome (runReviewSweep c .autoMergeDups params (now k) (outside k))
        (afterSweeps c params now outside db k)).1 = .ok report ∧ report.merged = 0) ∧
      ∀ a b, (afterSweeps c params now outside db k).Uncurated a →
        (afterSweeps c params now outside db k).Uncurated b →
          ¬ (afterSweeps c params now outside db k).Twins c.env c.engine.ns params.threshold a b := by
  have hReady := afterSweeps_ready ⟨hReach.wf, hReach.indexed fun _ hOp _ => hOp, hUnsnoozed⟩ hAlone hSmooth
  -- the number of active memories falls with every sweep that merges
  refine Machine.exists_rest (fun k =>
    (afterSweeps c params now outside db k).activeCount c.engine.ns) fun k => ?_
  obtain ⟨plan, hPlan, hFeasible⟩ := hSmooth k
  obtain ⟨report, hReport, hMerged⟩ := runReviewSweep_merged hPlan
  obtain ⟨-, hCount⟩ := runReviewSweep_shrinks (hReady k) (hAlone k) hPlan
  by_cases hRest : report.merged = 0
  · refine .inl ⟨⟨report, hReport, hRest⟩, fun a b _ _ hTwins => ?_⟩
    have hSome := sweep_merges (hReady k) hSince (hAlone k) (hClear k) hTwins hPlan hFeasible
    rw [← hMerged, hRest] at hSome
    exact Nat.lt_irrefl 0 hSome
  · right
    rw [← hMerged] at hCount
    show (outcome (runReviewSweep c .autoMergeDups params (now k) (outside k))
      (afterSweeps c params now outside db k)).2.activeCount c.engine.ns < _
    omega

/-! ## Sweeps that plan nothing -/

/-- A loop over items that the policy plans nothing for skips them all. -/
theorem sweepLoop_idle (c : Connection) (db : Db) (threshold : ℚ)
    (hIdle : ∀ p ∈ items, policy.planAction p.1 = none) (out : ReviewOutcome) :
    ∃ out', outcome (sweepLoop c policy threshold items out) db = (.ok (out', none), db) ∧
      out'.merged = out.merged := by
  induction items generalizing out with
  | nil => exact ⟨out, rfl, rfl⟩
  | cons head rest ih =>
    obtain ⟨item, o⟩ := head
    rw [sweepLoop, hIdle (item, o) mem_cons_self]
    exact ih (fun p hp => hIdle p (mem_cons_of_mem _ hp)) _

/-- The policy plans nothing for the whole namespace. -/
def Idle (c : Connection) (params : ReviewQueueParams) (now : DateTime) (db : Db) : Prop :=
  ∃ plan, db.reviewQueue c.env c.engine.ns params now = .ok plan ∧
    ∀ item ∈ plan.items, ReviewPolicy.autoMergeDups.planAction item = none

/-- Such a sweep reports no merge and no failure, and writes to the log only. -/
theorem Idle.sweep {t : DateTime} (hIdle : Idle c params t db) (outside : Nat → Outside) :
    ∃ report, (outcome (runReviewSweep c .autoMergeDups params t outside) db).1 = .ok report ∧
      report.merged = 0 ∧ report.failure = none ∧
      SameRows db (outcome (runReviewSweep c .autoMergeDups params t outside) db).2 ∧
      Smooth c params t outside db := by
  obtain ⟨plan, hPlan, hNone⟩ := hIdle
  have hItems : ∀ p ∈ plannedItems plan outside,
      ReviewPolicy.autoMergeDups.planAction p.1 = none := by
    intro p hp
    obtain ⟨q, hq, rfl⟩ := mem_map.mp hp
    exact hNone q.1 (fst_mem_of_mem_zipIdx hq)
  have hVisits : sweepVisits c .autoMergeDups params.threshold (plannedItems plan outside) db = [] := by
    rw [← append_nil (plannedItems plan outside), sweepVisits_skip hItems]
    rfl
  have hSmooth : Smooth c params t outside db := ⟨plan, hPlan, fun v hv => by
    rw [hVisits] at hv
    cases hv⟩
  obtain ⟨out, hLoop, hMerged⟩ := sweepLoop_idle c db params.threshold hItems
    { policy := some .autoMergeDups, totalItems := plan.items.length }
  rw [runReviewSweep_eq hPlan hLoop]
  exact ⟨_, rfl, hMerged, rfl, ⟨rfl, rfl, rfl, rfl, rfl⟩, hSmooth⟩

/-- Sweeps of a store that the policy plans nothing for go on like that. -/
theorem afterSweeps_idle (hSince : params.since = none) (hIdle : ∀ k, Idle c params (now k) db)
    (k : Nat) : SameRows db (afterSweeps c params now outside db k) ∧
      Idle c params (now k) (afterSweeps c params now outside db k) := by
  have hHere : ∀ k db', SameRows db db' → Idle c params (now k) db' := by
    intro k db' hSame
    obtain ⟨plan, hPlan, hNone⟩ := hIdle k
    exact ⟨plan, (Db.reviewQueue_congr hSame hSince).trans hPlan, hNone⟩
  have hRows : SameRows db (afterSweeps c params now outside db k) := by
    induction k with
    | zero => exact ⟨rfl, rfl, rfl, rfl, rfl⟩
    | succ k ih =>
      obtain ⟨-, -, -, -, hNext, -⟩ := (hHere k _ ih).sweep (outside k)
      exact ih.trans hNext
  exact ⟨hRows, hHere k _ hRows⟩

end Runs

/-! ## A curated twin in the way -/

/-- Three memories with one vector. The oldest is curated. -/
def guardedTwins : Db :=
  let note (id : Nat) (curated : Bool) :=
    { MemoryNote.plain id with humanCurated := curated }
  storeAfter alignedEnv 2
    [.insertMemory 0 (note 1 true) (some [1, 0]), .insertMemory 0 (note 2 false) (some [1, 0]),
      .insertMemory 0 (note 3 false) (some [1, 0])]

/-- Sweeps of the global namespace, one after the other, with nobody else writing. -/
def sweepParams : ReviewQueueParams := ⟨92 / 100, 10, none⟩

@[inherit_doc sweepParams]
def undisturbedSweeps (db : Db) : Nat → Db :=
  afterSweeps alignedConnection sweepParams (fun _ => ⟨100, 0⟩) (fun _ _ => undisturbed) db

/-- What the next of these sweeps does. -/
def undisturbedSweep (db : Db) : Except Error ReviewOutcome × Db :=
  outcome (runReviewSweep alignedConnection .autoMergeDups sweepParams ⟨100, 0⟩
    fun _ => undisturbed) db

/-- A sweep that makes every merge it plans has no step that fails. -/
theorem smooth_of_merged {db : Db} (hWf : db.Wf)
    (h : (db.reviewQueue alignedEnv .global sweepParams ⟨100, 0⟩).toOption.map
      (fun plan => (sweepVisits alignedConnection .autoMergeDups (92 / 100)
        (plannedItems plan fun _ => undisturbed) db).all fun v =>
          v.merged alignedConnection (92 / 100) && decide (v.out.others = [])) = some true) :
    Smooth alignedConnection sweepParams ⟨100, 0⟩ (fun _ => undisturbed) db := by
  obtain ⟨plan, hQueue, hAll⟩ := except_toOption_map h
  refine ⟨plan, hQueue, fun v hv => ?_⟩
  have hBoth := all_eq_true.mp hAll v hv
  rw [Bool.and_eq_true, decide_eq_true_eq] at hBoth
  exact feasible_of_merged (sweepVisits_wf hWf hv) hBoth.2 hBoth.1

/-- A store is idle if the policy plans nothing for the items of its queue. -/
theorem idle_of_planned {db : Db}
    (h : (db.reviewQueue alignedEnv .global sweepParams ⟨100, 0⟩).toOption.map
      (fun plan => plan.items.all fun item =>
        (ReviewPolicy.autoMergeDups.planAction item).isNone) = some true) :
    Idle alignedConnection sweepParams ⟨100, 0⟩ db := by
  obtain ⟨plan, hQueue, hAll⟩ := except_toOption_map h
  refine ⟨plan, hQueue, fun item hi => ?_⟩
  exact Option.isNone_iff_eq_none.mp (all_eq_true.mp hAll item hi)

/-- The curated memory is the first twin of the second one in every sweep, and no policy merges
that pair, so the second and the third are never merged: no sweep fails, none merges, and the
two stay active with one vector, uncurated and unlinked. -/
theorem curated_twin_blocks_merging :
    Reachable alignedEnv VectorsForActive guardedTwins ∧ guardedTwins.Unsnoozed .global ∧
    ∀ k, (∃ report, (undisturbedSweep (undisturbedSweeps guardedTwins k)).1 = .ok report ∧
        report.merged = 0 ∧ report.failure = none) ∧
      (undisturbedSweeps guardedTwins k).Twins alignedEnv .global (92 / 100) ⟨2⟩ ⟨3⟩ ∧
      (undisturbedSweeps guardedTwins k).Uncurated ⟨2⟩ ∧
      (undisturbedSweeps guardedTwins k).Uncurated ⟨3⟩ ∧
      (undisturbedSweeps guardedTwins k).links = [] := by
  refine ⟨storeAfter_reachable (by decide +kernel), by decide +kernel, fun k => ?_⟩
  have hIdle : Idle alignedConnection sweepParams ⟨100, 0⟩ guardedTwins :=
    idle_of_planned (by decide +kernel)
  obtain ⟨hRows, hHere⟩ : SameRows guardedTwins (undisturbedSweeps guardedTwins k) ∧ _ :=
    afterSweeps_idle rfl (fun _ => hIdle) k
  obtain ⟨report, hReport, hMerged, hFailure, -⟩ := hHere.sweep fun _ => undisturbed
  refine ⟨⟨report, hReport, hMerged, hFailure⟩, ?_, ?_, ?_, ?_⟩
  · unfold Db.Twins Db.FarEnd
    rw [hRows.memories, hRows.vectors]
    decide +kernel
  iterate 2
    · unfold Db.Uncurated
      rw [hRows.memories]
      decide +kernel
  · rw [hRows.links]
    decide +kernel

/-- Two memories with one vector, neither curated. -/
def plainTwins : Db :=
  storeAfter alignedEnv 2
    [.insertMemory 0 (.plain 1) (some [1, 0]), .insertMemory 0 (.plain 2) (some [1, 0])]

/-- The result for two twins: the first sweep merges them, and the second finds nothing. -/
theorem clear_sweeps_converge_plainTwins :
    (undisturbedSweep plainTwins).1.toOption.map ReviewOutcome.merged = some 1 ∧
    ∃ k ≤ 2, (∃ report, (undisturbedSweep (undisturbedSweeps plainTwins k)).1 = .ok report ∧
        report.merged = 0) ∧
      ∀ a b, (undisturbedSweeps plainTwins k).Uncurated a →
        (undisturbedSweeps plainTwins k).Uncurated b →
          ¬ (undisturbedSweeps plainTwins k).Twins alignedEnv .global (92 / 100) a b := by
  have hReach : Reachable alignedEnv VectorsForActive plainTwins :=
    storeAfter_reachable (by decide +kernel)
  -- the first sweep merges, and after it the store is idle
  have hFirst : Smooth alignedConnection sweepParams ⟨100, 0⟩ (fun _ => undisturbed) plainTwins :=
    smooth_of_merged hReach.wf (by decide +kernel)
  have hIdle : Idle alignedConnection sweepParams ⟨100, 0⟩ (undisturbedSweep plainTwins).2 :=
    idle_of_planned (by decide +kernel)
  have hClear : Clear alignedConnection sweepParams ⟨100, 0⟩ plainTwins :=
    ⟨by decide +kernel, by decide +kernel, by decide +kernel, by decide +kernel⟩
  have hSettled : Clear alignedConnection sweepParams ⟨100, 0⟩ (undisturbedSweep plainTwins).2 :=
    ⟨by decide +kernel, by decide +kernel, by decide +kernel, by decide +kernel⟩
  have hLater : ∀ k, undisturbedSweeps plainTwins (k + 1) =
      undisturbedSweeps (undisturbedSweep plainTwins).2 k := by
    intro k
    induction k with
    | zero => rfl
    | succ k ih => exact congrArg (fun db => (undisturbedSweep db).2) ih
  have hSmooth : ∀ k, Smooth alignedConnection sweepParams ⟨100, 0⟩ (fun _ => undisturbed)
      (undisturbedSweeps plainTwins k) := by
    intro k
    cases k with
    | zero => exact hFirst
    | succ k =>
      rw [hLater]
      obtain ⟨-, hHere⟩ := afterSweeps_idle rfl (fun _ => hIdle) k
      obtain ⟨-, -, -, -, -, hSmooth⟩ := hHere.sweep fun _ => undisturbed
      exact hSmooth
  have hClears : ∀ k, Clear alignedConnection sweepParams ⟨100, 0⟩
      (undisturbedSweeps plainTwins k) := by
    intro k
    cases k with
    | zero => exact hClear
    | succ k =>
      rw [hLater]
      exact hSettled.of_sameRows (afterSweeps_idle rfl (fun _ => hIdle) k).1
  have hTwo : plainTwins.activeCount .global = 2 := by decide +kernel
  obtain ⟨k, hk, hReport, hApart⟩ := clear_sweeps_converge alignedConnection sweepParams
    (fun _ => ⟨100, 0⟩) (fun _ _ => undisturbed) rfl hReach (by decide +kernel) (fun _ _ => rfl)
    hSmooth hClears
  exact ⟨by decide +kernel, k, hTwo ▸ hk, hReport, hApart⟩

end RustyBrain.Daemon
