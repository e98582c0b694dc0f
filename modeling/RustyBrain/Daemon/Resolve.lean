import RustyBrain.Engine.Compose
import RustyBrain.Lib.Session
import RustyBrain.Store.MergeGuards
import RustyBrain.Store.ReviewQueue

/-!
# rusty-brain — resolving review items

`apply_review_action` of the daemon: one resolution of a review item, asked for by a
person or planned by a policy sweep; and the sweep itself.

A merge is allowed for items that the caller claims to be near-duplicates. Neither the
validation nor the store looks for a contradiction between the two members.

## Results

* `merge_spares_disputes_iff` — a resolution leaves a disputed pair alone exactly when some other
  guard refuses the pair.
-/

namespace RustyBrain.Daemon

open Store Engine Transaction Sessions

/-- A handler of the daemon: store operations one after the other. -/
abbrev DaemonM (α : Type) := Session Db Error α

/-- A computation that does not look at the store. -/
def lift {σ α : Type} (x : Result α) : Session σ Error α := view fun _ => x

/-- The connection a request came in on: its engine, and the provenance of what it writes. -/
structure Connection where
  env : Env
  engine : MemoryEngine
  provenance : Provenance := {}

/-- What a resolution meets outside itself: the id drawn for a new memory, the clock, and
the operations of other clients that run between its reads and its writes. -/
structure Outside where
  freshId : MemoryId
  clock : DateTime
  others : List Op := []

variable {now : DateTime} {policy : ReviewPolicy} {params : ReviewQueueParams}
  {outside : Nat → Outside} {plan : ReviewPlan} {engine : MemoryEngine} {id : MemoryId}
  {n : MemoryNote}

/-- The store after the operations of other clients. -/
def Outside.disturb (o : Outside) (env : Env) (db : Db) : Db :=
  o.others.foldl (fun d op => op.run env d) db

/-! ## The accesses to the store -/

/-- The accesses of a resolution to the store, and of an update. -/
inductive Access where
  | disputed
  | member (id : MemoryId)
  | scoped (id : MemoryId)
  | merged (a b : MemoryId) (note : MemoryNote)
  | nudged (id : MemoryId) (step : ℚ)
  | updated (id : MemoryId)
  | retired (id : MemoryId)
  | snoozed
  | recorded

/-- What a resolution draws from outside: the id of a new memory, the time it is composed, and
the clock at each of its writes. -/
structure Drawn where
  freshId : MemoryId
  composedAt : DateTime
  clock : Access → DateTime

/-- A resolution that draws one time. -/
def Outside.drawn (o : Outside) : Drawn := ⟨o.freshId, o.clock, fun _ => o.clock⟩

/-- How a handler gets at the store: its reads, its commands to the writer, and what happens
after it has read the members of an item. -/
structure Channel (σ : Type) where
  read : {α : Type} → Access → (Db → Result α) → Session σ Error α
  write : {α : Type} → Access → StoreM α → Session σ Error α
  pause : Session σ Error Unit := pure ()

/-- The store itself. -/
def direct (pause : DaemonM Unit := pure ()) : Channel Db where
  read _ f := view f
  write _ x := call x
  pause := pause

variable {σ : Type}

/-! ## The engine's reads and updates -/

/-- `peek`: a note of the engine's namespace. -/
def peek (engine : MemoryEngine) (db : Db) (id : MemoryId) : Result (Option MemoryNote) :=
  (db.getMemory id).map fun n => n.filter fun n => n.ns = engine.ns

/-- One member of an item, which must be there. -/
def member (engine : MemoryEngine) (db : Db) (id : MemoryId) : Result MemoryNote := do
  match ← peek engine db id with
  | some n => pure n
  | none => .error (.notFound id)

section

variable (s : Channel σ) (c : Connection)

/-- `MemoryEngine::update`. The writer looks for the memory again. -/
def engineUpdate (key : Access) (now : Int) (id : MemoryId) (updates : MemoryUpdates) :
    Session σ Error Unit := do
  if updates.content.isSome then
    throw (.invalidArgument ("content updates are not supported; create a new memory so " ++
      "embeddings stay consistent"))
  else
    lift (updates.importance.elim (pure ()) validateImportance)
    lift (updates.confidence.elim (pure ()) validateConfidence)
    let _ ← s.read (.scoped id) fun db => member c.engine db id
    s.write key do
      let _ ← getInNamespace c.engine.ns id
      updateMemory now id updates

/-- `MemoryEngine::delete`. The writer looks for the memory again. -/
def engineDelete (now : Int) (id : MemoryId) : Session σ Error Unit := do
  let _ ← s.read (.scoped id) fun db => member c.engine db id
  s.write (.retired id) do
    let _ ← getInNamespace c.engine.ns id
    archiveMemory now id

end

/-! ## The combined memory -/

/-- The entries of the first list, then those of the second that are not there yet. -/
def union {α : Type} [DecidableEq α] (xs ys : List α) : List α :=
  ys.foldl (fun acc y => if y ∈ acc then acc else acc ++ [y]) xs

/-- The text between two bodies that are kept both. -/
def mergeSeparator : Text := ['\n', '\n', '-', '-', '-', '\n', '\n']

/-- The memory that a merge of two notes asks the engine to compose: both bodies, the
stronger importance and confidence, the weaker trust, and the union of the lists. -/
def mergeInput (provenance : Provenance) (a b : MemoryNote) : RememberInput where
  content := if a.content = b.content then a.content else a.content ++ mergeSeparator ++ b.content
  context := [a.context, b.context].find? fun c => c ≠ []
  memoryType := if b.importance > a.importance then b.memoryType else a.memoryType
  importance := max a.importance b.importance
  keywords := union a.keywords b.keywords
  tags := union a.tags b.tags
  relatedFiles := union a.relatedFiles b.relatedFiles
  humanCurated := false
  legacyUnknown := false
  confidence := some (max a.confidence b.confidence)
  provenance := provenance
  anchors := union a.anchors b.anchors
  trustClass := some (a.trustClass.weaker b.trustClass)

/-- The payload of a `review_resolve` row: a JSON object of its fields, by name. -/
def resolveDetails (fields : List (String × String)) : Text :=
  ("\x7b" ++ String.intercalate "," (fields.map fun f => "\"" ++ f.1 ++ "\":" ++ f.2) ++
    "\x7d").toList

/-- A JSON string without escapes: keys and ids need none. -/
def quoted (s : String) : String := "\"" ++ s ++ "\""

/-- The ids of an item as a JSON array. -/
def idArray (ids : List MemoryId) : String :=
  "[" ++ String.intercalate "," (ids.map fun id => quoted id.display) ++ "]"

/-! ## One resolution -/

/-- The confidence after a step, as `f32` arithmetic clamps it. -/
def stepped (n : MemoryNote) (step : ℚ) : ℚ := clampUnit (f32Round (n.confidence + step))

section Resolution

variable (s : Channel σ) (c : Connection) (d : Drawn)

/-- The re-validation of a claimed contradiction. -/
def checkContradiction (reason : ReviewReason) (ids : List MemoryId) : Session σ Error Unit :=
  match reason, ids with
  | .contradiction, [a, b] => do
    let still ← s.read .disputed fun db => .ok (db.contradictionPairActive c.engine.ns a b)
    if still then pure ()
    else throw (.stalePlan (a.display ++ " and " ++ b.display ++
      " no longer form an active contradiction; re-run review for a fresh queue"))
  | _, _ => pure ()

/-- The members of an item, read one after the other. -/
def memberNotes (ids : List MemoryId) : Session σ Error (List MemoryNote) :=
  ids.mapM fun id => s.read (.member id) fun db => member c.engine db id

/-- The merge of two members that were read. -/
def applyMerge (key : String) (ids : List MemoryId) (threshold : ℚ) (explicit : Bool)
    (a b : MemoryNote) : Session σ Error ReviewResolution := do
  if a.isQuarantined = true ∨ b.isQuarantined = true then
    throw (.invalidArgument ("merge refused: one member is quarantined (untrusted origin); " ++
      "resolve its quarantine before merging"))
  else
    let (note, embedding) ← lift
      (c.engine.composeNote d.freshId d.composedAt (mergeInput c.provenance a b))
    let details := resolveDetails [("action", quoted "merge"), ("ids", idArray ids),
      ("key", quoted key), ("merged_into", quoted note.id.display)]
    s.write (.merged a.id b.id note) (reviewMerge c.env c.engine.ns a.id b.id threshold note
      embedding details explicit (d.clock (.merged a.id b.id note)))
    pure { key := key, action := "merge", mergedInto := some note.id }

/-- A step of the confidence of a member that was read, by a person or by a policy. -/
def nudge (explicit : Bool) (n : MemoryNote) (step : ℚ) : Session σ Error Unit := do
  let key := .nudged n.id step
  if explicit then
    engineUpdate s c key (d.clock key).secs n.id { confidence := some (stepped n step) }
  else
    let changed ← s.write key do
      let _ ← getInNamespace c.engine.ns n.id
      setConfidence (d.clock key).secs c.engine.ns n.id (stepped n step)
    if changed then pure ()
    else throw (.stalePlan (n.id.display ++ " became curated before policy demotion"))

/-- The archive of one member, by a person or by a policy. -/
def retire (explicit : Bool) (id : MemoryId) : Session σ Error Unit := do
  if explicit then engineDelete s c (d.clock (.retired id)).secs id
  else
    let archived ← s.write (.retired id)
      (archiveUnattended (d.clock (.retired id)).secs c.engine.ns id)
    if archived then pure ()
    else throw (.stalePlan (id.display ++ " became curated before policy archive"))

/-- The actions that end with a `review_resolve` row of their own transaction: the
confidences they set. -/
def applyPlain (explicit : Bool) (notes : List MemoryNote) :
    ReviewAction → Session σ Error (List MemberConfidence)
  | .keep true => notes.mapM fun n => do
      nudge s c d true n reviewKeepBump
      pure ⟨n.id, stepped n reviewKeepBump⟩
  | .archive id => do
      retire s c d explicit id
      pure []
  | .demote id =>
      match notes.find? fun n => n.id = id with
      | some n => do
        nudge s c d explicit n (-reviewDemoteStep)
        pure [⟨id, stepped n (-reviewDemoteStep)⟩]
      | none => pure []
  | _ => pure []

/-- `apply_review_action`, over a channel. -/
def applyReviewActionOver (reason : ReviewReason) (ids : List MemoryId) (action : ReviewAction)
    (threshold : ℚ) (explicit : Bool) : Session σ Error ReviewResolution := do
  lift (action.validate reason ids)
  let key := reviewItemKey reason ids
  checkContradiction s c reason ids
  let notes ← memberNotes s c ids
  s.pause
  match action, notes with
  | .merge, a :: b :: _ => applyMerge s c d key ids threshold explicit a b
  | .snooze days, _ =>
    let details := resolveDetails [("action", quoted "snooze"), ("days", toString days),
      ("key", quoted key)]
    let expires ← s.write .snoozed
      (snoozeReviewItem c.engine.ns key days details (d.clock .snoozed))
    pure { key := key, action := "snooze", snoozedUntil := some expires }
  | action, notes =>
    let confidence ← applyPlain s c d explicit notes action
    let details := resolveDetails [("action", quoted action.kindStr), ("ids", idArray ids),
      ("key", quoted key)]
    s.write .recorded (recordReviewResolution c.engine.ns key details (d.clock .recorded))
    pure { key := key, action := action.kindStr, confidence := confidence }

end Resolution

/-- `apply_review_action`, with other clients between its reads and its writes. -/
def applyReviewAction (c : Connection) (o : Outside) (reason : ReviewReason)
    (ids : List MemoryId) (action : ReviewAction) (threshold : ℚ) (explicit : Bool) :
    DaemonM ReviewResolution :=
  applyReviewActionOver (direct (interrupt (o.disturb c.env))) c o.drawn reason ids action threshold
    explicit

/-! ## The sweep of a policy -/

/-- The loop of `execute_review_plan`: what the pass did, and the failure that ended it. An
item that went stale is skipped. -/
def sweepLoop (c : Connection) (policy : ReviewPolicy) (threshold : ℚ) :
    List (ReviewItem × Outside) → ReviewOutcome → DaemonM (ReviewOutcome × Option String)
  | [], out => pure (out, none)
  | (item, o) :: rest, out =>
    match policy.planAction item with
    | none => sweepLoop c policy threshold rest { out with skipped := out.skipped + 1 }
    | some action => do
      match ← attempted (applyReviewAction c o item.reason (item.members.map ReviewMember.id) action
          threshold false) with
      | .ok _ => sweepLoop c policy threshold rest (out.count action)
      | .error (.stalePlan _) =>
        sweepLoop c policy threshold rest { out with skipped := out.skipped + 1 }
      | .error e => pure (out, some (action.kindStr ++ " of " ++ item.key ++ " failed: " ++ e.display))

/-- The payload of the row that records a pass. -/
def sweepDetails (policy : ReviewPolicy) (out : ReviewOutcome) (failure : Option String) : Text :=
  resolveDetails [("archived", toString out.archived), ("demoted", toString out.demoted),
    ("failure", failure.elim "null" quoted), ("kept", toString out.kept),
    ("merged", toString out.merged), ("policy", quoted policy.asStr),
    ("skipped", toString out.skipped), ("snoozed", toString out.snoozed),
    ("total_items", toString out.totalItems)]

/-- The items of a plan in their order, each with what it meets outside. -/
def plannedItems (plan : ReviewPlan) (outside : Nat → Outside) : List (ReviewItem × Outside) :=
  plan.items.zipIdx.map fun p => (p.1, outside p.2)

/-- `execute_review_plan`. -/
def executeReviewPlan (c : Connection) (policy : ReviewPolicy) (plan : ReviewPlan) (threshold : ℚ)
    (outside : Nat → Outside) : DaemonM ReviewOutcome := do
  let (out, failure) ← sweepLoop c policy threshold (plannedItems plan outside)
    { policy := some policy, totalItems := plan.items.length }
  match ← attempted (call (recordReviewSweep c.engine.ns (sweepDetails policy out failure)
      (outside plan.items.length).clock)) with
  | .ok _ => pure { out with failure := failure }
  | .error e =>
    let message := "recording the sweep run: " ++ e.display
    pure { out with failure := some (failure.elim message fun prior => prior ++ "; " ++ message) }

/-- `run_review_sweep`. -/
def runReviewSweep (c : Connection) (policy : ReviewPolicy) (params : ReviewQueueParams)
    (now : DateTime) (outside : Nat → Outside) : DaemonM ReviewOutcome := do
  let plan ← view fun db => db.reviewQueue c.env c.engine.ns params now
  executeReviewPlan c policy plan params.threshold outside

/-- One call of `apply_review_action` in a sweep, with the store it starts from. -/
structure Visit where
  db : Db
  item : ReviewItem
  out : Outside
  action : ReviewAction

/-- The calls that the loop of a sweep makes. -/
def sweepVisits (c : Connection) (policy : ReviewPolicy) (threshold : ℚ) :
    List (ReviewItem × Outside) → Db → List Visit
  | [], _ => []
  | (item, o) :: rest, db =>
    match policy.planAction item with
    | none => sweepVisits c policy threshold rest db
    | some action =>
      ⟨db, item, o, action⟩ ::
        match outcome (applyReviewAction c o item.reason (item.members.map ReviewMember.id) action
            threshold false) db with
        | (.ok _, db') => sweepVisits c policy threshold rest db'
        | (.error (.stalePlan _), db') => sweepVisits c policy threshold rest db'
        | (.error _, _) => []

/-! ## When a resolution merges -/

section

variable {c : Connection} {o : Outside} {reason : ReviewReason} {ids : List MemoryId}
  {threshold : ℚ} {explicit : Bool} {db : Db}

/-- A composed note passes the checks of an insert. -/
theorem composeNote_valid {clock : DateTime} {input : RememberInput} {e : Option Embedding}
    (h : engine.composeNote id clock input = .ok (n, e)) : Valid n := by
  obtain ⟨hNote, -⟩ := composeNote_ok h
  simp only [MemoryEngine.composeNote, except_bind_ok] at h
  obtain ⟨_, -, _, hImportance, _, hConfidence, _, hAnchors, -⟩ := h
  rw [hNote]
  refine ⟨hImportance, ?_, fun a ha => ?_⟩
  · show validateConfidence (confidenceFor input _) = .ok ()
    unfold confidenceFor
    cases hGiven : input.confidence with
    | some q =>
      rw [hGiven] at hConfidence
      exact hConfidence
    | none =>
      cases (engine.enrich.bind fun f => f input.content input.context).bind
          Enrichment.confidence with
      | none => rfl
      | some q =>
        show validateConfidence (if (validateConfidence q).isOk then q else 1) = .ok ()
        split
        next hOk =>
          cases hq : validateConfidence q with
          | ok u => rfl
          | error err =>
            rw [hq] at hOk
            cases hOk
        next => rfl
  · exact except_forM_each hAnchors ha

/-- What reading a member means. -/
theorem member_ok {db : Db} :
    member engine db id = .ok n ↔ db.getMemory id = .ok (some n) ∧ n.ns = engine.ns := by
  unfold member peek
  cases hGet : db.getMemory id with
  | error e => simp [Except.map, bind, Except.bind]
  | ok found =>
    cases found with
    | none => simp [Except.map, bind, Except.bind]
    | some note =>
      by_cases hNs : note.ns = engine.ns
      · simp only [Except.map, Option.filter, hNs, decide_true, if_true, bind, Except.bind, pure,
          Except.pure, Except.ok.injEq, Option.some.injEq]
        constructor
        · rintro rfl
          exact ⟨rfl, hNs⟩
        · exact fun h => h.1
      · simp only [Except.map, Option.filter, hNs, decide_false, bind, Except.bind, Except.ok.injEq,
          Option.some.injEq]
        refine iff_of_false nofun ?_
        rintro ⟨rfl, h⟩
        exact hNs h

/-- A member is the decoded row of its id. -/
theorem member_row {db : Db} (h : member engine db id = .ok n) :
    ∃ r, db.find id = some r ∧ db.rowToNote r = .ok n ∧ Decodes r n := by
  rcases Db.getMemory_ok (member_ok.mp h).1 with ⟨hNone, -⟩ | ⟨r, note, hSome, hFind, hNote, hDecodes⟩
  · cases hNone
  · cases hSome
    exact ⟨r, hFind, hNote, hDecodes⟩

/-- The member that is read is the memory of that id. -/
theorem member_id (h : member engine db id = .ok n) : n.id = id := by
  obtain ⟨r, hFind, -, hDecodes⟩ := member_row h
  exact hDecodes.id.trans (Db.find_some hFind).2

/-- Only near-duplicates of two distinct members may be merged. -/
theorem validate_merge_iff :
    ReviewAction.merge.validate reason ids = .ok () ↔
      reason = .nearDuplicate ∧ ∃ a b, ids = [a, b] ∧ a ≠ b := by
  unfold ReviewAction.validate
  match ids with
  | [] => simp
  | [a] => by_cases hReason : reason = .nearDuplicate <;> simp [hReason]
  | [a, b] =>
    by_cases hReason : reason = .nearDuplicate <;> by_cases hab : a = b <;> simp [hReason, hab]
  | a :: b :: c :: rest => simp

/-- The guards of a resolution that asks for a merge: the claimed reason, the two members
as they were read, the composition of the combined memory, and the store's own guards at the
time of the write. None of them looks at the links between the members. -/
def Admissible (c : Connection) (o : Outside) (reason : ReviewReason) (ids : List MemoryId)
    (threshold : ℚ) (explicit : Bool) (db : Db) : Prop :=
  reason = .nearDuplicate ∧ ∃ a b na nb, ids = [a, b] ∧ a ≠ b ∧
    member c.engine db a = .ok na ∧ member c.engine db b = .ok nb ∧
    na.isQuarantined = false ∧ nb.isQuarantined = false ∧
    ∃ n e, c.engine.composeNote o.freshId o.clock (mergeInput c.provenance na nb) = .ok (n, e) ∧
      MergeGuards c.env c.engine.ns a b threshold n e explicit (o.disturb c.env db)

theorem completes_applyMerge_iff (p : DaemonM Unit) (key : String) (ids : List MemoryId)
    {na nb : MemoryNote} {d : Db} (hWf : d.Wf) :
    (∃ res d', Completes (applyMerge (direct p) c o.drawn key ids threshold explicit na nb) d res d') ↔
      na.isQuarantined = false ∧ nb.isQuarantined = false ∧
      ∃ n e, c.engine.composeNote o.freshId o.clock (mergeInput c.provenance na nb) = .ok (n, e) ∧
        MergeGuards c.env c.engine.ns na.id nb.id threshold n e explicit d := by
  unfold applyMerge
  by_cases hQuarantine : na.isQuarantined = true ∨ nb.isQuarantined = true
  · rw [if_pos hQuarantine]
    refine iff_of_false (fun ⟨_, _, h⟩ => completes_throw h) fun ⟨hA, hB, _⟩ => ?_
    rcases hQuarantine with h | h
    · exact absurd (hA.symm.trans h) Bool.false_ne_true
    · exact absurd (hB.symm.trans h) Bool.false_ne_true
  · rw [if_neg hQuarantine]
    obtain ⟨hA, hB⟩ := not_or.mp hQuarantine
    simp only [Bool.not_eq_true] at hA hB
    simp only [hA, hB, true_and, direct, completes_bind, lift, completes_view, completes_call,
      completes_pure]
    constructor
    · rintro ⟨_, _, ⟨n, e⟩, _, ⟨hComposed, rfl⟩, ⟨⟩, d', hMerge, -, rfl⟩
      obtain ⟨hFresh, hLinks⟩ := composeNote_fresh hComposed
      exact ⟨n, e, hComposed,
        (reviewMerge_iff hWf (composeNote_valid hComposed) hFresh hLinks).mp ⟨_, hMerge⟩⟩
    · rintro ⟨n, e, hComposed, hGuards⟩
      obtain ⟨hFresh, hLinks⟩ := composeNote_fresh hComposed
      obtain ⟨d', hMerge⟩ :=
        (reviewMerge_iff hWf (composeNote_valid hComposed) hFresh hLinks).mpr hGuards
      exact ⟨_, d', (n, e), d, ⟨hComposed, rfl⟩, (), d', hMerge, rfl, rfl⟩

theorem mapM_pair {a b : MemoryId} {notes : List MemoryNote}
    (h : [a, b].mapM (member engine db) = .ok notes) :
    ∃ na nb, member engine db a = .ok na ∧ member engine db b = .ok nb ∧ notes = [na, nb] := by
  cases except_mapM_ok.mp h with
  | cons hA hRest =>
    cases hRest with
    | cons hB hNil =>
      cases hNil
      exact ⟨_, _, hA, hB, rfl⟩

/-- On the store itself the members are read from one state. -/
theorem outcome_memberNotes (p : DaemonM Unit) (c : Connection) (ids : List MemoryId) (db : Db) :
    outcome (memberNotes (direct p) c ids) db = (ids.mapM (member c.engine db), db) :=
  outcome_mapM_view (fun db id => member c.engine db id) ids db

@[simp]
theorem completes_memberNotes {p : DaemonM Unit} {notes : List MemoryNote} {db' : Db} :
    Completes (memberNotes (direct p) c ids) db notes db' ↔
      ids.mapM (member c.engine db) = .ok notes ∧ db = db' := by
  unfold Completes
  rw [outcome_memberNotes, Prod.mk.injEq]

/-- **Key lemma:** a resolution merges exactly when its guards pass. -/
theorem completes_merge_iff (hWf : (o.disturb c.env db).Wf) :
    (∃ res db', Completes (applyReviewAction c o reason ids .merge threshold explicit) db res db') ↔
      Admissible c o reason ids threshold explicit db := by
  constructor
  · rintro ⟨res, db', h⟩
    simp only [applyReviewAction, applyReviewActionOver, completes_bind, lift, completes_view] at h
    obtain ⟨⟨⟩, _, ⟨hOk, rfl⟩, h⟩ := h
    obtain ⟨rfl, a, b, rfl, hab⟩ := validate_merge_iff.mp hOk
    simp only [checkContradiction, completes_pure, completes_memberNotes] at h
    obtain ⟨_, _, ⟨-, rfl⟩, notes, _, ⟨hNotes, rfl⟩, _, _, hPause, h⟩ := h
    obtain rfl := completes_interrupt.mp hPause
    obtain ⟨na, nb, hA, hB, rfl⟩ := mapM_pair hNotes
    obtain ⟨hQa, hQb, n, e, hComposed, hGuards⟩ := (completes_applyMerge_iff _ _ _ hWf).mp ⟨_, _, h⟩
    rw [member_id hA, member_id hB] at hGuards
    exact ⟨rfl, a, b, na, nb, rfl, hab, hA, hB, hQa, hQb, n, e, hComposed, hGuards⟩
  · rintro ⟨rfl, a, b, na, nb, rfl, hab, hA, hB, hQa, hQb, n, e, hComposed, hGuards⟩
    rw [← member_id hA, ← member_id hB] at hGuards
    obtain ⟨res, db', h⟩ := (completes_applyMerge_iff (interrupt (o.disturb c.env))
      (reviewItemKey .nearDuplicate [a, b]) [a, b] hWf).mpr ⟨hQa, hQb, n, e, hComposed, hGuards⟩
    refine ⟨res, db', ?_⟩
    simp only [applyReviewAction, applyReviewActionOver, completes_bind, lift, completes_view,
      checkContradiction, completes_pure, completes_memberNotes]
    exact ⟨(), db, ⟨validate_merge_iff.mpr ⟨rfl, a, b, rfl, hab⟩, rfl⟩, (), db, ⟨trivial, rfl⟩,
      [na, nb], db, ⟨except_mapM_ok.mpr (.cons hA (.cons hB .nil)), rfl⟩, (), _,
      completes_interrupt.mpr rfl, h⟩

/-! ## When a resolution collapses a dispute -/

/-- The resolution merges two members that are in dispute when the combined memory is
written. -/
def Collapses (c : Connection) (o : Outside) (reason : ReviewReason) (ids : List MemoryId)
    (action : ReviewAction) (threshold : ℚ) (explicit : Bool) (db : Db) : Prop :=
  action = .merge ∧ (∃ a b, ids = [a, b] ∧ (o.disturb c.env db).Disputes c.engine.ns a b) ∧
    ∃ res db', Completes (applyReviewAction c o reason ids action threshold explicit) db res db'

/-- A merge of two members in dispute is asked for only where some guard refuses it. -/
def Spares (c : Connection) (o : Outside) (reason : ReviewReason) (ids : List MemoryId)
    (action : ReviewAction) (threshold : ℚ) (explicit : Bool) (db : Db) : Prop :=
  action = .merge → (∃ a b, ids = [a, b] ∧ (o.disturb c.env db).Disputes c.engine.ns a b) →
    ¬ Admissible c o reason ids threshold explicit db

theorem not_collapses_iff {action : ReviewAction} (hWf : (o.disturb c.env db).Wf) :
    ¬ Collapses c o reason ids action threshold explicit db ↔
      Spares c o reason ids action threshold explicit db := by
  constructor
  · rintro h rfl hDispute hAdmissible
    exact h ⟨rfl, hDispute, (completes_merge_iff hWf).mpr hAdmissible⟩
  · rintro h ⟨rfl, hDispute, hDone⟩
    exact h rfl hDispute ((completes_merge_iff hWf).mp hDone)

theorem Outside.disturb_wf (hWf : db.Wf) : (o.disturb c.env db).Wf := by
  unfold Outside.disturb
  induction o.others generalizing db with
  | nil => exact hWf
  | cons op rest ih => exact ih (Op.run_wf hWf)

/-! ## Well-formed stores along a sweep -/

/-- The writer's check that a memory is there writes nothing. -/
theorem runs_afterCheck {α : Type} {a : α} {x : StoreM α} {ns : Namespace} {s s' : Db}
    (h : Runs (do let _ ← getInNamespace ns id; x) s a s') : Runs x s a s' := by
  obtain ⟨_, _, hGet, hRun⟩ := runs_bind.mp h
  rw [(getInNamespace_runs hGet).1] at hRun
  exact hRun

section Preserves

variable {p : DaemonM Unit} {d : Drawn}

theorem nudge_preserves (n : MemoryNote) (step : ℚ) :
    Preserves Db.Wf (nudge (direct p) c d explicit n step) := by
  unfold nudge
  split
  · unfold engineUpdate
    split
    · exact .throw _
    · refine (Preserves.view _).bind fun _ => (Preserves.view _).bind fun _ =>
        (Preserves.view _).bind fun _ => .call fun _ _ _ hWf hRun => ?_
      exact Op.wf_of_runs c.env (.updateMemory _ n.id _) (runs_afterCheck hRun) hWf
  · refine Preserves.bind (.call fun _ _ _ hWf hRun => ?_) fun changed => ?_
    · exact Op.wf_of_runs c.env (.setConfidence _ c.engine.ns n.id _)
        (runs_discard.mpr ⟨_, runs_afterCheck hRun⟩) hWf
    · split
      · exact .pure ()
      · exact .throw _

theorem retire_preserves (id : MemoryId) :
    Preserves Db.Wf (retire (direct p) c d explicit id) := by
  unfold retire
  split
  · refine (Preserves.view _).bind fun _ => .call fun _ _ _ hWf hRun => ?_
    exact Op.wf_of_runs c.env (.archiveMemory _ id) (runs_afterCheck hRun) hWf
  · refine Preserves.bind (.call fun _ _ _ hWf hRun => ?_) fun archived => ?_
    · exact Op.wf_of_runs c.env (.archiveUnattended _ c.engine.ns id)
        (runs_discard.mpr ⟨_, hRun⟩) hWf
    · split
      · exact .pure ()
      · exact .throw _

theorem applyPlain_preserves (notes : List MemoryNote) (action : ReviewAction) :
    Preserves Db.Wf (applyPlain (direct p) c d explicit notes action) := by
  unfold applyPlain
  split
  · exact .mapM fun n _ => (nudge_preserves _ _).bind fun _ => .pure _
  · exact (retire_preserves _).bind fun _ => .pure _
  · split
    · exact (nudge_preserves _ _).bind fun _ => .pure _
    · exact .pure _
  · exact .pure _

theorem applyMerge_preserves (key : String) (a b : MemoryNote) :
    Preserves Db.Wf (applyMerge (direct p) c d key ids threshold explicit a b) := by
  unfold applyMerge
  split
  · exact .throw _
  · refine (Preserves.view _).bind fun ⟨n, e⟩ => ?_
    refine Preserves.bind (.call fun _ _ _ hWf hRun => ?_) fun _ => .pure _
    exact Op.wf_of_runs c.env (.reviewMerge c.engine.ns a.id b.id threshold n e _ explicit _) hRun hWf

/-- The re-validation of a contradiction only reads. -/
theorem checkContradiction_reads (p : DaemonM Unit) (c : Connection) (reason : ReviewReason)
    (ids : List MemoryId) : Reads (checkContradiction (direct p) c reason ids) := by
  unfold checkContradiction
  split
  · intro d
    rw [outcome_bind]
    show (outcome (if _ then _ else _) d).2 = d
    split <;> rfl
  · exact Reads.pure ()

end Preserves

theorem applyReviewAction_preserves (c : Connection) (o : Outside) (reason : ReviewReason)
    (ids : List MemoryId) (action : ReviewAction) (threshold : ℚ) (explicit : Bool) :
    Preserves Db.Wf (applyReviewAction c o reason ids action threshold explicit) := by
  refine (Preserves.view _).bind fun _ => (checkContradiction_reads _ c reason ids).preserves.bind
    fun _ => (Preserves.mapM fun _ _ => .view _).bind fun notes =>
      (Preserves.interrupt fun _ hWf => Outside.disturb_wf hWf).bind fun _ => ?_
  split
  · exact applyMerge_preserves _ _ _
  · refine Preserves.bind (.call fun _ _ _ hWf hRun => ?_) fun _ => .pure _
    exact Op.wf_of_runs c.env (.snoozeReviewItem c.engine.ns _ _ _ o.clock)
      (runs_discard.mpr ⟨_, hRun⟩) hWf
  · refine (applyPlain_preserves _ _).bind fun _ =>
      Preserves.bind (.call fun _ _ _ hWf hRun => ?_) fun _ => .pure _
    exact Op.wf_of_runs c.env (.recordReviewResolution c.engine.ns _ _ o.clock) hRun hWf

/-- Every call of a sweep starts from a well-formed store. -/
theorem sweepVisits_wf {items : List (ReviewItem × Outside)} {v : Visit}
    (hWf : db.Wf) (hv : v ∈ sweepVisits c policy threshold items db) : v.db.Wf := by
  induction items generalizing db with
  | nil => cases hv
  | cons head rest ih =>
    obtain ⟨item, o⟩ := head
    rw [sweepVisits] at hv
    split at hv
    · exact ih hWf hv
    next action _ =>
      rcases List.mem_cons.mp hv with rfl | hRest
      · exact hWf
      · have hNext := applyReviewAction_preserves c o item.reason
          (item.members.map ReviewMember.id) action threshold false db hWf
        revert hRest
        split
        next hEq =>
          rw [hEq] at hNext
          exact fun h => ih hNext h
        next hEq =>
          rw [hEq] at hNext
          exact fun h => ih hNext h
        next => exact nofun

/-- The call merged its two members. -/
def Visit.merged (c : Connection) (threshold : ℚ) (v : Visit) : Bool :=
  v.action = .merge && (outcome (applyReviewAction c v.out v.item.reason
    (v.item.members.map ReviewMember.id) v.action threshold false) v.db).1.isOk

theorem outcome_attempted_bind {α β : Type} (x : DaemonM α) (f : Except Error α → DaemonM β) :
    outcome (attempted x >>= f) db = outcome (f (outcome x db).1) (outcome x db).2 := by
  rw [outcome_bind]
  rfl

theorem count_merged (out : ReviewOutcome) (action : ReviewAction) :
    (out.count action).merged = out.merged + if action = .merge then 1 else 0 := by
  cases action <;> rfl

/-- The merges that a sweep reports are those of its calls. -/
theorem sweepLoop_merged (policy : ReviewPolicy) (items : List (ReviewItem × Outside))
    (out : ReviewOutcome) :
    ∃ out' failure, (outcome (sweepLoop c policy threshold items out) db).1 = .ok (out', failure) ∧
      out'.merged = out.merged +
        (sweepVisits c policy threshold items db).countP (Visit.merged c threshold) := by
  induction items generalizing db out with
  | nil => exact ⟨out, none, rfl, rfl⟩
  | cons head rest ih =>
    obtain ⟨item, o⟩ := head
    rw [sweepLoop, sweepVisits]
    split
    · exact ih _
    next action _ =>
      rw [outcome_attempted_bind, List.countP_cons]
      have hMerged : Visit.merged c threshold ⟨db, item, o, action⟩ =
        (decide (action = .merge) && (outcome (applyReviewAction c o item.reason
          (item.members.map ReviewMember.id) action threshold false) db).1.isOk) := rfl
      rw [hMerged]
      rcases hOut : outcome (applyReviewAction c o item.reason
        (item.members.map ReviewMember.id) action threshold false) db with ⟨e | res, db'⟩
      · simp only [Except.isOk, Except.toBool, Bool.and_false, Bool.false_eq_true, if_false,
          Nat.add_zero]
        cases e with
        | stalePlan message => exact ih _
        | _ => exact ⟨out, _, rfl, rfl⟩
      · obtain ⟨out', failure, hLoop, hCount⟩ := ih (out.count action)
        refine ⟨out', failure, hLoop, ?_⟩
        rw [hCount, count_merged]
        simp only [Except.isOk, Except.toBool, Bool.and_true, decide_eq_true_eq]
        omega

/-- After its loop a sweep records itself and reports what the loop counted. -/
theorem runReviewSweep_eq {out : ReviewOutcome} {failure : Option String}
    (hPlan : db.reviewQueue c.env c.engine.ns params now = .ok plan)
    (hLoop : outcome (sweepLoop c policy params.threshold (plannedItems plan outside)
      { policy := some policy, totalItems := plan.items.length }) db = (.ok (out, failure), db')) :
    outcome (runReviewSweep c policy params now outside) db =
      (.ok { out with failure := failure }, db'.logged .reviewSweep none c.engine.ns.asDbString
        (outside plan.items.length).clock.secs (.review (sweepDetails policy out failure))) := by
  have hView : outcome (view fun db : Db => db.reviewQueue c.env c.engine.ns params now) db =
      (.ok plan, db) := congrArg (·, db) hPlan
  unfold runReviewSweep executeReviewPlan
  rw [outcome_bind, hView]
  dsimp only
  rw [outcome_bind, hLoop]
  rfl

/-- A sweep reports the merges of its calls. -/
theorem runReviewSweep_merged (hPlan : db.reviewQueue c.env c.engine.ns params now = .ok plan) :
    ∃ report, (outcome (runReviewSweep c policy params now outside) db).1 = .ok report ∧
      report.merged = (sweepVisits c policy params.threshold (plannedItems plan outside) db).countP
        (Visit.merged c params.threshold) := by
  obtain ⟨out, failure, hLoop, hCount⟩ := sweepLoop_merged (c := c) policy
    (plannedItems plan outside) { policy := some policy, totalItems := plan.items.length }
  rw [← hCount.trans (Nat.zero_add _), runReviewSweep_eq hPlan (Prod.ext hLoop rfl)]
  exact ⟨_, rfl, rfl⟩

end

/-- **A merge leaves disputes alone exactly where another guard refuses it.** No guard of a
resolution asks for the links between its two members, so a disputed pair that is similar
enough, uncurated or explicitly asked for, and not quarantined is merged like any other. -/
theorem merge_spares_disputes_iff (c : Connection) {A : Op → Prop} {db : Db}
    (hReach : Reachable c.env A db) :
    (∀ o reason ids action threshold explicit,
      ¬ Collapses c o reason ids action threshold explicit db ↔
        Spares c o reason ids action threshold explicit db) ∧
    ∀ policy params now outside plan, db.reviewQueue c.env c.engine.ns params now = .ok plan →
      (∃ report, (outcome (runReviewSweep c policy params now outside) db).1 = .ok report ∧
        report.merged = (sweepVisits c policy params.threshold (plannedItems plan outside) db).countP
          (Visit.merged c params.threshold)) ∧
      ((∀ v ∈ sweepVisits c policy params.threshold (plannedItems plan outside) db,
          ¬ Collapses c v.out v.item.reason (v.item.members.map ReviewMember.id) v.action
            params.threshold false v.db) ↔
        ∀ v ∈ sweepVisits c policy params.threshold (plannedItems plan outside) db,
          Spares c v.out v.item.reason (v.item.members.map ReviewMember.id) v.action
            params.threshold false v.db) := by
  refine ⟨fun o reason ids action threshold explicit => ?_, fun policy params now outside plan hPlan =>
    ⟨runReviewSweep_merged hPlan, forall₂_congr fun v hv => ?_⟩⟩
  · exact not_collapses_iff (Outside.disturb_wf hReach.wf)
  · exact not_collapses_iff (Outside.disturb_wf (sweepVisits_wf hReach.wf hv))

/-! ## A dispute that is merged -/

/-- Equal vectors point the same way; the pairs below have no others. -/
def alignedEnv : Env :=
  { Env.blank with
    similarity := fun a b => if a = b then some 1 else some 0
    distance := fun a b => if a = b then 0 else 1 }

/-- A connection whose embedder maps every document to one unit vector. -/
def alignedConnection : Connection where
  env := alignedEnv
  engine :=
    { ns := .global
      isAlphanumeric := Char.isAlphanum
      toLowercase := List.map Char.toLower
      enrich := none
      modelId := ['m']
      embed := fun _ => .ok [[1, 0]] }

/-- The combined memory gets the id 9, and nobody else writes. -/
def undisturbed : Outside := ⟨⟨9⟩, ⟨100, 0⟩, []⟩

/-- Two memories with one vector, of which the second contradicts the first. -/
def alignedDispute : Db :=
  let note (id : Nat) (content : Char) := MemoryNote.new ⟨id⟩ ⟨0, 0⟩ .global [content] .insight 5
  storeAfter alignedEnv 2
    [.insertMemory 0 (note 1 'a') (some [1, 0]), .insertMemory 0 (note 2 'b') (some [1, 0]),
      .addLink 0 ⟨⟨2⟩, ⟨1⟩, .contradicts, 1, [], ⟨0, 0⟩⟩]

theorem alignedDispute_reachable : Reachable alignedEnv (fun _ => True) alignedDispute :=
  storeAfter_reachable fun _ _ => trivial

/-- The store after an explicit merge of the two. -/
def mergedDispute : Except Error ReviewResolution × Db :=
  outcome (applyReviewAction alignedConnection undisturbed .nearDuplicate [⟨1⟩, ⟨2⟩] .merge
    (92 / 100) true) alignedDispute

/-- The disputed pair is merged on request, and by the sweep that merges duplicates; the
combined memory is the one active memory left, and no `contradicts` link touches it. -/
theorem merge_collapses_dispute :
    Collapses alignedConnection undisturbed .nearDuplicate [⟨1⟩, ⟨2⟩] .merge (92 / 100) true
      alignedDispute ∧
    (mergedDispute.2.memories.filter fun m => m.archivedAt = none).map MemoryRow.memoryId = [⟨9⟩] ∧
    (∀ l ∈ mergedDispute.2.links, l.linkType = .contradicts → l.sourceId ≠ ⟨9⟩ ∧ l.targetId ≠ ⟨9⟩) ∧
    ((outcome (runReviewSweep alignedConnection .autoMergeDups ⟨92 / 100, 10, none⟩ ⟨100, 0⟩
      fun _ => undisturbed) alignedDispute).1.toOption.map ReviewOutcome.merged) = some 1 := by
  refine ⟨⟨rfl, ⟨⟨1⟩, ⟨2⟩, rfl, by decide +kernel⟩, ?_⟩, by decide +kernel⟩
  obtain ⟨res, -, hMerged⟩ := completes_of_isOk (show mergedDispute.1.isOk = true by decide +kernel)
  exact ⟨res, _, hMerged⟩

/-- The result at the same store: claimed as a contradiction the pair is not merged, and the
sweep reports the one merge that it makes. -/
theorem merge_spares_disputes_iff_alignedDispute :
    Reachable alignedEnv (fun _ => True) alignedDispute ∧
    ¬ Collapses alignedConnection undisturbed .contradiction [⟨1⟩, ⟨2⟩] .merge (92 / 100) true
      alignedDispute ∧
    ∃ plan, alignedDispute.reviewQueue alignedEnv .global ⟨92 / 100, 10, none⟩ ⟨100, 0⟩ = .ok plan ∧
      ∃ report, (outcome (runReviewSweep alignedConnection .autoMergeDups ⟨92 / 100, 10, none⟩
          ⟨100, 0⟩ fun _ => undisturbed) alignedDispute).1 = .ok report ∧
        report.merged = (sweepVisits alignedConnection .autoMergeDups (92 / 100)
          (plannedItems plan fun _ => undisturbed) alignedDispute).countP
            (Visit.merged alignedConnection (92 / 100)) := by
  obtain ⟨hOne, hSweep⟩ := merge_spares_disputes_iff alignedConnection alignedDispute_reachable
  have hRefused : ¬ Admissible alignedConnection undisturbed .contradiction [⟨1⟩, ⟨2⟩] (92 / 100)
      true alignedDispute := fun hGuards => nomatch hGuards.1
  refine ⟨alignedDispute_reachable, (hOne _ _ _ _ _ _).mpr fun _ _ => hRefused, ?_⟩
  have hPlan : (alignedDispute.reviewQueue alignedEnv .global ⟨92 / 100, 10, none⟩
      ⟨100, 0⟩).isOk = true := by
    decide +kernel
  obtain ⟨plan, hQueue⟩ := except_isOk hPlan
  exact ⟨plan, hQueue, (hSweep .autoMergeDups _ _ (fun _ => undisturbed) plan hQueue).1⟩

end RustyBrain.Daemon
