import RustyBrain.Lib.Interleaving
import RustyBrain.Daemon.Resolve
import RustyBrain.Store.Oplog

/-!
# rusty-brain — resolutions among other clients

`apply_review_action` again, now with the operations of other clients before each of its
reads and writes. It reads the members first, one after the other, and works with what it
read: a merge composes the combined memory from it, and a bump or a demotion adds its step to
the confidence it read and stores the sum. The writes check that the members are still there
and still current. They do not check that they are still what was read.

## Results

* `sound_applyReviewActionAmong` — a resolution that succeeds has written what it was asked
  for, and each of its writes acted on what it found, unless another client came in between.
-/

namespace RustyBrain.Daemon

open Store Engine Transaction Sessions Interleaving List

variable {xs ys : List (Event Db Op Access)} {out : List MemberConfidence} {key : Access}
  {clock : DateTime} {step : ℚ} {threshold : ℚ} {ids : List MemoryId} {u : Unit} {α : Type}
  {explicit : Bool} {action : ReviewAction} {engine : MemoryEngine} {notes : List MemoryNote}
  {reason : ReviewReason} {id : MemoryId} {res : ReviewResolution} {a : α}

/-- A resolution among other clients. -/
abbrev AmongM (α : Type) := Session (World Db Op Access) Error α

section Resolution

variable (c : Connection)

/-- The store among other clients, who come before each read and each command to the writer. -/
def among : Channel (World Db Op Access) where
  read key f := look (fun op db => Op.run c.env op db) key f
  write key x := write (fun op db => Op.run c.env op db) key x

/-- `apply_review_action`, among other clients. -/
abbrev applyReviewActionAmong (d : Drawn) (reason : ReviewReason) (ids : List MemoryId)
    (action : ReviewAction) (threshold : ℚ) (explicit : Bool) : AmongM ReviewResolution :=
  applyReviewActionOver (among c) c d reason ids action threshold explicit

end Resolution

/-! ## What the writes do to a member -/

/-- The confidence of a memory. -/
def confidenceOf (db : Db) (id : MemoryId) : Option ℚ := (db.find id).map MemoryRow.confidence

section Writes

variable {now : Int} {ns : Namespace} {id : MemoryId} {q : ℚ} {db db' : Db}

theorem confidenceOf_appended (db : Db) (op : OplogOp) (id : MemoryId) (now : Int)
    (details : OplogDetails) : confidenceOf (db.appended op id now details) = confidenceOf db := by
  unfold Db.appended
  split <;> rfl

/-- A new confidence for the rows that `p` selects. -/
theorem confidenceOf_set (db : Db) (q : ℚ) {p : MemoryRow → Prop} [DecidablePred p]
    {f : MemoryRow → MemoryRow} (hId : ∀ r, (f r).memoryId = r.memoryId) (hSet : ∀ r, (f r).confidence = q)
    (hOnly : ∀ r, p r → r.memoryId = id) (hAll : ∀ r ∈ db.memories, r.memoryId = id → p r)
    (other : MemoryId) :
    confidenceOf (db.setMemories p f) other =
      if other = id then (confidenceOf db other).map fun _ => q else confidenceOf db other := by
  unfold confidenceOf
  rw [Db.find_setMemories db (fun r _ _ => hId r) other]
  cases hFind : db.find other with
  | none => split <;> rfl
  | some r =>
    obtain ⟨hr, rfl⟩ := Db.find_some hFind
    by_cases hOther : r.memoryId = id
    · simp [hOther, hAll r hr hOther, hSet]
    · simp [hOther, show ¬ p r from fun hp => hOther (hOnly r hp)]

/-- An update of the confidence sets it, and leaves every other memory's. -/
theorem updateMemory_confidence (h : Runs (updateMemory now id { confidence := some q }) db u db')
    (other : MemoryId) :
    confidenceOf db' other =
      if other = id then (confidenceOf db other).map fun _ => q else confidenceOf db other := by
  have hSet := confidenceOf_set db q (p := fun m => m.memoryId = id)
    (f := MemoryUpdates.applyTo { confidence := some q } now) (fun _ => rfl) (fun _ => rfl)
    (fun _ h => h) (fun _ _ h => h) other
  rw [← hSet]
  rcases updateMemory_runs h with ⟨hEmpty | hNone, rfl⟩ | rfl
  · cases hEmpty
  · rw [Db.setMemories_of_none hNone]
  · rw [confidenceOf_appended]

/-- A maintenance write of the confidence that changed something set it. -/
theorem setConfidence_confidence (hIds : db.ids.Nodup)
    (h : Runs (setConfidence now ns id q) db true db') (other : MemoryId) :
    confidenceOf db' other =
      if other = id then (confidenceOf db other).map fun _ => q else confidenceOf db other := by
  obtain ⟨_, _, hValid, h⟩ := runs_bind.mp h
  obtain ⟨-, rfl⟩ := runs_attempt.mp hValid
  rcases setUncurated_runs h with ⟨-, ⟨r, hr, hId, hNs, hUncurated⟩, rfl⟩ | ⟨hNot, -⟩
  · -- the row that was changed is the only one of this id
    have hOne : ∀ s ∈ db.memories, s.memoryId = id →
        s.memoryId = id ∧ s.ns = ns.asDbString ∧ s.humanCurated = false := by
      intro s hs hsId
      have hEq : s = r := by
        have hs' := Db.find_of_mem hIds hs
        rw [hsId, ← hId, Db.find_of_mem hIds hr] at hs'
        exact (Option.some.inj hs').symm
      rw [hEq]
      exact ⟨hId, hNs, hUncurated⟩
    rw [confidenceOf_appended]
    exact confidenceOf_set db q (f := fun m => { m with confidence := q }) (fun _ => rfl)
      (fun _ => rfl) (fun _ h => h.1) hOne other
  · cases hNot

end Writes

/-- Taking one memory for another leaves the rows of all others. -/
theorem find_retired {db : Db} {old new other : MemoryId} (now : Int) (hne : other ≠ old) :
    (db.retired old new now).find other = db.find other := by
  rw [Db.find_retired]
  cases hFind : db.find other with
  | none => rfl
  | some r =>
    obtain ⟨-, rfl⟩ := Db.find_some hFind
    rw [Option.map_some, if_neg fun h => hne h.1]

/-- A merge stores the combined memory as it was handed over. -/
theorem reviewMerge_find {env : Env} {ns : Namespace} {a b : MemoryId} {minSimilarity : ℚ}
    {n : MemoryNote} {e : Option Embedding} {details : Text} {allow : Bool} {now : DateTime}
    {db db' : Db} (h : Runs (reviewMerge env ns a b minSimilarity n e details allow now) db u db') :
    db'.find n.id = some (noteRow n) := by
  obtain ⟨-, ⟨-, hneA, hneB⟩, -⟩ := reviewMerge_runs h
  obtain ⟨d, d', hBody, hState, hLog⟩ := reviewMerge_leaves h
  have hFind : d.find n.id = some (noteRow n) :=
    Db.find_added (insertMemoryTxBody_adds hBody).new (insertMemoryTxBody_adds hBody).memories
  obtain rfl := runs_modify.mp hState
  obtain rfl := runs_insertOplogRow.mp hLog
  -- neither the copied links nor the two originals nor the records touch that row
  exact (find_retired _ hneB).trans ((find_retired _ hneA).trans hFind)

/-! ## Acting on the current state -/

/-- What a merge takes over from a member. -/
structure Parts where
  content : Text
  context : Text
  importance : Nat
  confidence : ℚ
  keywords : List Text
  tags : List Text
  relatedFiles : List Text
  anchors : List MemoryAnchor

/-- The parts of a note. -/
def parts (n : MemoryNote) : Parts where
  content := n.content
  context := n.context
  importance := n.importance
  confidence := n.confidence
  keywords := n.keywords
  tags := n.tags
  relatedFiles := n.relatedFiles
  anchors := n.anchors

/-- The parts of a stored memory. -/
def partsOf (db : Db) (id : MemoryId) : Result (Option Parts) :=
  (db.getMemory id).map (Option.map parts)

/-- A write of a resolution acts on what it finds. The combined memory of a merge is stored
with the parts that come from both members as they are when the merge begins, and a step of
the confidence goes from the confidence that is there when the step is made. -/
def ActsOnCurrent (c : Connection) (d : Drawn) : Event Db Op Access → Prop
  | .wrote (.merged a b note) t t' =>
    t'.find note.id = some (noteRow note) ∧
      ∃ na nb, t.getMemory a = .ok (some na) ∧ t.getMemory b = .ok (some nb) ∧
        parts note = parts (c.engine.noteFor d.freshId d.composedAt (mergeInput c.provenance na nb))
  | .wrote (.nudged id step) t t' =>
    ∃ q, confidenceOf t id = some q ∧
      confidenceOf t' id = some (clampUnit (f32Round (q + step)))
  | _ => True

/-- A step of another client leaves what the write under this key uses of a member. -/
def Access.Leaves (key : Access) (id : MemoryId) (t t' : Db) : Prop :=
  match key with
  | .merged a b _ => id = a ∨ id = b → partsOf t' id = partsOf t id
  | .nudged id' _ => id = id' → confidenceOf t' id = confidenceOf t id
  | _ => True

/-- Between the read of a member and a write that uses it, no other client changes what it
uses. -/
def Undisturbed (trace : List (Event Db Op Access)) : Prop :=
  ∀ pre id s mid key t t' post,
    trace = pre ++ .looked (.member id) s :: (mid ++ .wrote key t t' :: post) →
      ∀ op u u', .other op u u' ∈ mid → key.Leaves id u u'

/-- A resolution that succeeded has written what its action asks for. -/
def Effective (action : ReviewAction) (ids : List MemoryId) (trace : List (Event Db Op Access)) :
    Prop :=
  match action with
  | .merge => ∃ a b note t t', ids = [a, b] ∧ .wrote (.merged a b note) t t' ∈ trace
  | .keep true => ∀ id ∈ ids, ∃ t t', .wrote (.nudged id reviewKeepBump) t t' ∈ trace
  | .demote id => ∃ t t', .wrote (.nudged id (-reviewDemoteStep)) t t' ∈ trace
  | _ => True

/-- A longer trace has the writes of the shorter one. -/
theorem Effective.mono (h : Effective action ids xs)
    (hMore : ∀ e ∈ xs, e ∈ ys) : Effective action ids ys := by
  unfold Effective at h ⊢
  split
  · obtain ⟨a, b, note, t, t', hIds, hEvent⟩ := h
    exact ⟨a, b, note, t, t', hIds, hMore _ hEvent⟩
  · intro id hid
    obtain ⟨t, t', hEvent⟩ := h id hid
    exact ⟨t, t', hMore _ hEvent⟩
  · obtain ⟨t, t', hEvent⟩ := h
    exact ⟨t, t', hMore _ hEvent⟩
  · exact trivial

theorem Undisturbed.of_append (h : Undisturbed (xs ++ ys)) :
    Undisturbed xs := by
  intro pre id s mid key t t' post hEq
  refine h pre id s mid key t t' (post ++ ys) ?_
  rw [hEq]
  simp

section Sound

variable {c : Connection} {d : Drawn} {start : Db} {w w' : World Db Op Access}
  {es : List (Event Db Op Access)} {n : MemoryNote}

/-- A run so far: the store is well-formed, the trace leads to it, and every write acted on
what it found unless other clients came in between. -/
structure Sound (c : Connection) (d : Drawn) (start : Db) (w : World Db Op Access) : Prop where
  wf : w.state.Wf
  path : Path (fun op db => Op.run c.env op db) start w.trace w.state
  acts : Undisturbed w.trace → ∀ e ∈ w.trace, ActsOnCurrent c d e

/-- None of these events is a write of the resolution. -/
def NoWrites (es : List (Event Db Op Access)) : Prop := ∀ key t t', .wrote key t t' ∉ es

theorem noWrites_of_others (h : ∀ e ∈ es, e.IsOther) : NoWrites es :=
  fun _ _ _ hMem => h _ hMem

theorem NoWrites.append {fs : List (Event Db Op Access)} (hes : NoWrites es) (hfs : NoWrites fs) :
    NoWrites (es ++ fs) := by
  intro key t t' hMem
  rcases mem_append.mp hMem with hMem | hMem
  · exact hes key t t' hMem
  · exact hfs key t t' hMem

/-- Other clients and looks say nothing about acting on the current state. -/
theorem acts_of_noWrites (h : NoWrites es) {e : Event Db Op Access} (he : e ∈ es) :
    ActsOnCurrent c d e := by
  cases e with
  | other op t t' => exact trivial
  | looked key t => exact trivial
  | wrote key t t' => exact absurd he (h key t t')

/-- A read keeps a run sound. -/
theorem sound_readAs {f : Db → Result α} (hSound : Sound c d start w)
    (h : Completes ((among c).read key f) w a w') :
    Sound c d start w' ∧ f w'.state = .ok a ∧
      ∃ es, NoWrites (es ++ [.looked key w'.state]) ∧
        w'.trace = w.trace ++ (es ++ [.looked key w'.state]) := by
  have hLook : Completes (look (fun op db => Op.run c.env op db) key f) w a w' := h
  obtain ⟨es, hOthers, hPath, hValue, hTrace⟩ := completes_look hLook
  rw [append_assoc] at hTrace
  have hWf : w'.state.Wf := hPath.others hOthers (fun _ _ hs => Op.run_wf hs) hSound.wf
  have hQuiet : NoWrites (es ++ [.looked key w'.state]) :=
    (noWrites_of_others hOthers).append (by simp [NoWrites])
  refine ⟨⟨hWf, ?_, ?_⟩, hValue, es, hQuiet, hTrace⟩
  · rw [hTrace]
    exact hSound.path.append (hPath.append (.looked (.nil _)))
  · intro hUndisturbed e he
    rw [hTrace] at hUndisturbed he
    rcases mem_append.mp he with hOld | hNew
    · exact hSound.acts hUndisturbed.of_append e hOld
    · exact acts_of_noWrites hQuiet hNew

variable {x : StoreM α}

/-- A write keeps a run sound if it keeps the store well-formed and acts on what it finds. -/
theorem sound_writeAs (hSound : Sound c d start w)
    (h : Completes ((among c).write key x) w a w') (hWf : ∀ s s', s.Wf → Runs x s a s' → s'.Wf)
    (hActs : ∀ es s, NoWrites es → s.Wf → Runs x s a w'.state →
      w'.trace = w.trace ++ es ++ [.wrote key s w'.state] →
      Path (fun op db => Op.run c.env op db) start w'.trace w'.state → Undisturbed w'.trace →
      ActsOnCurrent c d (.wrote key s w'.state)) :
    Sound c d start w' ∧ ∃ es s, NoWrites es ∧ s.Wf ∧ Runs x s a w'.state ∧
      w'.trace = w.trace ++ es ++ [.wrote key s w'.state] := by
  have hWrite : Completes (write (fun op db => Op.run c.env op db) key x) w a w' := h
  obtain ⟨es, s, hOthers, hPath, hRun, hTrace⟩ := completes_write hWrite
  have hMid : s.Wf := hPath.others hOthers (fun _ _ hs => Op.run_wf hs) hSound.wf
  have hQuiet := noWrites_of_others hOthers
  have hWhole : Path (fun op db => Op.run c.env op db) start w'.trace w'.state := by
    rw [hTrace, append_assoc]
    exact hSound.path.append (hPath.append (.wrote (.nil _)))
  refine ⟨⟨hWf s w'.state hMid hRun, hWhole, ?_⟩, es, s, hQuiet, hMid, hRun, hTrace⟩
  intro hUndisturbed e he
  have hBefore : Undisturbed w.trace := by
    rw [hTrace, append_assoc] at hUndisturbed
    exact hUndisturbed.of_append
  rw [hTrace, append_assoc] at he
  rcases mem_append.mp he with hOld | hNew
  · exact hSound.acts hBefore e hOld
  · rcases mem_concat.mp hNew with hOther | rfl
    · exact acts_of_noWrites hQuiet hOther
    · exact hActs es s hQuiet hMid hRun hTrace hWhole hUndisturbed

theorem member_confidence {db : Db} (h : member engine db id = .ok n) :
    confidenceOf db id = some n.confidence := by
  rcases Db.getMemory_ok (member_ok.mp h).1 with ⟨hNone, -⟩ | ⟨r, note, hSome, hFind, -, hDecodes⟩
  · cases hNone
  · cases hSome
    rw [confidenceOf, hFind, hDecodes.confidence]
    rfl

/-- The member was read, and the resolution itself has not changed its confidence since. -/
def WasRead (c : Connection) (n : MemoryNote) (w : World Db Op Access) : Prop :=
  ∃ pre s mid, w.trace = pre ++ .looked (.member n.id) s :: mid ∧ member c.engine s n.id = .ok n ∧
    ∀ key t t', .wrote key t t' ∈ mid → confidenceOf t' n.id = confidenceOf t n.id

theorem WasRead.append (h : WasRead c n w) (hTrace : w'.trace = w.trace ++ es)
    (hOwn : ∀ key t t', .wrote key t t' ∈ es → confidenceOf t' n.id = confidenceOf t n.id) :
    WasRead c n w' := by
  obtain ⟨pre, s, mid, hEq, hMember, hMid⟩ := h
  refine ⟨pre, s, mid ++ es, ?_, hMember, ?_⟩
  · rw [hTrace, hEq]
    simp
  · intro key t t' hMem
    rcases mem_append.mp hMem with hMem | hMem
    · exact hMid key t t' hMem
    · exact hOwn key t t' hMem

/-- A step of the confidence of a member that was read finds the confidence that was read,
unless other clients came in between. -/
theorem nudged_current {t t' : Db} (hRead : WasRead c n w) (hQuiet : NoWrites es)
    (hTrace : w'.trace = w.trace ++ es ++ [.wrote (.nudged n.id step) t t'])
    (hPath : Path (fun op db => Op.run c.env op db) start w'.trace w'.state)
    (hUndisturbed : Undisturbed w'.trace) : confidenceOf t n.id = some n.confidence := by
  obtain ⟨pre, s, mid, hEq, hMember, hMid⟩ := hRead
  have hShape : w'.trace = pre ++ .looked (.member n.id) s ::
      ((mid ++ es) ++ .wrote (.nudged n.id step) t t' :: []) := by
    rw [hTrace, hEq]
    simp
  rw [← member_confidence hMember]
  rw [hShape] at hPath
  refine hPath.between (f := fun db => confidenceOf db n.id) fun x hx => ?_
  cases x with
  | looked key u => rfl
  | other op u u' => exact hUndisturbed _ _ _ _ _ _ _ _ hShape op u u' hx rfl
  | wrote key u u' =>
    rcases mem_append.mp hx with hx | hx
    · exact hMid key u u' hx
    · exact absurd hx (hQuiet key u u')

/-- What a step of a member that was read leaves: a sound run, with the step in its trace, and
the confidence of all other memories as the step found it. -/
def Steps (c : Connection) (d : Drawn) (start : Db) (n : MemoryNote) (step : ℚ)
    (w w' : World Db Op Access) : Prop :=
  Sound c d start w' ∧ (∃ t t', .wrote (.nudged n.id step) t t' ∈ w'.trace) ∧
    ∃ es, w'.trace = w.trace ++ es ∧ ∀ key t t', .wrote key t t' ∈ es →
      ∀ id, id ≠ n.id → confidenceOf t' id = confidenceOf t id

/-- A write that sets the confidence of a member to the step from what was read. -/
theorem steps_writeAs (hSound : Sound c d start w)
    (hRead : WasRead c n w) (h : Completes ((among c).write (.nudged n.id step) x) w a w')
    (hWf : ∀ s s', s.Wf → Runs x s a s' → s'.Wf)
    (hSet : ∀ s s', s.Wf → Runs x s a s' → ∀ id, confidenceOf s' id =
      if id = n.id then (confidenceOf s id).map fun _ => stepped n step else confidenceOf s id) :
    Steps c d start n step w w' := by
  obtain ⟨hSound', es, s, hQuiet, hMid, hRun, hTrace⟩ := sound_writeAs hSound h hWf (by
    intro es s hQuiet hMid hRun hTrace hPath hUndisturbed
    have hNow := nudged_current hRead hQuiet hTrace hPath hUndisturbed
    refine ⟨n.confidence, hNow, ?_⟩
    rw [hSet s w'.state hMid hRun n.id, if_pos rfl, hNow]
    rfl)
  refine ⟨hSound', ⟨s, w'.state, ?_⟩, es ++ [.wrote (.nudged n.id step) s w'.state], ?_, ?_⟩
  · rw [hTrace]
    simp
  · rw [hTrace, append_assoc]
  · intro key t t' hMem id hne
    rcases mem_append.mp hMem with hMem | hMem
    · exact absurd hMem (hQuiet key t t')
    · obtain ⟨-, rfl, rfl⟩ := Event.wrote.inj (mem_singleton.mp hMem)
      rw [hSet t w'.state hMid hRun id, if_neg hne]

/-- A member is bumped or demoted, by a person or by a policy. -/
theorem steps_nudge (hSound : Sound c d start w) (hRead : WasRead c n w)
    (h : Completes (nudge (among c) c d explicit n step) w u w') : Steps c d start n step w w' := by
  unfold nudge at h
  cases explicit with
  | true =>
    simp only [if_true, engineUpdate, Option.isSome_none, Bool.false_eq_true, if_false,
      completes_bind, lift, completes_view] at h
    obtain ⟨_, _, ⟨-, rfl⟩, _, _, ⟨-, rfl⟩, _, w₁, hLook, hWrite⟩ := h
    obtain ⟨hSound₁, -, es₁, hQuiet, hTrace₁⟩ := sound_readAs hSound hLook
    have hRead₁ : WasRead c n w₁ := hRead.append hTrace₁ fun key t t' hMem => absurd hMem (hQuiet key t t')
    obtain ⟨hDone, hEvent, es, hTrace, hOthers⟩ := steps_writeAs hSound₁ hRead₁ hWrite
      (fun s s' hWf hRun =>
        Op.wf_of_runs c.env (.updateMemory _ n.id _) (runs_afterCheck hRun) hWf)
      (fun s s' _ hRun id => updateMemory_confidence (runs_afterCheck hRun) id)
    refine ⟨hDone, hEvent, (es₁ ++ [.looked (.scoped n.id) w₁.state]) ++ es, ?_, ?_⟩
    · rw [hTrace, hTrace₁]
      simp
    · intro key t t' hMem id hne
      rcases mem_append.mp hMem with hMem | hMem
      · exact absurd hMem (hQuiet key t t')
      · exact hOthers key t t' hMem id hne
  | false =>
    simp only [Bool.false_eq_true, if_false, completes_bind] at h
    obtain ⟨changed, w₁, hWrite, hRest⟩ := h
    -- a write that changed nothing is refused as stale
    obtain ⟨rfl, rfl⟩ := completes_check hRest
    refine steps_writeAs hSound hRead hWrite ?_ ?_
    · intro s s' hWf hRun
      exact Op.wf_of_runs c.env (.setConfidence _ c.engine.ns n.id _)
        (runs_discard.mpr ⟨_, runs_afterCheck hRun⟩) hWf
    · intro s s' hWf hRun id
      exact setConfidence_confidence hWf.ids (runs_afterCheck hRun) id

/-- All members are bumped, one after the other. The induction is on the members: the ones
still to come keep the confidence they were read with. -/
theorem sound_bumps (hSound : Sound c d start w)
    (hRead : ∀ n ∈ notes, WasRead c n w) (hDistinct : (notes.map MemoryNote.id).Nodup)
    (h : Completes (notes.mapM fun n => do
      nudge (among c) c d true n reviewKeepBump
      pure (⟨n.id, stepped n reviewKeepBump⟩ : MemberConfidence)) w out w') :
    Sound c d start w' ∧ (∃ es, w'.trace = w.trace ++ es) ∧
      ∀ n ∈ notes, ∃ t t', .wrote (.nudged n.id reviewKeepBump) t t' ∈ w'.trace := by
  induction notes generalizing w out with
  | nil =>
    obtain ⟨-, rfl⟩ := completes_pure.mp h
    exact ⟨hSound, ⟨[], by simp⟩, fun n hn => nomatch hn⟩
  | cons m rest ih =>
    rw [mapM_cons] at h
    simp only [completes_bind, completes_pure] at h
    obtain ⟨_, _, ⟨_, w₁, hNudge, -, rfl⟩, _, w₂, hRest, -, rfl⟩ := h
    obtain ⟨hSound₁, ⟨t, t', hEvent⟩, es, hTrace, hOthers⟩ :=
      steps_nudge hSound (hRead m mem_cons_self) hNudge
    rw [map_cons, nodup_cons] at hDistinct
    have hStill : ∀ n ∈ rest, WasRead c n w₁ := by
      intro n hn
      have hne : n.id ≠ m.id := fun hEq => hDistinct.1 (hEq ▸ mem_map_of_mem hn)
      exact (hRead n (mem_cons_of_mem _ hn)).append hTrace fun key u u' hMem =>
        hOthers key u u' hMem n.id hne
    obtain ⟨hSound₂, ⟨fs, hTrace₂⟩, hEvents⟩ := ih hSound₁ hStill hDistinct.2 hRest
    refine ⟨hSound₂, ⟨es ++ fs, by rw [hTrace₂, hTrace, append_assoc]⟩, ?_⟩
    intro n hn
    rcases mem_cons.mp hn with rfl | hn
    · refine ⟨t, t', ?_⟩
      rw [hTrace₂]
      exact mem_append_left _ hEvent
    · exact hEvents n hn

/-- The members are read one after the other. The induction is on their ids. -/
theorem sound_reads (hSound : Sound c d start w)
    (h : Completes (memberNotes (among c) c ids) w notes w') :
    Sound c d start w' ∧ notes.map MemoryNote.id = ids ∧ (∀ n ∈ notes, WasRead c n w') ∧
      ∃ es, NoWrites es ∧ w'.trace = w.trace ++ es := by
  induction ids generalizing w notes with
  | nil =>
    obtain ⟨rfl, rfl⟩ := completes_pure.mp h
    exact ⟨hSound, rfl, (fun n hn => nomatch hn), [], (fun _ _ _ h => nomatch h), by simp⟩
  | cons id rest ih =>
    rw [memberNotes, mapM_cons] at h
    simp only [completes_bind, completes_pure] at h
    obtain ⟨n, w₁, hLook, ns, w₂, hRest, rfl, rfl⟩ := h
    obtain ⟨hSound₁, hMember, es, hQuiet, hTrace⟩ := sound_readAs hSound hLook
    obtain ⟨hSound₂, hIds, hReads, fs, hQuiet₂, hTrace₂⟩ := ih hSound₁ hRest
    have hId : n.id = id := member_id hMember
    refine ⟨hSound₂, by rw [map_cons, hIds, hId], ?_,
      (es ++ [.looked (.member id) w₁.state]) ++ fs, hQuiet.append hQuiet₂, ?_⟩
    · intro m hm
      rcases mem_cons.mp hm with rfl | hm
      · refine WasRead.append (w := w₁) ⟨w.trace ++ es, w₁.state, [], ?_, ?_, ?_⟩ hTrace₂ ?_
        · rw [hTrace, hId]
          simp
        · rw [hId]
          exact hMember
        · exact fun _ _ _ h => nomatch h
        · exact fun key t t' hMem => absurd hMem (hQuiet₂ key t t')
      · exact hReads m hm
    · rw [hTrace₂, hTrace]
      simp

/-- The fields of a composed note that come from these parts of the input do not depend on
anything else of it. -/
theorem parts_noteFor {i j : RememberInput}
    (hContent : i.content = j.content) (hContext : i.context = j.context)
    (hImportance : i.importance = j.importance) (hConfidence : i.confidence = j.confidence)
    (hKeywords : i.keywords = j.keywords) (hTags : i.tags = j.tags)
    (hFiles : i.relatedFiles = j.relatedFiles) (hAnchors : i.anchors = j.anchors) :
    parts (engine.noteFor id clock i) = parts (engine.noteFor id clock j) := by
  simp only [parts, MemoryEngine.noteFor, MemoryNote.new, MemoryEngine.keywordsFor, confidenceFor,
    hContent, hContext, hImportance, hConfidence, hKeywords, hTags, hFiles, hAnchors]

/-- A merge of members with the same parts combines to the same parts. -/
theorem parts_mergeInput {provenance : Provenance}
    {a a' b b' : MemoryNote} (hA : parts a = parts a') (hB : parts b = parts b') :
    parts (engine.noteFor id clock (mergeInput provenance a b)) =
      parts (engine.noteFor id clock (mergeInput provenance a' b')) := by
  obtain ⟨ha₁, ha₂, ha₃, ha₄, ha₅, ha₆, ha₇, ha₈⟩ := Parts.mk.inj hA
  obtain ⟨hb₁, hb₂, hb₃, hb₄, hb₅, hb₆, hb₇, hb₈⟩ := Parts.mk.inj hB
  refine parts_noteFor ?_ ?_ ?_ ?_ ?_ ?_ ?_ ?_ <;>
    simp only [mergeInput, ha₁, ha₂, ha₃, ha₄, ha₅, ha₆, ha₇, ha₈, hb₁, hb₂, hb₃, hb₄, hb₅, hb₆, hb₇,
      hb₈]

/-- A member that was read is there with the parts it was read with when the merge begins,
unless other clients came in between. -/
theorem merged_current {a b : MemoryId} {note : MemoryNote} {t t' : Db} (hRead : WasRead c n w)
    (hNone : NoWrites w.trace) (hQuiet : NoWrites es) (hMember : n.id = a ∨ n.id = b)
    (hTrace : w'.trace = w.trace ++ es ++ [.wrote (.merged a b note) t t'])
    (hPath : Path (fun op db => Op.run c.env op db) start w'.trace w'.state)
    (hUndisturbed : Undisturbed w'.trace) :
    ∃ m, t.getMemory n.id = .ok (some m) ∧ parts m = parts n := by
  obtain ⟨pre, s, mid, hEq, hMember', -⟩ := hRead
  have hShape : w'.trace = pre ++ .looked (.member n.id) s ::
      ((mid ++ es) ++ .wrote (.merged a b note) t t' :: []) := by
    rw [hTrace, hEq]
    simp
  rw [hShape] at hPath
  have hSame : partsOf t n.id = partsOf s n.id := by
    refine hPath.between (f := fun db => partsOf db n.id) fun x hx => ?_
    cases x with
    | looked key u => rfl
    | other op u u' => exact hUndisturbed _ _ _ _ _ _ _ _ hShape op u u' hx hMember
    | wrote key u u' =>
      rcases mem_append.mp hx with hx | hx
      · refine absurd ?_ (hNone key u u')
        rw [hEq]
        exact mem_append_right _ (mem_cons_of_mem _ hx)
      · exact absurd hx (hQuiet key u u')
  have hFound : partsOf t n.id = .ok (some (parts n)) := by
    rw [hSame, partsOf, (member_ok.mp hMember').1]
    rfl
  unfold partsOf at hFound
  cases hGet : t.getMemory n.id with
  | error e =>
    rw [hGet] at hFound
    cases hFound
  | ok found =>
    rw [hGet] at hFound
    cases found with
    | none => cases hFound
    | some m =>
      refine ⟨m, rfl, ?_⟩
      have hParts : some (parts m) = some (parts n) := Except.ok.inj hFound
      exact Option.some.inj hParts

section

variable (hSound : Sound c d start w)

include hSound

/-- A merge of two members that were read. -/
theorem sound_applyMerge {a b : MemoryNote} {key : String} (hA : WasRead c a w) (hB : WasRead c b w)
    (hNone : NoWrites w.trace)
    (h : Completes (applyMerge (among c) c d key ids threshold explicit a b) w res w') :
    Sound c d start w' ∧ ∃ note t t', .wrote (.merged a.id b.id note) t t' ∈ w'.trace := by
  unfold applyMerge at h
  split at h
  · exact absurd h completes_throw
  · simp only [completes_bind, lift, completes_view, completes_pure] at h
    obtain ⟨⟨note, e⟩, _, ⟨hComposed, rfl⟩, _, w₁, hWrite, -, rfl⟩ := h
    obtain ⟨hNote, -⟩ := composeNote_ok hComposed
    obtain ⟨hDone, es, s, -, -, -, hTrace⟩ := sound_writeAs hSound hWrite
      (fun s s' hWf hRun => Op.wf_of_runs c.env
        (.reviewMerge c.engine.ns a.id b.id threshold note e _ explicit _) hRun hWf) (by
      intro es s hQuiet hMid hRun hTrace hPath hUndisturbed
      refine ⟨reviewMerge_find hRun, ?_⟩
      obtain ⟨na, hGetA, hPartsA⟩ :=
        merged_current hA hNone hQuiet (.inl rfl) hTrace hPath hUndisturbed
      obtain ⟨nb, hGetB, hPartsB⟩ :=
        merged_current hB hNone hQuiet (.inr rfl) hTrace hPath hUndisturbed
      refine ⟨na, nb, hGetA, hGetB, ?_⟩
      rw [hNote]
      exact parts_mergeInput hPartsA.symm hPartsB.symm)
    refine ⟨hDone, note, s, w₁.state, ?_⟩
    rw [hTrace]
    simp

/-- A write that is neither a merge nor a step keeps a run sound. -/
theorem sound_plainWrite
    (h : Completes ((among c).write key x) w a w') (hWf : ∀ s s', s.Wf → Runs x s a s' → s'.Wf)
    (hPlain : ∀ t t', ActsOnCurrent c d (.wrote key t t')) :
    Sound c d start w' ∧ ∀ e ∈ w.trace, e ∈ w'.trace := by
  obtain ⟨hDone, es, s, -, -, -, hTrace⟩ :=
    sound_writeAs hSound h hWf fun _ s _ _ _ _ _ _ => hPlain s _
  refine ⟨hDone, fun e he => ?_⟩
  rw [hTrace, append_assoc]
  exact mem_append_left _ he

/-- An archive of a member. -/
theorem sound_retire (h : Completes (retire (among c) c d explicit id) w u w') :
    Sound c d start w' := by
  unfold retire at h
  cases explicit with
  | true =>
    simp only [if_true, engineDelete, completes_bind] at h
    obtain ⟨_, w₁, hLook, hWrite⟩ := h
    refine (sound_plainWrite (sound_readAs hSound hLook).1 hWrite ?_ fun _ _ => trivial).1
    exact fun s s' hWf hRun => Op.wf_of_runs c.env (.archiveMemory _ id) (runs_afterCheck hRun) hWf
  | false =>
    simp only [Bool.false_eq_true, if_false, completes_bind] at h
    obtain ⟨archived, w₁, hWrite, hRest⟩ := h
    obtain ⟨-, rfl⟩ := completes_check hRest
    refine (sound_plainWrite hSound hWrite ?_ fun _ _ => trivial).1
    exact fun s s' hWf hRun => Op.wf_of_runs c.env (.archiveUnattended _ c.engine.ns id)
      (runs_discard.mpr ⟨_, hRun⟩) hWf

/-- The actions that are no merge and no snooze. -/
theorem sound_applyPlain (hRead : ∀ n ∈ notes, WasRead c n w)
    (hIds : notes.map MemoryNote.id = ids) (hValid : action.validate reason ids = .ok ())
    (hPlain : action ≠ .merge) (hDistinct : action = .keep true → ids.Nodup)
    (h : Completes (applyPlain (among c) c d explicit notes action) w out w') :
    Sound c d start w' ∧ Effective action ids w'.trace := by
  cases action with
  | keep bump =>
    cases bump with
    | false =>
      obtain ⟨-, rfl⟩ := completes_pure.mp h
      exact ⟨hSound, trivial⟩
    | true =>
      obtain ⟨hDone, -, hEvents⟩ := sound_bumps hSound hRead (hIds ▸ hDistinct rfl) h
      refine ⟨hDone, fun id hid => ?_⟩
      rw [← hIds] at hid
      obtain ⟨n, hn, rfl⟩ := mem_map.mp hid
      exact hEvents n hn
  | merge => exact absurd rfl hPlain
  | archive id =>
    simp only [applyPlain, completes_bind, completes_pure] at h
    obtain ⟨_, _, hRetire, -, rfl⟩ := h
    exact ⟨sound_retire hSound hRetire, trivial⟩
  | demote id =>
    simp only [applyPlain] at h
    cases hFind : notes.find? fun n => n.id = id with
    | none =>
      -- the target is a member, so it was read
      have hMember : id ∈ ids := by
        by_contra hNot
        simp only [ReviewAction.validate, ReviewAction.validateTarget, hNot, if_false] at hValid
        split at hValid <;> cases hValid
      rw [← hIds] at hMember
      obtain ⟨n, hn, rfl⟩ := mem_map.mp hMember
      exact absurd (decide_eq_true rfl) (find?_eq_none.mp hFind n hn)
    | some n =>
      rw [hFind] at h
      simp only [completes_bind, completes_pure] at h
      obtain ⟨_, _, hNudge, -, rfl⟩ := h
      obtain ⟨hDone, hEvent, -⟩ :=
        steps_nudge hSound (hRead n (mem_of_find?_eq_some hFind)) hNudge
      have hId : n.id = id := by simpa using find?_some hFind
      rw [hId] at hEvent
      exact ⟨hDone, hEvent⟩
  | snooze days =>
    obtain ⟨-, rfl⟩ := completes_pure.mp h
    exact ⟨hSound, trivial⟩

/-- The check of a contradiction only looks. -/
theorem sound_checkContradiction (hNone : NoWrites w.trace)
    (h : Completes (checkContradiction (among c) c reason ids) w u w') :
    Sound c d start w' ∧ NoWrites w'.trace := by
  unfold checkContradiction at h
  split at h
  · simp only [completes_bind] at h
    obtain ⟨still, w₁, hLook, hRest⟩ := h
    obtain ⟨-, rfl⟩ := completes_check hRest
    obtain ⟨hSound₁, -, es, hQuiet, hTrace⟩ := sound_readAs hSound hLook
    exact ⟨hSound₁, hTrace ▸ hNone.append hQuiet⟩
  · obtain ⟨-, rfl⟩ := completes_pure.mp h
    exact ⟨hSound, hNone⟩

/-- **Key lemma:** a resolution that succeeds is sound, and has written what it was asked for. -/
theorem sound_applyReviewActionAmong (hNone : NoWrites w.trace)
    (hDistinct : action = .keep true → ids.Nodup)
    (h : Completes (applyReviewActionAmong c d reason ids action threshold explicit) w res w') :
    Sound c d start w' ∧ Effective action ids w'.trace := by
  simp only [applyReviewActionOver, completes_bind, lift, completes_view] at h
  obtain ⟨⟨⟩, _, ⟨hValid, rfl⟩, _, w₁, hCheck, notes, w₂, hReads, _, _, hPause, h⟩ := h
  obtain ⟨-, rfl⟩ := completes_pure.mp hPause
  obtain ⟨hSound₁, hNone₁⟩ := sound_checkContradiction hSound hNone hCheck
  obtain ⟨hSound₂, hIds, hRead, es, hQuiet, hTrace⟩ := sound_reads hSound₁ hReads
  have hNone₂ : NoWrites w₂.trace := hTrace ▸ hNone₁.append hQuiet
  split at h
  · next a b others =>
    -- only a pair may be merged
    obtain ⟨-, x, y, hPair, -⟩ := validate_merge_iff.mp hValid
    obtain ⟨hDone, note, t, t', hEvent⟩ := sound_applyMerge hSound₂ (hRead a mem_cons_self)
      (hRead b (mem_cons_of_mem _ mem_cons_self)) hNone₂ h
    rw [hPair, map_cons, map_cons] at hIds
    obtain ⟨rfl, hTail⟩ := List.cons.inj hIds
    obtain ⟨rfl, -⟩ := List.cons.inj hTail
    exact ⟨hDone, a.id, b.id, note, t, t', hPair, hEvent⟩
  · simp only [completes_bind, completes_pure] at h
    obtain ⟨expires, _, hWrite, -, rfl⟩ := h
    refine ⟨(sound_plainWrite hSound₂ hWrite ?_ fun _ _ => trivial).1, trivial⟩
    exact fun s s' hWf hRun => Op.wf_of_runs c.env (.snoozeReviewItem c.engine.ns _ _ _ _)
      (runs_discard.mpr ⟨_, hRun⟩) hWf
  · next hNotSnooze hNotMerge =>
    simp only [completes_bind, completes_pure] at h
    obtain ⟨out, w₃, hPlain, _, w₄, hRecord, -, rfl⟩ := h
    have hNoMerge : action ≠ .merge := by
      rintro rfl
      obtain ⟨-, x, y, hPair, -⟩ := validate_merge_iff.mp hValid
      rw [hPair] at hIds
      rcases notes with _ | ⟨a, _ | ⟨b, rest⟩⟩
      · cases hIds
      · cases hIds
      · exact hNotMerge a b rest rfl rfl
    obtain ⟨hSound₃, hEffective⟩ :=
      sound_applyPlain hSound₂ hRead hIds hValid hNoMerge hDistinct hPlain
    obtain ⟨hDone, hStill⟩ := sound_plainWrite hSound₃ hRecord
      (fun s s' hWf hRun => Op.wf_of_runs c.env (.recordReviewResolution c.engine.ns _ _ _) hRun hWf)
      fun _ _ => trivial
    exact ⟨hDone, hEffective.mono hStill⟩

end

end Sound

/-- **A resolution acts on the current state of its members** in every run in which the members
are distinct, if they are bumped, and no other client changes what a write uses of a member
between the read of the member and the write. -/
theorem resolution_acts_on_current (c : Connection) (d : Drawn) {A : Op → Prop} {db : Db}
    (hReach : Reachable c.env A db) {reason : ReviewReason} {ids : List MemoryId}
    {action : ReviewAction} {threshold : ℚ} {explicit : Bool} {schedule : List (List Op)}
    {res : ReviewResolution} {w : World Db Op Access}
    (h : Completes (applyReviewActionAmong c d reason ids action threshold explicit)
      ⟨db, schedule, []⟩ res w)
    (hDistinct : action = .keep true → ids.Nodup) (hUndisturbed : Undisturbed w.trace) :
    Effective action ids w.trace ∧ ∀ e ∈ w.trace, ActsOnCurrent c d e := by
  have hStart : Sound c d db ⟨db, schedule, []⟩ :=
    ⟨hReach.wf, .nil db, fun _ _ he => nomatch he⟩
  obtain ⟨hSound, hEffective⟩ :=
    sound_applyReviewActionAmong hStart (fun _ _ _ h => nomatch h) hDistinct h
  exact ⟨hEffective, hSound.acts hUndisturbed⟩

/-! ## A step that is lost -/

/-- The steps of the confidence in a trace: whose, by how much, from what and to what. -/
def stepsIn (trace : List (Event Db Op Access)) :
    List (MemoryId × ℚ × Option ℚ × Option ℚ) :=
  trace.filterMap fun e =>
    match e with
    | .wrote (.nudged id step) t t' => some (id, step, confidenceOf t id, confidenceOf t' id)
    | _ => none

/-- One memory with full confidence. -/
def trustedStore : Db :=
  storeAfter alignedEnv 2
    [.insertMemory 0 (.plain 1) (some [1, 0])]

/-- The clock stands still. -/
def still : Drawn := ⟨⟨9⟩, ⟨100, 0⟩, fun _ => ⟨100, 0⟩⟩

/-- A demotion of that memory while other clients do what the schedule says. -/
def demotion (schedule : List (List Op)) : Except Error ReviewResolution × World Db Op Access :=
  outcome (applyReviewActionAmong alignedConnection still .lowConfidence [⟨1⟩] (.demote ⟨1⟩)
    (92 / 100) true) ⟨trustedStore, schedule, []⟩

/-- Someone finds the memory wrong after it was read and before it is demoted. -/
def foundWrong : List (List Op) := [[], [.recordFeedback 50 ⟨1⟩ .wrong none]]

theorem trustedStore_reachable : Reachable alignedEnv (fun _ => True) trustedStore :=
  storeAfter_reachable fun _ _ => trivial

theorem demotion_completes {schedule : List (List Op)} (h : (demotion schedule).1.isOk = true) :
    ∃ res, Completes (applyReviewActionAmong alignedConnection still .lowConfidence [⟨1⟩]
      (.demote ⟨1⟩) (92 / 100) true) ⟨trustedStore, schedule, []⟩ res (demotion schedule).2 := by
  unfold demotion at h ⊢
  obtain ⟨res, -, hDone⟩ := completes_of_isOk h
  exact ⟨res, hDone⟩

/-- The demotion finds a confidence of 0.7 and leaves 0.85: what was found wrong is lost. -/
theorem demotion_loses_feedback :
    ¬ ∀ (c : Connection) (d : Drawn) (db : Db) (reason : ReviewReason) (ids : List MemoryId)
      (action : ReviewAction) (threshold : ℚ) (explicit : Bool) (schedule : List (List Op))
      (res : ReviewResolution) (w : World Db Op Access),
      Reachable c.env (fun _ => True) db →
      Completes (applyReviewActionAmong c d reason ids action threshold explicit)
        ⟨db, schedule, []⟩ res w →
      ∀ e ∈ w.trace, ActsOnCurrent c d e := by
  intro h
  have hOk : (demotion foundWrong).1.isOk = true := by decide +kernel
  have hSteps : (⟨1⟩, -reviewDemoteStep, some (11744051 / 2 ^ 24), some (7130317 / 2 ^ 23)) ∈
      stepsIn (demotion foundWrong).2.trace := by decide +kernel
  obtain ⟨res, hDone⟩ := demotion_completes hOk
  generalize (demotion foundWrong).2 = w at hDone hSteps
  have hActs : ∀ e ∈ w.trace, ActsOnCurrent alignedConnection still e :=
    h alignedConnection still trustedStore .lowConfidence [⟨1⟩] (.demote ⟨1⟩) (92 / 100) true
      foundWrong res w trustedStore_reachable hDone
  obtain ⟨e, he, hStep⟩ := mem_filterMap.mp hSteps
  have hCurrent := hActs e he
  split at hStep
  · next id step t t' =>
    simp only [Option.some.injEq, Prod.mk.injEq] at hStep
    obtain ⟨-, rfl, hBefore, hAfter⟩ := hStep
    obtain ⟨q, hq, hq'⟩ := hCurrent
    rw [hBefore] at hq
    rw [hAfter, ← Option.some.inj hq] at hq'
    exact absurd (Option.some.inj hq') (by decide +kernel)
  · cases hStep

/-- Someone reads the memory meanwhile, which leaves its confidence. -/
def onlyRead : List (List Op) := [[], [.recordAccesses 50 [⟨1⟩]]]

/-- No step of another client in the trace changes the confidence of the memory, and the
memory is the only one whose confidence is stepped. -/
def leavesConfidence : Event Db Op Access → Bool
  | .other _ t t' => confidenceOf t' ⟨1⟩ = confidenceOf t ⟨1⟩
  | .wrote (.nudged id _) _ _ => id = ⟨1⟩
  | .wrote (.merged _ _ _) _ _ => false
  | _ => true

/-- The result at a demotion during which others only read: it goes from 1 to 0.85. -/
theorem resolution_acts_on_current_read :
    stepsIn (demotion onlyRead).2.trace =
        [(⟨1⟩, -reviewDemoteStep, some 1, some (7130317 / 2 ^ 23))] ∧
      (demotion onlyRead).2.trace.countP (fun e => e matches .other _ _ _) = 1 ∧
      ∀ e ∈ (demotion onlyRead).2.trace, ActsOnCurrent alignedConnection still e := by
  refine ⟨by decide +kernel, by decide +kernel, ?_⟩
  have hOk : (demotion onlyRead).1.isOk = true := by decide +kernel
  have hLeaves : ∀ e ∈ (demotion onlyRead).2.trace, leavesConfidence e = true := by decide +kernel
  obtain ⟨res, hDone⟩ := demotion_completes hOk
  generalize (demotion onlyRead).2 = w at hDone hLeaves ⊢
  refine (resolution_acts_on_current alignedConnection still trustedStore_reachable hDone
    nofun ?_).2
  intro pre id s mid key t t' post hTrace op u u' hOther
  have hIn : ∀ e ∈ .wrote key t t' :: mid, leavesConfidence e = true := by
    intro e he
    refine hLeaves e ?_
    rw [hTrace]
    rcases mem_cons.mp he with rfl | he <;> simp [*]
  have hStep := hIn _ (mem_cons_of_mem _ hOther)
  have hKey := hIn _ mem_cons_self
  cases key with
  | nudged id' step =>
    intro hId
    rw [hId, of_decide_eq_true hKey]
    exact of_decide_eq_true hStep
  | merged a b note => cases hKey
  | _ => exact trivial

end RustyBrain.Daemon
