import RustyBrain.Lib.Session

/-!
# Sessions among others

A session whose accesses to a shared state alternate with the steps of others. Before each
access the others take the steps that a schedule gives them; a trace records their steps and
the session's own looks and writes, in order, with the states they met.

## Results

* `Path.between` — what no event between a look and a write changes is the same at both.
-/

namespace Interleaving

open Transaction Sessions List

variable {σ ω κ ε α β : Type}

/-- A step of others, or an access of the session under its key. -/
inductive Event (σ ω κ : Type) where
  | other (step : ω) (before after : σ)
  | looked (key : κ) (state : σ)
  | wrote (key : κ) (before after : σ)

/-- The state an event met. -/
def Event.before : Event σ ω κ → σ
  | .other _ s _ => s
  | .looked _ s => s
  | .wrote _ s _ => s

/-- The state an event left. -/
def Event.after : Event σ ω κ → σ
  | .other _ _ s => s
  | .looked _ s => s
  | .wrote _ _ s => s

/-- The event is a step of others. -/
def Event.IsOther : Event σ ω κ → Prop
  | .other _ _ _ => True
  | _ => False

instance : (e : Event σ ω κ) → Decidable e.IsOther
  | .other _ _ _ => .isTrue trivial
  | .looked _ _ => .isFalse id
  | .wrote _ _ _ => .isFalse id

/-- The shared state, what the others do before each coming access, and what happened. -/
structure World (σ ω κ : Type) where
  state : σ
  schedule : List (List ω) := []
  trace : List (Event σ ω κ) := []

section Steps

variable (apply : ω → σ → σ)

/-- The others take one step. -/
def World.step (w : World σ ω κ) (o : ω) : World σ ω κ :=
  { w with
    state := apply o w.state
    trace := w.trace ++ [.other o w.state (apply o w.state)] }

/-- The others take the steps that come before the next access. -/
def World.yield (w : World σ ω κ) : World σ ω κ :=
  match w.schedule with
  | [] => w
  | steps :: rest => steps.foldl (World.step apply) { w with schedule := rest }

/-- A look at the state that may fail. -/
def look (key : κ) (f : σ → Except ε α) : Session (World σ ω κ) ε α :=
  ExceptT.mk fun w =>
    let w := w.yield apply
    (f w.state, { w with trace := w.trace ++ [.looked key w.state] })

/-- A transaction on the state. -/
def write (key : κ) (x : Tx σ ε α) : Session (World σ ω κ) ε α :=
  ExceptT.mk fun w =>
    let w := w.yield apply
    match x.run w.state with
    | .ok (a, s) => (.ok a, { w with state := s, trace := w.trace ++ [.wrote key w.state s] })
    | .error e => (.error e, w)

/-! ## Paths -/

/-- The events lead from one state to the other. -/
inductive Path : σ → List (Event σ ω κ) → σ → Prop where
  | nil (s : σ) : Path s [] s
  | other {o : ω} {s t : σ} {es : List (Event σ ω κ)} :
      Path (apply o s) es t → Path s (.other o s (apply o s) :: es) t
  | looked {key : κ} {s t : σ} {es : List (Event σ ω κ)} :
      Path s es t → Path s (.looked key s :: es) t
  | wrote {key : κ} {s s' t : σ} {es : List (Event σ ω κ)} :
      Path s' es t → Path s (.wrote key s s' :: es) t

variable {apply} {s t : σ} {es fs : List (Event σ ω κ)} {e : Event σ ω κ}

theorem Path.append {m : σ} (h : Path apply s es m) (h' : Path apply m fs t) :
    Path apply s (es ++ fs) t := by
  induction h with
  | nil s => exact h'
  | other _ ih => exact .other (ih h')
  | looked _ ih => exact .looked (ih h')
  | wrote _ ih => exact .wrote (ih h')

/-- A path can be cut anywhere. -/
theorem Path.split (h : Path apply s (es ++ fs) t) :
    ∃ m, Path apply s es m ∧ Path apply m fs t := by
  induction es generalizing s with
  | nil => exact ⟨s, .nil s, h⟩
  | cons e es ih =>
    cases h with
    | other h =>
      obtain ⟨m, hFirst, hRest⟩ := ih h
      exact ⟨m, .other hFirst, hRest⟩
    | looked h =>
      obtain ⟨m, hFirst, hRest⟩ := ih h
      exact ⟨m, .looked hFirst, hRest⟩
    | wrote h =>
      obtain ⟨m, hFirst, hRest⟩ := ih h
      exact ⟨m, .wrote hFirst, hRest⟩

/-- The first event of a path meets its first state, and the rest goes on from what it left. -/
theorem Path.uncons (h : Path apply s (e :: es) t) : e.before = s ∧ Path apply e.after es t := by
  cases h with
  | other h | looked h | wrote h => exact ⟨rfl, h⟩

/-- What no event of a path changes is the same at its ends. -/
theorem Path.keeps {f : σ → β} (h : Path apply s es t) (hKeep : ∀ e ∈ es, f e.after = f e.before) :
    f t = f s := by
  induction es generalizing s with
  | nil =>
    cases h
    rfl
  | cons e es ih =>
    obtain ⟨hBefore, hRest⟩ := h.uncons
    rw [ih hRest fun e' he' => hKeep e' (mem_cons_of_mem _ he'), ← hBefore]
    exact hKeep e mem_cons_self

/-- What no event between two others changes is the same where the first ended and where the
second began. -/
theorem Path.between {f : σ → β} {pre mid post : List (Event σ ω κ)} {e e' : Event σ ω κ}
    (h : Path apply s (pre ++ e :: (mid ++ e' :: post)) t)
    (hKeep : ∀ x ∈ mid, f x.after = f x.before) : f e'.before = f e.after := by
  obtain ⟨m, -, h⟩ := h.split
  obtain ⟨m', hMid, h⟩ := h.uncons.2.split
  rw [h.uncons.1]
  exact hMid.keeps hKeep

/-- What others keep holds after any number of their steps. -/
theorem Path.others {I : σ → Prop} (h : Path apply s es t) (hOther : ∀ e ∈ es, e.IsOther)
    (hKeep : ∀ o s, I s → I (apply o s)) (hs : I s) : I t := by
  induction h with
  | nil s => exact hs
  | other _ ih =>
    exact ih (fun e he => hOther e (mem_cons_of_mem _ he)) (hKeep _ _ hs)
  | looked _ _ | wrote _ _ => exact (hOther _ mem_cons_self).elim

/-! ## Accesses -/

/-- Giving way extends the trace by steps of others. -/
theorem yield_spec (apply : ω → σ → σ) (w : World σ ω κ) :
    ∃ es, (∀ e ∈ es, e.IsOther) ∧ (w.yield apply).trace = w.trace ++ es ∧
      Path apply w.state es (w.yield apply).state := by
  have hSteps : ∀ (steps : List ω) (w : World σ ω κ),
      ∃ es, (∀ e ∈ es, e.IsOther) ∧ (steps.foldl (World.step apply) w).trace = w.trace ++ es ∧
        Path apply w.state es (steps.foldl (World.step apply) w).state := by
    intro steps
    induction steps with
    | nil => exact fun w => ⟨[], by simp, by simp, .nil _⟩
    | cons o rest ih =>
      intro w
      obtain ⟨es, hOther, hTrace, hPath⟩ := ih (w.step apply o)
      refine ⟨.other o w.state (apply o w.state) :: es, ?_, ?_, .other hPath⟩
      · intro e he
        rcases mem_cons.mp he with rfl | he
        · exact trivial
        · exact hOther e he
      · rw [foldl_cons, hTrace, World.step, append_assoc]
        rfl
  unfold World.yield
  split
  · exact ⟨[], by simp, by simp, .nil _⟩
  · exact hSteps _ _

/-- A look that succeeds saw a state that others led to. -/
theorem completes_look {key : κ} {f : σ → Except ε α} {w w' : World σ ω κ} {a : α}
    (h : Completes (look apply key f) w a w') :
    ∃ es, (∀ e ∈ es, e.IsOther) ∧ Path apply w.state es w'.state ∧ f w'.state = .ok a ∧
      w'.trace = w.trace ++ es ++ [.looked key w'.state] := by
  obtain ⟨es, hOther, hTrace, hPath⟩ := yield_spec apply w
  obtain ⟨hValue, rfl⟩ := Prod.mk.inj (h : (f (w.yield apply).state, _) = (.ok a, w'))
  exact ⟨es, hOther, hPath, hValue, by simp [hTrace]⟩

/-- A write that succeeds began in a state that others led to. -/
theorem completes_write {key : κ} {x : Tx σ ε α} {w w' : World σ ω κ} {a : α}
    (h : Completes (write apply key x) w a w') :
    ∃ es s, (∀ e ∈ es, e.IsOther) ∧ Path apply w.state es s ∧ Runs x s a w'.state ∧
      w'.trace = w.trace ++ es ++ [.wrote key s w'.state] := by
  obtain ⟨es, hOther, hTrace, hPath⟩ := yield_spec apply w
  have h' : (match x.run (w.yield apply).state with
      | .ok (a, s) => ((.ok a : Except ε α), { w.yield apply with
          state := s
          trace := (w.yield apply).trace ++ [.wrote key (w.yield apply).state s] })
      | .error e => (.error e, w.yield apply)) = (.ok a, w') := h
  cases hRun : x.run (w.yield apply).state with
  | error e =>
    rw [hRun] at h'
    cases h'
  | ok r =>
    obtain ⟨b, s⟩ := r
    rw [hRun] at h'
    obtain ⟨hb, rfl⟩ := Prod.mk.inj h'
    cases hb
    exact ⟨es, _, hOther, hPath, hRun, by simp [hTrace]⟩

end Steps

end Interleaving
