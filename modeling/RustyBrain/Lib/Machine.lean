import Mathlib

/-!
# Runs of a state machine

A machine is a step function on states and events; a run is a list of events. `Along`
says that a condition on the state and the event holds at each step a run takes, and
`states` lists what the run passes through. An invariant that every step under the
condition keeps holds in all of them.
-/

namespace Machine

variable {σ ε : Type*} (step : σ → ε → σ)

/-- The states of a run, the first and the last included. -/
def states : σ → List ε → List σ
  | s, [] => [s]
  | s, e :: es => s :: states (step s e) es

/-- The condition holds at every step of the run. -/
def Along (ok : σ → ε → Prop) : σ → List ε → Prop
  | _, [] => True
  | s, e :: es => ok s e ∧ Along ok (step s e) es

/-- Whether a condition that can be decided at each step holds along a run. -/
instance decidableAlong (ok : σ → ε → Prop) [∀ s e, Decidable (ok s e)] (s : σ) :
    (run : List ε) → Decidable (Along step ok s run)
  | [] => .isTrue trivial
  | e :: run =>
    have := decidableAlong ok (step s e) run
    inferInstanceAs (Decidable (ok s e ∧ Along step ok (step s e) run))

variable {step}

/-- What holds at the start and is kept by every step under the condition holds in every
state of a run that meets the condition. -/
theorem invariant_along {ok : σ → ε → Prop} {I : σ → Prop}
    (hStep : ∀ s e, ok s e → I s → I (step s e)) {s : σ} {es : List ε} (hs : I s)
    (hRun : Along step ok s es) : ∀ t ∈ states step s es, I t := by
  induction es generalizing s with
  | nil =>
    intro t ht
    exact List.mem_singleton.mp ht ▸ hs
  | cons e es ih =>
    obtain ⟨hOk, hRest⟩ := hRun
    intro t ht
    rcases List.mem_cons.mp ht with rfl | ht
    · exact hs
    · exact ih (hStep s e hOk hs) hRest t ht

/-- What holds at the start and is kept by every step holds in every state of a run. -/
theorem invariant_always {I : σ → Prop} (hStep : ∀ s e, I s → I (step s e)) {s : σ} {es : List ε}
    (hs : I s) : ∀ t ∈ states step s es, I t := by
  have hRun : Along step (fun _ _ => True) s es := by
    clear hs
    induction es generalizing s with
    | nil => trivial
    | cons e es ih => exact ⟨trivial, ih⟩
  exact invariant_along (fun s e _ => hStep s e) hs hRun

/-- If a measure falls wherever a run is not at rest, the run is at rest after at most as many
steps as the measure allows. -/
theorem exists_rest (measure : ℕ → ℕ) {rest : ℕ → Prop}
    (h : ∀ k, rest k ∨ measure (k + 1) < measure k) : ∃ k ≤ measure 0, rest k := by
  by_contra hNever
  push Not at hNever
  have hFalls : ∀ k ≤ measure 0 + 1, measure k + k ≤ measure 0 := by
    intro k
    induction k with
    | zero => exact fun _ => Nat.le_refl _
    | succ k ih =>
      intro hk
      have hBefore := ih (by omega)
      rcases h k with hRest | hLess
      · exact absurd hRest (hNever k (by omega))
      · omega
  have hEnd := hFalls (measure 0 + 1) (Nat.le_refl _)
  omega

end Machine
