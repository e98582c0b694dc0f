import RustyBrain.Lib.Interleaving

/-!
# What a session does among others

A session among others cannot keep a property of the shared state by itself: the others may
break it between two accesses. What it can answer for is each of its own writes. A rule about
the writes is followed by a session if it is followed by its parts, whatever the others do
and whether the session completes or fails.

## Results

* `follows_look`, `follows_write`, `Follows.bind`, … — a session follows a rule part by part.
-/

namespace Interleaving

open Transaction Sessions List

variable {σ ω κ ε α β : Type} {apply : ω → σ → σ}

/-! ## Rules about own writes -/

/-- A run from `start` so far: the invariant `J` holds, the trace leads to the state, and every
own write went from one such state to another and kept the rule `G`. -/
structure Conducted (apply : ω → σ → σ) (J : σ → Prop) (G : κ → σ → σ → Prop) (start : σ)
    (w : World σ ω κ) : Prop where
  holds : J w.state
  path : Path apply start w.trace w.state
  own : ∀ key s s', .wrote key s s' ∈ w.trace → J s ∧ J s' ∧ G key s s'

/-- Every write of the session keeps the rule `G`, from any point of any run. -/
def Follows (apply : ω → σ → σ) (J : σ → Prop) (G : κ → σ → σ → Prop)
    (x : Session (World σ ω κ) ε α) : Prop :=
  ∀ start, Preserves (Conducted apply J G start) x

variable {J : σ → Prop} {G : κ → σ → σ → Prop} {start : σ} {w : World σ ω κ}

theorem conducted_start {s : σ} (hs : J s) (schedule : List (List ω)) :
    Conducted apply J G s ⟨s, schedule, []⟩ :=
  ⟨hs, .nil s, nofun⟩

section

variable (hOthers : ∀ o s, J s → J (apply o s))

include hOthers

/-- Steps of others keep a run conducted if they keep its invariant. -/
theorem Conducted.yield (h : Conducted apply J G start w) :
    Conducted apply J G start (w.yield apply) := by
  obtain ⟨es, hOther, hTrace, hPath⟩ := yield_spec apply w
  refine ⟨hPath.others hOther hOthers h.holds, ?_, ?_⟩
  · rw [hTrace]
    exact h.path.append hPath
  · intro key s s' hMem
    rw [hTrace] at hMem
    rcases mem_append.mp hMem with hOld | hNew
    · exact h.own key s s' hOld
    · exact (hOther _ hNew).elim

theorem follows_look (key : κ) (f : σ → Except ε α) :
    Follows apply J G (look apply key f) := by
  intro start w h
  have hYield := h.yield hOthers
  refine ⟨hYield.holds, hYield.path.append (.looked (.nil _)), ?_⟩
  intro key' s s' hMem
  rcases mem_append.mp hMem with hOld | hNew
  · exact hYield.own key' s s' hOld
  · cases mem_singleton.mp hNew

/-- A failed write leaves no trace, so only those that commit matter. -/
theorem follows_write {key : κ} {x : Tx σ ε α}
    (hx : ∀ s a s', J s → Runs x s a s' → J s' ∧ G key s s') :
    Follows apply J G (write apply key x) := by
  intro start w h
  have hYield := h.yield hOthers
  simp only [outcome, write, ExceptT.run, ExceptT.mk, StateT.run]
  cases hRun : x (w.yield apply).state with
  | error e => exact hYield
  | ok r =>
    obtain ⟨a, s⟩ := r
    obtain ⟨hHolds, hRule⟩ := hx _ a s hYield.holds hRun
    refine ⟨hHolds, hYield.path.append (.wrote (.nil _)), ?_⟩
    intro key' t t' hMem
    rcases mem_append.mp hMem with hOld | hNew
    · exact hYield.own key' t t' hOld
    · obtain ⟨rfl, rfl, rfl⟩ := Event.wrote.inj (mem_singleton.mp hNew)
      exact ⟨hYield.holds, hHolds, hRule⟩

end

namespace Follows

theorem pure (a : α) : Follows apply J G (Pure.pure a : Session (World σ ω κ) ε α) :=
  fun _ => .pure a

theorem throw (e : ε) : Follows apply J G (MonadExcept.throw e : Session (World σ ω κ) ε α) :=
  fun _ => .throw e

theorem bind {x : Session (World σ ω κ) ε α} {f : α → Session (World σ ω κ) ε β}
    (hx : Follows apply J G x) (hf : ∀ a, Follows apply J G (f a)) :
    Follows apply J G (x >>= f) :=
  fun start => (hx start).bind fun a => hf a start

theorem attempted {x : Session (World σ ω κ) ε α} (hx : Follows apply J G x) :
    Follows apply J G (Sessions.attempted x) :=
  fun start w h => hx start w h

theorem ite {p : Prop} [Decidable p] {x y : Session (World σ ω κ) ε α}
    (hx : p → Follows apply J G x) (hy : ¬ p → Follows apply J G y) :
    Follows apply J G (if p then x else y) := by
  split
  next hp => exact hx hp
  next hp => exact hy hp

end Follows

/-! ## Counting accesses -/

/-- A session that knows how much of the run has passed: what it draws from outside can be
different each time. -/
def counted (f : Nat → Session (World σ ω κ) ε α) : Session (World σ ω κ) ε α :=
  ExceptT.mk fun w => outcome (f w.trace.length) w

/-- Accesses can be counted. -/
theorem Follows.counted {f : Nat → Session (World σ ω κ) ε α}
    (hf : ∀ i, Follows apply J G (f i)) : Follows apply J G (Interleaving.counted f) :=
  fun start w h => hf w.trace.length start w h

/-! ## Invariants along a path -/

/-- A step of others leaves what it does to the state it met. -/
theorem Path.other_after {s t u u' : σ} {o : ω} {es : List (Event σ ω κ)} (h : Path apply s es t)
    (hMem : .other o u u' ∈ es) : u' = apply o u := by
  induction h with
  | nil s => cases hMem
  | other _ ih =>
    rcases mem_cons.mp hMem with hHead | hTail
    · obtain ⟨rfl, rfl, rfl⟩ := Event.other.inj hHead
      rfl
    · exact ih hTail
  | looked _ ih | wrote _ ih =>
    rcases mem_cons.mp hMem with hHead | hTail
    · cases hHead
    · exact ih hTail

/-- What the steps of others and the own writes of a path keep holds at every event. -/
theorem Path.every {I : σ → Prop} {s t : σ} {es : List (Event σ ω κ)} (h : Path apply s es t)
    (hOther : ∀ o t t', .other o t t' ∈ es → I t → I t')
    (hOwn : ∀ key t t', .wrote key t t' ∈ es → I t → I t') (hs : I s) :
    I t ∧ ∀ e ∈ es, I e.before ∧ I e.after := by
  induction es generalizing s with
  | nil =>
    cases h
    exact ⟨hs, fun e he => nomatch he⟩
  | cons e es ih =>
    obtain ⟨hBefore, hRest⟩ := h.uncons
    have hFirst : I e.before := hBefore ▸ hs
    have hAfter : I e.after := by
      cases e with
      | other o u u' => exact hOther o u u' mem_cons_self hFirst
      | looked key u => exact hFirst
      | wrote key u u' => exact hOwn key u u' mem_cons_self hFirst
    obtain ⟨hLast, hEvery⟩ := ih hRest
      (fun o u u' hMem => hOther o u u' (mem_cons_of_mem _ hMem))
      (fun key u u' hMem => hOwn key u u' (mem_cons_of_mem _ hMem)) hAfter
    refine ⟨hLast, fun e' he' => ?_⟩
    rcases mem_cons.mp he' with rfl | hLater
    · exact ⟨hFirst, hAfter⟩
    · exact hEvery e' hLater

/-- The invariant of a conducted run holds at every event. -/
theorem Conducted.every (hOthers : ∀ o s, J s → J (apply o s)) (h : Conducted apply J G start w)
    (hStart : J start) : ∀ e ∈ w.trace, J e.before ∧ J e.after := by
  refine (h.path.every (fun o t t' hMem ht => ?_) (fun key t t' hMem _ => ?_) hStart).2
  · rw [h.path.other_after hMem]
    exact hOthers o t ht
  · exact (h.own key t t' hMem).2.1

end Interleaving
