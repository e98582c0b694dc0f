import RustyBrain.Lib.Transaction

/-!
# Sessions of transactions

A session runs one transaction after the other over a state. Unlike a transaction, a
session that fails keeps what its earlier transactions wrote.

## Results

* `completes_bind`, `completes_call`, `completes_view`, … — how a session completes, part by
  part.
* `Preserves.bind`, `Preserves.call`, … — a session keeps what each of its parts keeps.
* `Reads.bind_atomic`, `Atomic.call_then` — a session with one transaction after its looks is
  all or nothing.
-/

namespace Sessions

open Transaction

variable {σ ε α β : Type}

/-- A session over states `σ` with failures `ε`. -/
abbrev Session (σ ε α : Type) := ExceptT ε (StateM σ) α

variable {x : Session σ ε α} {s s' : σ} {f : α → Session σ ε β} {a : α}

/-- One transaction: it commits, or fails and leaves the state as it was. -/
def call (x : Tx σ ε α) : Session σ ε α := ExceptT.mk fun s => commit x s

/-- A look at the state that may fail. -/
def view (f : σ → Except ε α) : Session σ ε α := ExceptT.mk fun s => (f s, s)

/-- Something outside the session changes the state. -/
def interrupt (f : σ → σ) : Session σ ε Unit := ExceptT.mk fun s => (.ok (), f s)

/-- What a session started in `s` returns, and the state it leaves. -/
def outcome (x : Session σ ε α) (s : σ) : Except ε α × σ := x.run.run s

/-- Run a session and hand its failure over as a value. -/
def attempted (x : Session σ ε α) : Session σ ε (Except ε α) :=
  ExceptT.mk fun s => (.ok (outcome x s).1, (outcome x s).2)

/-- The session started in `s` completes with `a` and leaves `s'`. -/
def Completes (x : Session σ ε α) (s : σ) (a : α) (s' : σ) : Prop := outcome x s = (.ok a, s')

/-- A sequence goes on where its first part completed, and ends where it failed. -/
theorem outcome_bind (x : Session σ ε α) (f : α → Session σ ε β) (s : σ) :
    outcome (x >>= f) s = (match outcome x s with
      | (.ok a, s') => outcome (f a) s'
      | (.error e, s') => (.error e, s')) := by
  unfold outcome
  simp only [ExceptT.run_bind, StateT.run_bind]
  rcases hRun : x.run.run s with ⟨_ | a, s'⟩ <;> rfl

theorem outcome_bind_of_ok (h : outcome x s = (.ok a, s'))
    (f : α → Session σ ε β) : outcome (x >>= f) s = outcome (f a) s' := by
  rw [outcome_bind, h]

/-- After an error nothing else runs. -/
theorem outcome_bind_of_error {e : ε}
    (h : outcome x s = (.error e, s')) (f : α → Session σ ε β) :
    outcome (x >>= f) s = (.error e, s') := by
  rw [outcome_bind, h]

/-- What comes after the last access does not change the state. -/
theorem outcome_bind_pure (x : Session σ ε α) (f : α → β) (s : σ) :
    (outcome (x >>= fun a => pure (f a)) s).2 = (outcome x s).2 := by
  rw [outcome_bind]
  rcases outcome x s with ⟨_ | a, s'⟩ <;> rfl

@[simp]
theorem completes_pure {a b : α} :
    Completes (pure a : Session σ ε α) s b s' ↔ a = b ∧ s = s' := by
  show ((Except.ok a : Except ε α), s) = (.ok b, s') ↔ _
  rw [Prod.mk.injEq, Except.ok.injEq]

theorem completes_bind {s s'' : σ} {b : β} :
    Completes (x >>= f) s b s'' ↔ ∃ a s', Completes x s a s' ∧ Completes (f a) s' b s'' := by
  unfold Completes
  rw [outcome_bind]
  rcases outcome x s with ⟨e | a, s'⟩
  · simp
  · simp

@[simp]
theorem completes_throw {e : ε} :
    ¬ Completes (throw e : Session σ ε α) s a s' := by
  show ¬ ((Except.error e : Except ε α), s) = (.ok a, s')
  simp

/-- A condition that is checked on the way. -/
theorem completes_check {b : Bool} {e : ε} {u : Unit}
    (h : Completes (if b then pure () else throw e : Session σ ε Unit) s u s') : b = true ∧ s = s' := by
  cases b with
  | true => exact ⟨rfl, (completes_pure.mp h).2⟩
  | false => exact absurd h completes_throw

/-- A transaction completes when its body runs. -/
theorem completes_call {x : Tx σ ε α} :
    Completes (call x) s a s' ↔ Runs x s a s' := by
  show commit x s = (.ok a, s') ↔ x.run s = .ok (a, s')
  unfold commit
  rcases x.run s with e | ⟨b, t⟩
  · simp
  · simp

@[simp]
theorem completes_view {f : σ → Except ε α} :
    Completes (view f) s a s' ↔ f s = .ok a ∧ s = s' := by
  show (f s, s) = (.ok a, s') ↔ _
  rw [Prod.mk.injEq]

@[simp]
theorem completes_interrupt {f : σ → σ} {u : Unit} :
    Completes (interrupt f : Session σ ε Unit) s u s' ↔ f s = s' := by
  show ((Except.ok () : Except ε Unit), f s) = (.ok u, s') ↔ _
  simp

/-- Looks one after the other find one state. -/
theorem outcome_mapM_view (g : σ → α → Except ε β) (xs : List α) (s : σ) :
    outcome (xs.mapM fun x => view fun s => g s x) s = (xs.mapM (g s), s) := by
  induction xs with
  | nil => rfl
  | cons x xs ih =>
    rw [List.mapM_cons, List.mapM_cons, outcome_bind]
    show (match (g s x, s) with | (.ok _, _) => _ | (.error _, _) => _) = _
    cases g s x with
    | error e => rfl
    | ok y =>
      show outcome ((xs.mapM fun x => view fun s => g s x) >>= fun ys => pure (y :: ys)) s = _
      rw [outcome_bind, ih]
      cases xs.mapM (g s) <;> rfl

/-- A session that answers `ok` completes with its answer. -/
theorem completes_of_isOk {s : σ} (h : (outcome x s).1.isOk = true) :
    ∃ a, (outcome x s).1 = .ok a ∧ Completes x s a (outcome x s).2 := by
  unfold Completes
  cases hOutcome : outcome x s with
  | mk res s' =>
    rw [hOutcome] at h
    cases res with
    | error e => cases h
    | ok a => exact ⟨a, rfl, rfl⟩

/-! ## Sessions of one transaction -/

/-- The session leaves the state as it is. -/
def Reads (x : Session σ ε α) : Prop := ∀ s, (outcome x s).2 = s

/-- The session leaves the state as it is if it fails. -/
def Atomic (x : Session σ ε α) : Prop := ∀ s e s', outcome x s = (.error e, s') → s' = s

theorem Reads.view (f : σ → Except ε α) : Reads (Sessions.view f) := fun _ => rfl

theorem Reads.pure (a : α) : Reads (Pure.pure a : Session σ ε α) := fun _ => rfl

theorem Reads.throw (e : ε) : Reads (MonadExcept.throw e : Session σ ε α) := fun _ => rfl

theorem Reads.interrupt {f : σ → σ} (h : ∀ s, f s = s) :
    Reads (Sessions.interrupt f : Session σ ε Unit) := h

theorem Reads.atomic (h : Reads x) : Atomic x := by
  intro s e s' hFail
  have hSame := h s
  rw [hFail] at hSame
  exact hSame

/-- Looks leave nothing that would have to be undone. -/
theorem Reads.bind_atomic (hx : Reads x)
    (hf : ∀ a, Atomic (f a)) : Atomic (x >>= f) := by
  intro s e s' hFail
  have hSame := hx s
  rw [outcome_bind] at hFail
  rcases hx' : outcome x s with ⟨e' | a, mid⟩ <;> rw [hx'] at hSame hFail
  · obtain ⟨-, rfl⟩ := Prod.mk.inj hFail
    exact hSame
  · exact (hf a mid e s' hFail).trans hSame

/-- A transaction with nothing after it but its answer. -/
theorem Atomic.call_then (x : Tx σ ε α) (f : α → β) :
    Atomic (Sessions.call x >>= fun a => Pure.pure (f a)) := by
  intro s e s' hFail
  rw [outcome_bind] at hFail
  have hCall : outcome (Sessions.call x) s = commit x s := rfl
  rcases commit_cases x s with ⟨a, mid, -, hEq⟩ | ⟨e', hEq⟩ <;> rw [hCall, hEq] at hFail
  · cases hFail
  · exact (congrArg Prod.snd hFail).symm

/-! ## Invariants -/

section

variable {I : σ → Prop}

/-- The session keeps an invariant, whether it completes or fails. -/
def Preserves (I : σ → Prop) (x : Session σ ε α) : Prop := ∀ s, I s → I (outcome x s).2

theorem Preserves.pure (a : α) : Preserves I (Pure.pure a : Session σ ε α) := fun _ h => h

theorem Preserves.throw (e : ε) : Preserves I (MonadExcept.throw e : Session σ ε α) := fun _ h => h

theorem Reads.preserves (h : Reads x) : Preserves I x := fun s hs => (h s).symm ▸ hs

theorem Preserves.view (f : σ → Except ε α) : Preserves I (Sessions.view f) := fun _ h => h

theorem Preserves.interrupt {f : σ → σ} (h : ∀ s, I s → I (f s)) :
    Preserves I (Sessions.interrupt f : Session σ ε Unit) := h

/-- A failed transaction leaves the state as it was, so only committed ones matter. -/
theorem Preserves.call {x : Tx σ ε α} (h : ∀ s a s', I s → Runs x s a s' → I s') :
    Preserves I (Sessions.call x) := by
  intro s hs
  show I (commit x s).2
  rcases commit_cases x s with ⟨a, s', hRun, hEq⟩ | ⟨e, hEq⟩
  · rw [hEq]
    exact h s a s' hs hRun
  · rw [hEq]
    exact hs

/-- What every answer of the first part allows, the second may meet. -/
theorem Preserves.bind (hx : Preserves I x)
    (hf : ∀ a, Preserves I (f a)) : Preserves I (x >>= f) := by
  intro s hs
  have hFirst := hx s hs
  rw [outcome_bind]
  rcases hx' : outcome x s with ⟨e | a, s'⟩ <;> rw [hx'] at hFirst
  · exact hFirst
  · exact hf a s' hFirst

theorem Preserves.mapM {xs : List α} (h : ∀ x ∈ xs, Preserves I (f x)) :
    Preserves I (xs.mapM f) := by
  induction xs with
  | nil => exact .pure []
  | cons x xs ih =>
    rw [List.mapM_cons]
    refine (h x List.mem_cons_self).bind fun y => ?_
    exact (ih fun z hz => h z (List.mem_cons_of_mem _ hz)).bind fun ys => .pure _

end

end Sessions
