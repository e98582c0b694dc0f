import Mathlib

/-!
# Transactions over a state

A transaction body reads and writes a state `σ` and may fail with an error `ε`:
it is a value of `StateT σ (Except ε)`. A body that fails leaves nothing behind,
so the committed state is the final state of a body that succeeded, and the
state before it otherwise.

## Results

* `runs_bind`, `runs_pure`, `runs_throw`, … — inversion of a successful body into
  the successful runs of its parts; proofs about a body never unfold the monad.
* `Within.bind`, `Within.forM`, … — a body stays within a preorder on states when
  each of its parts does.
-/

namespace Transaction

open List

variable {c : Prop} {u : PUnit} {σ ε α β : Type}

/-- A transaction body over the state `σ` that may fail with an `ε`. -/
abbrev Tx (σ ε α : Type) := StateT σ (Except ε) α

variable {x : Tx σ ε α} {s s' : σ} {f : α → Except ε β} {xs : List α} {a : α}

/-- The body `x`, begun in `s`, returns `a` and leaves `s'`. -/
def Runs (x : Tx σ ε α) (s : σ) (a : α) (s' : σ) : Prop :=
  x.run s = .ok (a, s')

/-- Run a body as one transaction: its effect is kept when it succeeds and
rolled back when it fails. -/
def commit (x : Tx σ ε α) (s : σ) : Except ε α × σ :=
  match x.run s with
  | .ok (a, s') => (.ok a, s')
  | .error e => (.error e, s)

/-- Run a body as a transaction of its own and go on with its outcome. -/
def nested (x : Tx σ ε α) : Tx σ ε (Except ε α) := fun s => .ok (commit x s)

/-- Go on only when `c` holds. -/
def require (c : Prop) [Decidable c] (e : ε) : Tx σ ε Unit :=
  if c then pure () else throw e

/-- A computation that may fail and does not touch the state. -/
def attempt : Except ε α → Tx σ ε α
  | .ok a => pure a
  | .error e => throw e

/-! ## Inversion of successful bodies -/

theorem except_isOk {x : Except ε α} (h : x.isOk = true) : ∃ a, x = .ok a := by
  cases x with
  | error e => cases h
  | ok a => exact ⟨a, rfl⟩

theorem except_toOption_map {x : Except ε α} {f : α → β} {b : β}
    (h : x.toOption.map f = some b) : ∃ a, x = .ok a ∧ f a = b := by
  cases x with
  | error e => cases h
  | ok a => exact ⟨a, rfl, Option.some.inj h⟩

/-- A computation that succeeds is a first part that succeeds and a rest that does. -/
theorem except_bind_ok {x : Except ε α} {b : β} :
    (x >>= f) = .ok b ↔ ∃ a, x = .ok a ∧ f a = .ok b := by
  cases x <;> simp [bind, Except.bind]

/-- What a check that passed was about. -/
theorem except_check [Decidable c] {e : ε}
    (h : (if c then .ok () else .error e : Except ε Unit) = .ok ()) : c := by
  by_contra hNot
  rw [if_neg hNot] at h
  cases h

/-- A traversal succeeds with the results of its elements, in their order. -/
theorem except_mapM_ok {ys : List β} :
    xs.mapM f = .ok ys ↔ List.Forall₂ (fun x y => f x = .ok y) xs ys := by
  induction xs generalizing ys with
  | nil =>
    rw [mapM_nil, forall₂_nil_left_iff]
    exact ⟨fun h => (Except.ok.inj h).symm, fun h => h ▸ rfl⟩
  | cons x xs ih =>
    rw [mapM_cons, except_bind_ok, forall₂_cons_left_iff]
    refine exists_congr fun y => ?_
    rw [except_bind_ok]
    constructor
    · rintro ⟨hy, ys', hys, hEq⟩
      exact ⟨ys', hy, ih.mp hys, (Except.ok.inj hEq).symm⟩
    · rintro ⟨ys', hy, hys, rfl⟩
      exact ⟨hy, ys', ih.mpr hys, rfl⟩

/-- A row of a table that got one more row. -/
theorem mem_concat {x y : α} {rows : List α} : x ∈ rows ++ [y] ↔ x ∈ rows ∨ x = y := by
  rw [mem_append, mem_singleton]

/-- The results of a traversal that succeeds. -/
theorem except_mapM_mem {ys : List β}
    (h : xs.mapM f = .ok ys) {y : β} : y ∈ ys ↔ ∃ x ∈ xs, f x = .ok y := by
  have hEach := except_mapM_ok.mp h
  clear h
  induction hEach with
  | nil => simp
  | cons hHead _ ih => simp [hHead, ih, eq_comm]

/-- Every element of a traversal that succeeds has succeeded. -/
theorem except_mapM_each {ys : List β}
    (h : xs.mapM f = .ok ys) {x : α} (hx : x ∈ xs) : ∃ y, f x = .ok y := by
  have hEach := except_mapM_ok.mp h
  clear h
  induction hEach with
  | nil => cases hx
  | cons hHead _ ih =>
    rcases mem_cons.mp hx with rfl | hTail
    · exact ⟨_, hHead⟩
    · exact ih hTail

/-- A traversal whose elements all succeed succeeds. -/
theorem except_mapM_exists (h : ∀ x ∈ xs, ∃ y, f x = .ok y) :
    ∃ ys, xs.mapM f = .ok ys := by
  induction xs with
  | nil => exact ⟨[], rfl⟩
  | cons x xs ih =>
    obtain ⟨y, hy⟩ := h x mem_cons_self
    obtain ⟨ys, hys⟩ := ih fun z hz => h z (mem_cons_of_mem _ hz)
    exact ⟨y :: ys, except_mapM_ok.mpr (.cons hy (except_mapM_ok.mp hys))⟩

/-- Every check of a loop that succeeds has succeeded. -/
theorem except_forM_each {f : α → Except ε Unit} {u : Unit}
    (h : xs.forM f = .ok u) {x : α} (hx : x ∈ xs) : f x = .ok () := by
  induction xs with
  | nil => cases hx
  | cons y ys ih =>
    obtain ⟨⟨⟩, hHead, hTail⟩ := except_bind_ok.mp h
    rcases mem_cons.mp hx with rfl | hRest
    · exact hHead
    · exact ih hTail hRest

/-- A fold that succeeds keeps what each of its steps keeps. -/
theorem except_foldlM_keeps {f : σ → α → Except ε σ} {P : σ → Prop}
    (hf : ∀ x ∈ xs, ∀ {s s'}, P s → f s x = .ok s' → P s') (hs : P s)
    (h : xs.foldlM f s = .ok s') : P s' := by
  induction xs generalizing s with
  | nil =>
    cases h
    exact hs
  | cons x rest ih =>
    rw [foldlM_cons, except_bind_ok] at h
    obtain ⟨mid, hFirst, hRest⟩ := h
    exact ih (fun y hy => hf y (mem_cons_of_mem _ hy)) (hf x mem_cons_self hs hFirst) hRest

@[simp]
theorem runs_pure {a b : α} :
    Runs (pure a : Tx σ ε α) s b s' ↔ a = b ∧ s = s' := by
  rw [Runs, StateT.run_pure]
  simp [pure, Except.pure]

variable {f : α → Tx σ ε β}

@[simp]
theorem runs_bind {s s'' : σ} {b : β} :
    Runs (x >>= f) s b s'' ↔ ∃ a s', Runs x s a s' ∧ Runs (f a) s' b s'' := by
  unfold Runs
  rw [StateT.run_bind]
  cases hx : x.run s with
  | error e => simp [bind, Except.bind]
  | ok r =>
    obtain ⟨a, s'⟩ := r
    constructor
    · intro hf
      exact ⟨a, s', rfl, hf⟩
    · rintro ⟨a', t, hEq, hf⟩
      simp only [Except.ok.injEq, Prod.mk.injEq] at hEq
      obtain ⟨rfl, rfl⟩ := hEq
      exact hf

@[simp]
theorem runs_map {f : α → β} {b : β} :
    Runs (f <$> x) s b s' ↔ ∃ a, Runs x s a s' ∧ f a = b := by
  rw [← bind_pure_comp, runs_bind]
  constructor
  · rintro ⟨a, t, hx, hp⟩
    obtain ⟨rfl, rfl⟩ := runs_pure.mp hp
    exact ⟨a, hx, rfl⟩
  · rintro ⟨a, hx, rfl⟩
    exact ⟨a, s', hx, runs_pure.mpr ⟨rfl, rfl⟩⟩

@[simp]
theorem runs_discard :
    Runs (discard x) s u s' ↔ ∃ a, Runs x s a s' := by
  have hMap : (discard x : Tx σ ε PUnit) = (fun _ => PUnit.unit) <$> x := rfl
  rw [hMap, runs_map]
  simp

@[simp]
theorem runs_throw {e : ε} :
    ¬ Runs (throw e : Tx σ ε α) s a s' := by
  intro h
  cases h

@[simp]
theorem runs_get {s t s' : σ} :
    Runs (get : Tx σ ε σ) s t s' ↔ s = t ∧ s = s' := by
  simp [Runs, pure, Except.pure]

@[simp]
theorem runs_set {s t s' : σ} :
    Runs (set t : Tx σ ε PUnit) s u s' ↔ t = s' := by
  simp [Runs, pure, Except.pure]

@[simp]
theorem runs_modify {f : σ → σ} :
    Runs (modify f : Tx σ ε PUnit) s u s' ↔ f s = s' := by
  simp [Runs, pure, Except.pure]

/-- A body that picks one of two branches runs the branch it picked. -/
theorem runs_ite [Decidable c] {x y : Tx σ ε α} :
    Runs (if c then x else y) s a s' ↔ (c ∧ Runs x s a s') ∨ (¬ c ∧ Runs y s a s') := by
  by_cases hc : c <;> simp [hc]

@[simp]
theorem runs_require [Decidable c] {e : ε} {u : Unit} :
    Runs (require c e : Tx σ ε Unit) s u s' ↔ c ∧ s = s' := by
  rw [require, runs_ite]
  simp

@[simp]
theorem runs_attempt {x : Except ε α} :
    Runs (attempt x : Tx σ ε α) s a s' ↔ x = .ok a ∧ s = s' := by
  cases x with
  | ok b => simp [attempt]
  | error e => simp [attempt]

@[simp]
theorem runs_nested {r : Except ε α} :
    Runs (nested x) s r s' ↔ commit x s = (r, s') := by
  simp [Runs, nested, StateT.run]

/-! ## Staying within a relation -/

/-- Every successful run of `x` relates the state before it to the state after
it by `R`. -/
def Within (R : σ → σ → Prop) (x : Tx σ ε α) : Prop :=
  ∀ s a s', Runs x s a s' → R s s'

section Rules

variable {R : σ → σ → Prop} [IsPreorder σ R]

theorem Within.pure (a : α) : Within R (Pure.pure a : Tx σ ε α) := by
  intro s b s' h
  obtain ⟨-, rfl⟩ := runs_pure.mp h
  exact refl s

/-- A body that only reads. -/
theorem Within.of_read (hx : ∀ {s a s'}, Runs x s a s' → s' = s) : Within R x := by
  intro s a s' h
  rw [hx h]
  exact refl_of R s

theorem Within.get : Within R (MonadState.get : Tx σ ε σ) := by
  intro s t s' h
  obtain ⟨-, rfl⟩ := runs_get.mp h
  exact refl s

theorem Within.bind (hx : Within R x)
    (hf : ∀ a, Within R (f a)) : Within R (x >>= f) := by
  intro s b s'' h
  obtain ⟨a, s', hRun, hRest⟩ := runs_bind.mp h
  exact trans_of R (hx s a s' hRun) (hf a s' b s'' hRest)

/-- A computation that does not touch the state stays within every preorder. -/
theorem Within.attempt (x : Except ε α) : Within R (Transaction.attempt x : Tx σ ε α) := by
  intro s a s' h
  obtain ⟨-, rfl⟩ := runs_attempt.mp h
  exact refl s

omit [IsPreorder σ R] in
theorem Within.discard (hx : Within R x) : Within R (Functor.discard x) := by
  intro s u s' h
  obtain ⟨a, hRun⟩ := runs_discard.mp h
  exact hx s a s' hRun

theorem Within.require (c : Prop) [Decidable c] (e : ε) :
    Within R (Transaction.require c e : Tx σ ε Unit) := by
  intro s u s' h
  obtain ⟨-, rfl⟩ := runs_require.mp h
  exact refl s

omit [IsPreorder σ R] in
theorem Within.ite [Decidable c] {y : Tx σ ε α} (hx : Within R x) (hy : Within R y) :
    Within R (if c then x else y) := by
  split
  exacts [hx, hy]

/-- A loop stays within `R` when its body does, for every element. -/
theorem Within.forM {xs : List β} {f : β → Tx σ ε PUnit} (hf : ∀ x ∈ xs, Within R (f x)) :
    Within R (xs.forM f) := by
  induction xs with
  | nil => exact Within.pure _
  | cons x xs ih =>
    refine Within.bind (hf x mem_cons_self) fun _ => ih fun y hy => ?_
    exact hf y (mem_cons_of_mem _ hy)

/-! ## Computations that must succeed -/

/-- The computation succeeds from `s`, and what it returns and leaves satisfies `Q`. -/
def Ensures (x : Tx σ ε α) (s : σ) (Q : α → σ → Prop) : Prop :=
  ∃ a s', Runs x s a s' ∧ Q a s'

theorem Ensures.of_runs {Q : α → σ → Prop}
    (h : Runs x s a s') (hQ : Q a s') : Ensures x s Q := ⟨a, s', h, hQ⟩

/-- A sequence succeeds when its second part does wherever the first can leave it. -/
theorem Ensures.bind {s : σ} {Q : α → σ → Prop}
    {T : β → σ → Prop} (hx : Ensures x s Q) (hf : ∀ a s', Q a s' → Ensures (f a) s' T) :
    Ensures (x >>= f) s T := by
  obtain ⟨a, mid, hRun, hQ⟩ := hx
  obtain ⟨b, s', hRest, hT⟩ := hf a mid hQ
  exact ⟨b, s', runs_bind.mpr ⟨a, mid, hRun, hRest⟩, hT⟩

/-- A loop succeeds when its body keeps an invariant and succeeds under it. -/
theorem Ensures.forM {xs : List β} {f : β → Tx σ ε PUnit} {I : σ → Prop}
    (hf : ∀ x ∈ xs, ∀ s, I s → Ensures (f x) s fun _ => I) {s : σ} (hs : I s) :
    Ensures (xs.forM f) s fun _ => I := by
  induction xs generalizing s with
  | nil => exact .of_runs (runs_pure.mpr ⟨rfl, rfl⟩) hs
  | cons x xs ih =>
    refine (hf x mem_cons_self s hs).bind fun _ s' hs' => ?_
    exact ih (fun y hy => hf y (mem_cons_of_mem _ hy)) hs'

/-! ## Commit -/

/-- An operation that runs to its end commits where it ended. -/
theorem Runs.commit_eq (h : Runs x s a s') :
    commit x s = (.ok a, s') := by
  unfold Runs at h
  unfold commit
  rw [h]

/-- A committed operation ran to its end, or left the state as it was. -/
theorem commit_cases (x : Tx σ ε α) (s : σ) :
    (∃ a s', Runs x s a s' ∧ commit x s = (.ok a, s')) ∨ ∃ e, commit x s = (.error e, s) := by
  unfold commit Runs
  cases hRun : x.run s with
  | error e => exact .inr ⟨e, rfl⟩
  | ok r => exact .inl ⟨r.1, r.2, rfl, rfl⟩

/-- An operation that answers `ok` ran to the state it committed. -/
theorem runs_of_isOk {s : σ} (h : (commit x s).1.isOk = true) :
    ∃ a, Runs x s a (commit x s).2 := by
  rcases commit_cases x s with ⟨a, s', hRun, hEq⟩ | ⟨e, hEq⟩
  · rw [hEq]
    exact ⟨a, hRun⟩
  · rw [hEq] at h
    cases h

/-- The committed state stays within `R`, whether the body succeeds or not. -/
theorem commit_within (hx : Within R x) (s : σ) : R s (commit x s).2 := by
  rcases commit_cases x s with ⟨a, s', hRun, hEq⟩ | ⟨e, hEq⟩
  · rw [hEq]
    exact hx s a s' hRun
  · rw [hEq]
    exact refl s

/-- A body run as a transaction of its own stays within what it stays within. -/
theorem Within.nested (hx : Within R x) : Within R (Transaction.nested x) := by
  intro s r s' h
  have hState : (commit x s).2 = s' := congrArg Prod.snd (runs_nested.mp h)
  rw [← hState]
  exact commit_within hx s

end Rules

/-- An invariant that one step keeps is kept by a run of steps. -/
theorem invariant_of_steps {W : σ → σ → Prop} {I : σ → Prop}
    (hStep : ∀ s s', W s s' → I s → I s')
    (hRun : Relation.ReflTransGen W s s') (hs : I s) : I s' := by
  induction hRun with
  | refl => exact hs
  | tail _ hLast ih => exact hStep _ _ hLast ih

end Transaction
