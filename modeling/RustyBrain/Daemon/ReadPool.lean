import RustyBrain.Lib.RelyGuarantee

/-!
# rusty-brain — the read pool

`with_read` takes a permit, spawns a blocking task that pops a connection, runs the closure on
it and lets the guard push it back, and gives the permit up last. The moves here are the points
between which other tasks run: the two awaits, the two critical sections of the pool and the
two drops. Whatever way the closure ends, the guard is dropped before the permit.

What a caller holds and what the pool holds add up: a move passes permits and connections on.
The queue metrics are left out.
-/

namespace RustyBrain.Daemon.ReadPool

open RelyGuarantee

/-- `ReadPool`: the free permits of the semaphore, and the connections, by number. -/
structure Pool where
  permits : Nat
  stores : List Nat

/-- How a closure ends. -/
inductive Ending where
  | returned
  | failed
  | panicked

/-- Where a call of `with_read` is. -/
inductive Phase where
  /-- At `acquire_owned().await`. -/
  | waiting
  /-- The task has the permit and no connection yet. -/
  | spawned
  | reading (store : Nat)
  /-- The guard is dropped and the permit is not; `none` if the pool was exhausted. -/
  | returning (ending : Option Ending)
  | ended

/-- What happens to a call. -/
inductive Turn where
  | acquire
  | cancel
  | pop
  | finish (ending : Ending)
  | release

/-- One turn. A turn that the call is not at does nothing. Neither does cancelling a caller
that awaits its blocking task: the task runs on. -/
def move {ι : Type} (_ : ι) : Turn → Pool → Phase → Pool × Phase
  | .acquire, s, .waiting =>
    if 0 < s.permits then ({ s with permits := s.permits - 1 }, .spawned) else (s, .waiting)
  | .cancel, s, .waiting => (s, .ended)
  | .pop, s, .spawned =>
    match s.stores.getLast? with
    | some store => ({ s with stores := s.stores.dropLast }, .reading store)
    | none => (s, .returning none)
  | .finish ending, s, .reading store =>
    ({ s with stores := s.stores ++ [store] }, .returning (some ending))
  | .release, s, .returning _ => ({ s with permits := s.permits + 1 }, .ended)
  | _, s, phase => (s, phase)

/-- `ReadPool::open`, with every call about to be made. -/
def opened (ι : Type) (size : Nat) : World ι Pool Phase where
  shared := ⟨size, List.range size⟩
  party := fun _ => .waiting

/-! ## What is where -/

def Phase.permits : Phase → Nat
  | .waiting | .ended => 0
  | .spawned | .reading _ | .returning _ => 1

def Phase.stores : Phase → Multiset Nat
  | .reading store => {store}
  | _ => 0

/-- Permits and connections of the pool. -/
def Pool.stock (s : Pool) : Nat × Multiset Nat := (s.permits, ↑s.stores)

/-- Those of a call. -/
def Phase.held (phase : Phase) : Nat × Multiset Nat := (phase.permits, phase.stores)

variable {ι : Type}

/-- A move neither makes nor loses a permit or a connection. -/
theorem move_conserves (i : ι) (turn : Turn) (s : Pool) (phase : Phase) :
    (move i turn s phase).1.stock + (move i turn s phase).2.held = s.stock + phase.held := by
  unfold move
  split
  · split_ifs with hFree
    · exact Prod.ext (Nat.sub_add_cancel hFree) rfl
    · rfl
  · rfl
  · split
    next store hLast =>
      refine Prod.ext rfl ?_
      show (s.stores.dropLast : Multiset Nat) + {store} = ↑s.stores + 0
      rw [add_zero, ← Multiset.coe_singleton, Multiset.coe_add, List.dropLast_append_getLast? _ hLast]
    next => rfl
  · exact Prod.ext rfl (add_zero _)
  · exact Prod.ext rfl rfl
  · rfl

/-- Only a task that pops an empty pool finds it exhausted. -/
theorem move_exhausted {i : ι} {turn : Turn} {s : Pool} {phase : Phase}
    (h : (move i turn s phase).2 = .returning none) :
    phase = .returning none ∨ phase = .spawned ∧ s.stores = [] := by
  unfold move at h
  split at h
  · split_ifs at h
  · cases h
  · split at h
    next => cases h
    next hNone => exact .inr ⟨rfl, List.getLast?_eq_none_iff.mp hNone⟩
  · cases h
  · cases h
  · exact .inl h

variable [Fintype ι]

/-- What every run keeps: nothing is lost, and no task has found the pool empty. -/
structure Stocked (size : Nat) (w : World ι Pool Phase) : Prop where
  total : w.shared.stock + ∑ i, (w.party i).held = (size, ↑(List.range size))
  never : ∀ i, w.party i ≠ .returning none

variable {size : Nat} {w : World ι Pool Phase}

theorem Stocked.permits (h : Stocked size w) :
    w.shared.permits + ∑ i, (w.party i).permits = size := by
  have hFirst := congrArg Prod.fst h.total
  simpa [Pool.stock, Phase.held, Prod.fst_sum] using hFirst

theorem Stocked.stores (h : Stocked size w) :
    (w.shared.stores : Multiset Nat) + ∑ i, (w.party i).stores = ↑(List.range size) := by
  have hSecond := congrArg Prod.snd h.total
  simpa [Pool.stock, Phase.held, Prod.snd_sum] using hSecond

theorem Stocked.count (h : Stocked size w) :
    w.shared.stores.length + ∑ i, (w.party i).stores.card = size := by
  have hCard := congrArg Multiset.card h.stores
  simpa [Multiset.card_sum] using hCard

/-- A task about to pop finds a connection: fewer are in use than permits are out. -/
theorem Stocked.found (h : Stocked size w) {i : ι} (hi : w.party i = .spawned) :
    w.shared.stores ≠ [] := by
  intro hEmpty
  have hPermits := h.permits
  have hStores := h.count
  have hLess : ∑ j, (w.party j).stores.card < ∑ j, (w.party j).permits := by
    refine Finset.sum_lt_sum (fun j _ => ?_) ⟨i, Finset.mem_univ i, ?_⟩
    · cases w.party j <;> simp [Phase.stores, Phase.permits]
    · simp [hi, Phase.stores, Phase.permits]
  rw [hEmpty, List.length_nil] at hStores
  omega

theorem stocked_opened : Stocked size (opened ι size) where
  total := by simp [opened, Pool.stock, Phase.held, Phase.permits, Phase.stores, ← Prod.zero_eq_mk]
  never := nofun

theorem Stocked.exclusive (h : Stocked size w) {i j : ι} {store : Nat}
    (hi : w.party i = .reading store) (hj : w.party j = .reading store) : i = j := by
  by_contra hNe
  have hOnce : Multiset.count store (↑(List.range size)) ≤ 1 :=
    Multiset.nodup_iff_count_le_one.mp (Multiset.coe_nodup.mpr List.nodup_range) store
  rw [← h.stores, Multiset.count_add, Multiset.count_sum'] at hOnce
  have hReads : ∀ k, w.party k = .reading store → (w.party k).stores.count store = 1 := by
    intro k hk
    rw [hk]
    exact Multiset.count_singleton_self store
  have hTwo := Finset.add_le_sum (f := fun k => (w.party k).stores.count store)
    (fun _ _ => Nat.zero_le _) (Finset.mem_univ i) (Finset.mem_univ j) hNe
  rw [hReads i hi, hReads j hj] at hTwo
  omega

variable [DecidableEq ι]

theorem Stocked.step (h : Stocked size w) (turn : ι × Turn) :
    Stocked size (w.step move turn) where
  total := (World.step_conserves move_conserves w turn).trans h.total
  never := by
    intro j hj
    by_cases hOwn : j = turn.1
    · subst hOwn
      simp only [World.step, Function.update_self] at hj
      rcases move_exhausted hj with hBefore | ⟨hSpawned, hEmpty⟩
      · exact h.never _ hBefore
      · exact h.found hSpawned hEmpty
    · simp only [World.step, Function.update_of_ne hOwn] at hj
      exact h.never j hj

/-- A pool that has all it needs. -/
structure Sound (size : Nat) (w : World ι Pool Phase) : Prop where
  /-- A task that holds a permit and no connection yet finds one to pop. -/
  found : ∀ i, w.party i = .spawned → w.shared.stores ≠ []
  never : ∀ i, w.party i ≠ .returning none
  exclusive : ∀ i j store, w.party i = .reading store → w.party j = .reading store → i = j
  count : w.shared.stores.length + ∑ i, (w.party i).stores.card = size
  /-- When every call has ended, everything is back. -/
  back : (∀ i, w.party i = .ended) →
    w.shared.permits = size ∧ w.shared.stores.Perm (List.range size)

/-- Any number of calls, however their turns interleave, however their closures end and
whoever is cancelled, never find the pool dry. -/
theorem readPool_never_dry (size : Nat) (turns : List (ι × Turn)) :
    ∀ w ∈ Machine.states (World.step move) (opened ι size) turns, Sound size w := by
  intro w hw
  have h : Stocked size w := Machine.invariant_always (fun _ turn h => h.step turn) stocked_opened w hw
  refine ⟨fun _ => h.found, h.never, fun _ _ _ => h.exclusive, h.count, fun hEnded => ⟨?_, ?_⟩⟩
  · simpa [hEnded, Phase.permits] using h.permits
  · have hStores := h.stores
    simp only [hEnded, Phase.stores, Finset.sum_const_zero, add_zero] at hStores
    exact Multiset.coe_eq_coe.mp hStores

/-- Two calls on one connection: the second waits while the first reads. -/
theorem readPool_never_dry_waits : ∃ w ∈ Machine.states (World.step move) (opened (Fin 2) 1)
    [(0, .acquire), (1, .acquire), (0, .pop)],
    w.party 0 = .reading 0 ∧ w.party 1 = .waiting ∧ Sound 1 w := by
  have hSound := readPool_never_dry (ι := Fin 2) 1 [(0, .acquire), (1, .acquire), (0, .pop)]
  refine ⟨_, .tail _ (.tail _ (.tail _ (.head _))), rfl, rfl, hSound _ ?_⟩
  exact .tail _ (.tail _ (.tail _ (.head _)))

end RustyBrain.Daemon.ReadPool
