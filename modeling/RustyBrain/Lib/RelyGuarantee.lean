import RustyBrain.Lib.Machine

/-!
# Parties over a shared state

Any number of parties, each with a state of its own, take turns on one shared state. A
party's move sees the shared state and its own; what the others may have done to the
shared state since its last move is all that a relation, the rely, allows.

## Results

* `always` — the rely/guarantee rule: when each move keeps a property of the shared state
  and the mover's own assertion, and changes the shared state only as the rely allows, and
  the rely disturbs nobody's assertion, then all of them hold in every state of every run.
-/

namespace RelyGuarantee

variable {ι σ φ ε : Type*} [DecidableEq ι]

/-- The shared state and each party's own. -/
structure World (ι σ φ : Type*) where
  shared : σ
  party : ι → φ

variable (move : ι → ε → σ → φ → σ × φ)

/-- One party moves. -/
def World.step (w : World ι σ φ) (turn : ι × ε) : World ι σ φ where
  shared := (move turn.1 turn.2 w.shared (w.party turn.1)).1
  party := Function.update w.party turn.1 (move turn.1 turn.2 w.shared (w.party turn.1)).2

/-- The property of the shared state and every party's assertion hold. -/
def Holds (J : σ → Prop) (L : ι → σ → φ → Prop) (w : World ι σ φ) : Prop :=
  J w.shared ∧ ∀ i, L i w.shared (w.party i)

variable {move} {J : σ → Prop} {L : ι → σ → φ → Prop} {G : σ → σ → Prop} {w : World ι σ φ}

/-- One move that keeps the property and the mover's assertion, and changes the shared state
as the rely allows. -/
theorem Holds.step (hStable : ∀ i s s' l, G s s' → L i s l → L i s' l)
    (hw : Holds J L w) {turn : ι × ε} {s' : σ} {l' : φ}
    (hEq : move turn.1 turn.2 w.shared (w.party turn.1) = (s', l'))
    (hMove : J s' ∧ G w.shared s' ∧ L turn.1 s' l') : Holds J L (w.step move turn) := by
  obtain ⟨-, hParty⟩ := hw
  obtain ⟨hShared', hGuar, hOwn⟩ := hMove
  have hStep : w.step move turn = ⟨s', Function.update w.party turn.1 l'⟩ := by
    unfold World.step
    rw [hEq]
  rw [hStep]
  refine ⟨hShared', ?_⟩
  intro j
  by_cases hj : j = turn.1
  · -- the mover has its assertion from its own move
    subst hj
    show L _ _ (Function.update w.party _ _ _)
    rw [Function.update_self]
    exact hOwn
  · -- everyone else keeps what the rely cannot disturb
    show L j _ (Function.update w.party _ _ j)
    rw [Function.update_of_ne hj]
    exact hStable j _ _ _ hGuar (hParty j)

/-- The rely/guarantee rule for runs that meet a condition at every turn. -/
theorem along {ok : World ι σ φ → ι × ε → Prop}
    (hMove : ∀ w turn, ok w turn → J w.shared → L turn.1 w.shared (w.party turn.1) →
      J (move turn.1 turn.2 w.shared (w.party turn.1)).1 ∧
        G w.shared (move turn.1 turn.2 w.shared (w.party turn.1)).1 ∧
        L turn.1 (move turn.1 turn.2 w.shared (w.party turn.1)).1
          (move turn.1 turn.2 w.shared (w.party turn.1)).2)
    (hStable : ∀ i s s' l, G s s' → L i s l → L i s' l) (hw : Holds J L w)
    {turns : List (ι × ε)} (hRun : Machine.Along (World.step move) ok w turns) :
    ∀ w' ∈ Machine.states (World.step move) w turns, Holds J L w' :=
  Machine.invariant_along
    (fun w turn hOk h => h.step hStable rfl (hMove w turn hOk h.1 (h.2 turn.1))) hw hRun

/-- The rely/guarantee rule for all runs. -/
theorem always
    (hMove : ∀ i e s l, J s → L i s l →
      J (move i e s l).1 ∧ G s (move i e s l).1 ∧ L i (move i e s l).1 (move i e s l).2)
    (hStable : ∀ i s s' l, G s s' → L i s l → L i s' l)
    (hw : Holds J L w) (turns : List (ι × ε)) :
    ∀ w' ∈ Machine.states (World.step move) w turns, Holds J L w' :=
  Machine.invariant_always
    (fun _ turn h => h.step hStable rfl (hMove turn.1 turn.2 _ _ h.1 (h.2 turn.1))) hw

/-- If a move keeps the sum of what the shared state and the mover hold, a step keeps the sum
of what all hold. -/
theorem World.step_conserves [Fintype ι] {M : Type*} [AddCommMonoid M] {stock : σ → M}
    {held : φ → M}
    (hMove : ∀ i e s l, stock (move i e s l).1 + held (move i e s l).2 = stock s + held l)
    (w : World ι σ φ) (turn : ι × ε) :
    stock (w.step move turn).shared + ∑ i, held ((w.step move turn).party i) =
      stock w.shared + ∑ i, held (w.party i) := by
  have hOthers : ∑ i ∈ Finset.univ.erase turn.1, held ((w.step move turn).party i) =
      ∑ i ∈ Finset.univ.erase turn.1, held (w.party i) := by
    refine Finset.sum_congr rfl fun i hi => ?_
    simp only [World.step, Function.update_of_ne (Finset.ne_of_mem_erase hi)]
  rw [← Finset.add_sum_erase _ _ (Finset.mem_univ turn.1),
    ← Finset.add_sum_erase _ _ (Finset.mem_univ turn.1), hOthers, ← add_assoc, ← add_assoc]
  simp only [World.step, Function.update_self, hMove]

end RelyGuarantee
