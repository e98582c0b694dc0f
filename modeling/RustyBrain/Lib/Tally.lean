import Mathlib

/-!
# Tallies

How often something happened and when it last did. Tallies of separate occasions add up,
whatever their order and however they are grouped, so that what a system holds of them in
several places can be moved around as a sum of terms.

## Results

* the instance of `AddCommMonoid`
-/

/-- A number of occasions and the latest of their times. -/
@[ext]
structure Tally where
  count : Nat
  latest : Option Int
  deriving DecidableEq, Repr

namespace Tally

open List

/-- The later of two times, if there is one. -/
def later : Option Int → Option Int → Option Int
  | none, b => b
  | some a, none => some a
  | some a, some b => some (max a b)

@[simp]
theorem later_none (a : Option Int) : later a none = a := by
  cases a <;> rfl

/-- Which occasion is looked at first does not matter. -/
theorem later_comm (a b : Option Int) : later a b = later b a := by
  cases a with
  | none => exact (later_none b).symm
  | some x =>
    cases b with
    | none => rfl
    | some y => exact congrArg some (Int.max_comm x y)

/-- Nor does it how they are grouped. -/
theorem later_assoc (a b c : Option Int) : later (later a b) c = later a (later b c) := by
  cases a <;> cases b <;> cases c <;> simp [later, Int.max_assoc]

instance : Add Tally := ⟨fun a b => ⟨a.count + b.count, later a.latest b.latest⟩⟩

instance : Zero Tally := ⟨⟨0, none⟩⟩

@[simp]
theorem add_count (a b : Tally) : (a + b).count = a.count + b.count := rfl

@[simp]
theorem add_latest (a b : Tally) : (a + b).latest = later a.latest b.latest := rfl

instance : AddCommMonoid Tally where
  add_assoc a b c := Tally.ext (Nat.add_assoc ..) (later_assoc ..)
  zero_add a := Tally.ext (Nat.zero_add _) rfl
  add_zero a := Tally.ext (Nat.add_zero _) (later_none _)
  add_comm a b := Tally.ext (Nat.add_comm ..) (later_comm ..)
  nsmul := nsmulRec

/-- One occasion. -/
def once (t : Int) : Tally := ⟨1, some t⟩

/-- The tally of a list of occasions counts them. -/
theorem sum_count (times : List Int) : ((times.map once).sum).count = times.length := by
  induction times with
  | nil => rfl
  | cons t rest ih =>
    rw [map_cons, sum_cons, add_count, ih, length_cons]
    exact Nat.add_comm 1 _

theorem later_max? (o : Option Int) (times : List Int) :
    later o times.max? = (o.toList ++ times).max? := by
  cases o with
  | none => rfl
  | some t =>
    show later (some t) times.max? = (t :: times).max?
    rw [max?_cons]
    cases times.max? <;> rfl

/-- The tally of a list of occasions has the time of the last one. -/
theorem sum_latest (times : List Int) : ((times.map once).sum).latest = times.max? := by
  induction times with
  | nil => rfl
  | cons t rest ih =>
    rw [map_cons, sum_cons, add_latest, ih]
    exact later_max? (some t) rest

end Tally
