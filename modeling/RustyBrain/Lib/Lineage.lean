import Mathlib

/-!
# Pointer graphs without cycles

A relation "points at" on a type, and what keeps it free of cycles when it grows by
one edge at a time.
-/

namespace Lineage

open Relation

variable {α : Type} {r s : α → α → Prop}

/-- No path leads from a node back to it. -/
def Acyclic (r : α → α → Prop) : Prop := ∀ x, ¬ TransGen r x x

/-- Dropping edges keeps a graph acyclic. -/
theorem Acyclic.mono (h : Acyclic r) (hSub : ∀ x y, s x y → r x y) : Acyclic s :=
  fun x hPath => h x (TransGen.mono hSub x x hPath)

/-- A path of the graph with one more edge either does not use it, or ends with it: its
target points nowhere. -/
theorem path_cases {old new : α} (hne : old ≠ new) (hEnd : ∀ z, ¬ r new z)
    (hEdge : ∀ x y, s x y → r x y ∨ (x = old ∧ y = new)) {x y : α} (h : TransGen s x y) :
    TransGen r x y ∨ (y = new ∧ (x = old ∨ TransGen r x old)) := by
  induction h with
  | single hStep =>
    rcases hEdge _ _ hStep with hOld | ⟨rfl, rfl⟩
    · exact .inl (.single hOld)
    · exact .inr ⟨rfl, .inl rfl⟩
  | tail _ hStep ih =>
    rcases ih with hPath | ⟨rfl, -⟩
    · rcases hEdge _ _ hStep with hOld | ⟨rfl, rfl⟩
      · exact .inl (hPath.tail hOld)
      · exact .inr ⟨rfl, .inr hPath⟩
    · rcases hEdge _ _ hStep with hOld | ⟨rfl, -⟩
      · exact absurd hOld (hEnd _)
      · exact absurd rfl hne

/-- An edge to a node that points nowhere closes no cycle. -/
theorem Acyclic.insert (h : Acyclic r) {old new : α} (hne : old ≠ new)
    (hEnd : ∀ z, ¬ r new z) (hEdge : ∀ x y, s x y → r x y ∨ (x = old ∧ y = new)) :
    Acyclic s := by
  intro x hPath
  rcases path_cases hne hEnd hEdge hPath with hOld | ⟨rfl, hx⟩
  · exact h x hOld
  · rcases hx with rfl | hBack
    · exact hne rfl
    · obtain ⟨z, hz, -⟩ := TransGen.head'_iff.mp hBack
      exact hEnd z hz

end Lineage
