import Mathlib

/-!
# Cycles of pointers

Each key of a finite map points to one other value. A search follows the pointers from every
start: it has found a cycle when it is back on its own path, and gives up where an earlier turn
has been.
-/

namespace PointerCycle

open Relation

/-- A finite map of pointers. -/
structure Pointers (α : Type) where
  get : α → Option α
  keys : Finset α
  mem : ∀ {a b}, get a = some b → a ∈ keys

variable {α : Type} (next : Pointers α) {complete path path' starts : List α} {current : α}

/-- One value points to the other. -/
def Pointers.Points (a b : α) : Prop := next.get a = some b

/-- Every path along the pointers from here ends. -/
def Ends (a : α) : Prop := Acc (fun b a => next.Points a b) a

section

variable {next}

/-- A value ends when the one it points to does. -/
theorem Ends.of_points {b : α} (hNext : next.get current = some b) (hb : Ends next b) :
    Ends next current := by
  refine .intro current fun c hc => ?_
  rwa [Option.some.inj (hc.symm.trans hNext)]

/-- A value on a cycle does not end. -/
theorem Ends.not_cycle {a : α} (h : Ends next a) : ¬ TransGen next.Points a a := by
  intro hCycle
  have hAcc := h.transGen
  replace hCycle := transGen_swap.mpr hCycle
  clear h
  induction hAcc with
  | intro a _ ih => exact ih a hCycle hCycle

end

variable [DecidableEq α]

/-- The turn of one start, from `current` on: its path, or `none` when it is back on it. -/
def follow (complete path : List α) (current : α) : Option (List α) :=
  match _hNext : next.get current with
  | none => some path
  | some following =>
    if current ∈ path then none
    else if following ∈ complete then some (current :: path)
    else follow complete (current :: path) following
termination_by (next.keys \ path.toFinset).card
decreasing_by
  refine Finset.card_lt_card (Finset.ssubset_iff_of_subset ?_ |>.mpr ⟨current, ?_, ?_⟩)
  · exact Finset.sdiff_subset_sdiff subset_rfl (by simp)
  · simpa using ⟨next.mem _hNext, ‹current ∉ path›⟩
  · simp

/-- The turns of the starts in their order, each with the values of the turns before. -/
def search : List α → List α → Bool
  | [], _ => false
  | start :: rest, complete =>
    match follow next complete [] start with
    | none => true
    | some path => search rest (path ++ complete)

variable {next}

/-- A turn that comes back has found a cycle. -/
theorem follow_none (hPath : ∀ p ∈ path, TransGen next.Points p current)
    (h : follow next complete path current = none) : ∃ a, TransGen next.Points a a := by
  fun_induction follow next complete path current with
  | case1 => cases h
  | case2 path current following hNext hBack => exact ⟨current, hPath current hBack⟩
  | case3 => cases h
  | case4 path current following hNext _ _ ih =>
    refine ih (fun p hp => ?_) h
    rcases List.mem_cons.mp hp with rfl | hp
    · exact .single hNext
    · exact (hPath p hp).tail hNext

/-- A turn that gives up was only at values from which the pointers end. -/
theorem follow_some (hComplete : ∀ c ∈ complete, Ends next c)
    (hPath : Ends next current → ∀ p ∈ path, Ends next p)
    (h : follow next complete path current = some path') :
    Ends next current ∧ ∀ p ∈ path', Ends next p := by
  fun_induction follow next complete path current with
  | case1 path current hNone =>
    have hEnds : Ends next current :=
      .intro current fun b hb => nomatch hNone.symm.trans hb
    cases h
    exact ⟨hEnds, hPath hEnds⟩
  | case2 => cases h
  | case3 path current following hNext _ hDone =>
    have hEnds := Ends.of_points hNext (hComplete following hDone)
    cases h
    exact ⟨hEnds, List.forall_mem_cons.mpr ⟨hEnds, hPath hEnds⟩⟩
  | case4 path current following hNext _ _ ih =>
    have hStep : Ends next following → Ends next current := .of_points hNext
    obtain ⟨hEnds, hAll⟩ := ih
      (fun hEnds => List.forall_mem_cons.mpr ⟨hStep hEnds, hPath (hStep hEnds)⟩) h
    exact ⟨hStep hEnds, hAll⟩

/-- The induction is on the starts; the values of earlier turns all end. -/
theorem search_spec (starts : List α) (hComplete : ∀ c ∈ complete, Ends next c) :
    (search next starts complete = true → ∃ a, TransGen next.Points a a) ∧
      (search next starts complete = false → ∀ a ∈ starts, Ends next a) := by
  induction starts generalizing complete with
  | nil => exact ⟨nofun, nofun⟩
  | cons start rest ih =>
    rw [search]
    cases hTurn : follow next complete [] start with
    | none => exact ⟨fun _ => follow_none (List.forall_mem_nil _) hTurn, nofun⟩
    | some path =>
      obtain ⟨hEnds, hAll⟩ := follow_some hComplete (fun _ => List.forall_mem_nil _) hTurn
      obtain ⟨hFound, hNone⟩ := ih (List.forall_mem_append.mpr ⟨hAll, hComplete⟩)
      exact ⟨hFound, fun h => List.forall_mem_cons.mpr ⟨hEnds, hNone h⟩⟩

/-- The search finds a cycle exactly when there is one. -/
theorem search_iff (hStarts : ∀ a ∈ next.keys, a ∈ starts) :
    search next starts [] = true ↔ ∃ a, TransGen next.Points a a := by
  obtain ⟨hFound, hNone⟩ := search_spec starts (List.forall_mem_nil (Ends next))
  refine ⟨hFound, fun ⟨a, hCycle⟩ => ?_⟩
  by_contra hNot
  obtain ⟨b, hb, -⟩ := TransGen.head'_iff.mp hCycle
  exact (hNone (by simpa using hNot) a (hStarts a (next.mem hb))).not_cycle hCycle

end PointerCycle
