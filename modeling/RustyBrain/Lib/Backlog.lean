import Mathlib

/-!
# Backlogs served in windows

A backlog is served from its head, a window of bounded length at a time. Of the items in a
window some are done and leave; the others stay where they are, and are met again by the
next window. An item that cannot be read fails the whole window.

## Results

* `settles_iff` — the backlog is worked off exactly if it is `Clear`: the items that stay do
  not fill the window before an item that would be done.
-/

namespace RustyBrain.Backlog

open List

variable {α : Type} (ok readable : α → Bool) (limit : Nat)

/-- Serve one window: the items that are done, and the backlog that is left. -/
def serve (l : List α) : Option (List α × List α) :=
  if ∀ x ∈ l.take limit, readable x then
    some ((l.take limit).filter ok, (l.take limit).filter (fun x => !ok x) ++ l.drop limit)
  else none

/-- Serve windows one after the other. A window that fails changes nothing. -/
def serves : Nat → List α → List α × List α
  | 0, l => ([], l)
  | k + 1, l =>
    match serve ok readable limit (serves k l).2 with
    | some (done, left) => ((serves k l).1 ++ done, left)
    | none => serves k l

/-- Every window can be served, and at some time nothing is left to do. -/
def Settles (l : List α) : Prop :=
  (∃ k, ∀ x ∈ (serves ok readable limit k l).2, ¬ ok x) ∧
  ∀ k, (serve ok readable limit (serves ok readable limit k l).2).isSome

/-- The number of items that stay. -/
def blocked (l : List α) : Nat := l.countP fun x => !ok x

/-- Fewer items that stay than a window holds stand before an item to do, and a full window
of them before one that cannot be read. -/
def Clear (l : List α) : Prop :=
  ∀ before x after, l = before ++ x :: after →
    (ok x → blocked ok before < limit) ∧ (¬ readable x → limit ≤ blocked ok before)

variable {ok readable limit} {l done left : List α}

theorem serve_eq_some
    (h : serve ok readable limit l = some (done, left)) :
    (∀ x ∈ l.take limit, readable x) ∧ done = (l.take limit).filter ok ∧
      left = (l.take limit).filter (fun x => !ok x) ++ l.drop limit := by
  unfold serve at h
  split at h
  next hRead =>
    cases h
    exact ⟨hRead, rfl, rfl⟩
  next => cases h

theorem serve_perm (h : serve ok readable limit l = some (done, left)) :
    (done ++ left).Perm l := by
  obtain ⟨-, rfl, rfl⟩ := serve_eq_some h
  rw [← append_assoc]
  have hWindow : ((l.take limit).filter ok ++ (l.take limit).filter (fun x => !ok x)).Perm
      (l.take limit) := filter_append_perm ok _
  exact (hWindow.append_right _).trans (.of_eq (take_append_drop limit l))

/-- What was done and what is left are the backlog. -/
theorem serves_perm (ok readable : α → Bool) (limit k : Nat) (l : List α) :
    ((serves ok readable limit k l).1 ++ (serves ok readable limit k l).2).Perm l := by
  induction k with
  | zero => exact .refl l
  | succ k ih =>
    unfold serves
    split
    next done left hServe =>
      rw [append_assoc]
      exact ((serve_perm hServe).append_left _).trans ih
    next => exact ih

/-! ## What a window keeps -/

theorem blocked_append (l m : List α) : blocked ok (l ++ m) = blocked ok l + blocked ok m :=
  countP_append

theorem blocked_le_length (l : List α) : blocked ok l ≤ l.length := countP_le_length

theorem length_eq_add_blocked (l : List α) : l.length = l.countP ok + blocked ok l := by
  unfold blocked
  rw [length_eq_countP_add_countP ok]
  congr 2
  simp

/-- What a window leaves of a backlog without duplicates, as a filter. -/
theorem filter_window [DecidableEq α] (h : l.Nodup) :
    l.filter (fun x => ¬ (x ∈ l.take limit ∧ ok x)) =
      (l.take limit).filter (fun x => !ok x) ++ l.drop limit := by
  have hWindow : (l.take limit).filter (fun x => ¬ (x ∈ l.take limit ∧ ok x)) =
      (l.take limit).filter fun x => !ok x :=
    filter_congr fun x hx => by simp [hx]
  have hBehind : (l.drop limit).filter (fun x => ¬ (x ∈ l.take limit ∧ ok x)) = l.drop limit :=
    filter_eq_self.mpr fun x hx =>
      decide_eq_true fun hIn => disjoint_take_drop h le_rfl hIn.1 hx
  have hSplit := congrArg (List.filter fun x => decide ¬ (x ∈ l.take limit ∧ ok x))
    (take_append_drop limit l)
  rw [filter_append, hWindow, hBehind] at hSplit
  exact hSplit.symm

/-- Taking the items to do out of a list leaves as many that stay. -/
theorem blocked_filter (l : List α) : blocked ok (l.filter fun x => !ok x) = blocked ok l := by
  unfold blocked
  rw [countP_filter]
  simp

/-- An item stands in the window, or behind all of it. -/
theorem window_or_behind (limit : Nat) {l before after : List α} {x : α} (hSplit : l = before ++ x :: after) :
    (before.length < limit ∧ x ∈ l.take limit) ∨
      ∃ rest, before = l.take limit ++ rest ∧ l.drop limit = rest ++ x :: after := by
  subst hSplit
  rcases Nat.lt_or_ge before.length limit with hIn | hBehind
  · refine .inl ⟨hIn, ?_⟩
    obtain ⟨n, hn⟩ := Nat.exists_eq_add_of_lt hIn
    rw [take_append, take_of_length_le hIn.le,
      show limit - before.length = n + 1 by omega, take_succ_cons]
    exact mem_append_right _ mem_cons_self
  · refine .inr ⟨before.drop limit, ?_, ?_⟩
    · rw [take_append_of_le_length hBehind, take_append_drop]
    · rw [drop_append_of_le_length hBehind]

/-- **Step lemma:** once a window was served, the backlog is clear exactly if what is left
is. -/
theorem clear_serve (h : serve ok readable limit l = some (done, left)) :
    Clear ok readable limit l ↔ Clear ok readable limit left := by
  obtain ⟨hRead, -, rfl⟩ := serve_eq_some h
  have hKept : ∀ rest, blocked ok ((l.take limit).filter (fun x => !ok x) ++ rest) =
      blocked ok (l.take limit ++ rest) := by
    intro rest
    rw [blocked_append, blocked_filter, blocked_append]
  constructor
  · intro hClear before x after hSplit
    rcases append_eq_append_iff.mp hSplit with ⟨rest, rfl, hRest⟩ | ⟨rest, hStays, hRest⟩
    · rw [hKept]
      refine hClear (l.take limit ++ rest) x after ?_
      rw [append_assoc, ← hRest, take_append_drop]
    · cases rest with
      | nil =>
        rw [append_nil] at hStays
        rw [← hStays, ← append_nil (List.filter _ _), hKept]
        refine hClear _ x after ?_
        rw [append_nil, show x :: after = l.drop limit from hRest, take_append_drop]
      | cons y rest =>
        -- an item that stayed in the window is neither to do nor unreadable
        obtain rfl : x = y := (List.cons.inj hRest).1
        have hx : x ∈ (l.take limit).filter fun x => !ok x := by
          rw [hStays]
          exact mem_append_right _ mem_cons_self
        obtain ⟨hIn, hNot⟩ := mem_filter.mp hx
        exact ⟨fun hOk => by simp [hOk] at hNot, fun hUnread => absurd (hRead x hIn) hUnread⟩
  · intro hClear before x after hSplit
    rcases window_or_behind limit hSplit with ⟨hShort, hIn⟩ | ⟨rest, rfl, hRest⟩
    · exact ⟨fun _ => (blocked_le_length before).trans_lt hShort,
        fun hUnread => absurd (hRead x hIn) hUnread⟩
    · rw [← hKept]
      refine hClear _ x after ?_
      rw [hRest, append_assoc]

/-! ## Working it off -/

theorem Clear.serve_isSome (h : Clear ok readable limit l) :
    (serve ok readable limit l).isSome := by
  have hRead : ∀ x ∈ l.take limit, readable x := by
    intro x hx
    obtain ⟨before, after, hWindow⟩ := append_of_mem hx
    have hSplit : l = before ++ x :: (after ++ l.drop limit) := by
      rw [← cons_append, ← append_assoc, ← hWindow, take_append_drop]
    have hShort : before.length < limit := by
      have hLength := congrArg List.length hWindow
      rw [length_take, length_append, length_cons] at hLength
      omega
    by_contra hUnread
    have hFull := (h before x _ hSplit).2 hUnread
    exact absurd hShort (Nat.not_lt.mpr (hFull.trans (blocked_le_length before)))
  unfold serve
  rw [if_pos hRead, Option.isSome_some]

/-- While something is left to do, a window takes some of it. -/
theorem Clear.progress (h : Clear ok readable limit l)
    (hServe : serve ok readable limit l = some (done, left)) {x : α} (hx : x ∈ l) (hOk : ok x) :
    left.length < l.length := by
  obtain ⟨a, before, after, hFirst, hSplit, ha⟩ : ∃ a before after, (∀ y ∈ before, ¬ ok y) ∧
      l = before ++ a :: after ∧ ok a := by
    obtain ⟨a, ha⟩ := Option.isSome_iff_exists.mp (find?_isSome.mpr ⟨x, hx, hOk⟩)
    obtain ⟨hOkA, before, after, hSplit, hFirst⟩ := find?_eq_some_iff_append.mp ha
    exact ⟨a, before, after, fun y hy => by simpa using hFirst y hy, hSplit, hOkA⟩
  have hAll : blocked ok before = before.length :=
    countP_eq_length.mpr fun y hy => by simpa using hFirst y hy
  have hIn : a ∈ l.take limit := by
    rcases window_or_behind limit hSplit with ⟨-, hIn⟩ | ⟨rest, hBefore, hRest⟩
    · exact hIn
    · have hShort := (h before a after hSplit).1 ha
      have hFull : (l.take limit).length = limit := by
        rw [length_take, Nat.min_eq_left]
        by_contra hShorter
        rw [drop_eq_nil_of_le (by omega)] at hRest
        exact absurd hRest.symm (by simp)
      rw [hAll, hBefore, length_append, hFull] at hShort
      omega
  obtain ⟨-, hDone, -⟩ := serve_eq_some hServe
  have hPos : 0 < done.length :=
    length_pos_of_mem (hDone ▸ mem_filter.mpr ⟨hIn, ha⟩)
  have hTotal := (serve_perm hServe).length_eq
  rw [length_append] at hTotal
  omega

theorem clear_serves (k : Nat) (l : List α) (h : ∀ i < k,
    (serve ok readable limit (serves ok readable limit i l).2).isSome) :
    Clear ok readable limit l ↔ Clear ok readable limit (serves ok readable limit k l).2 := by
  induction k with
  | zero => exact Iff.rfl
  | succ k ih =>
    obtain ⟨⟨done, left⟩, hServe⟩ := Option.isSome_iff_exists.mp (h k k.lt_succ_self)
    rw [ih fun i hi => h i (hi.trans k.lt_succ_self), clear_serve hServe]
    simp only [serves, hServe]

theorem Clear.serves_isSome (h : Clear ok readable limit l) (k : Nat) :
    (serve ok readable limit (serves ok readable limit k l).2).isSome := by
  induction k using Nat.strong_induction_on with
  | _ k ih => exact ((clear_serves k l ih).mp h).serve_isSome

/-- **Key result:** a backlog is worked off exactly if it is clear. -/
theorem settles_iff : Settles ok readable limit l ↔ Clear ok readable limit l := by
  constructor
  · rintro ⟨⟨k, hDone⟩, hServes⟩
    rw [clear_serves k l fun i _ => hServes i]
    intro before x after hSplit
    have hNone : ∀ y ∈ before, ¬ ok y :=
      fun y hy => hDone y (hSplit ▸ mem_append_left _ hy)
    refine ⟨fun hOk => absurd hOk (hDone x (hSplit ▸ mem_append_right _ mem_cons_self)),
      fun hUnread => ?_⟩
    -- the last window was read, so what cannot be read stands behind a full one
    obtain ⟨⟨done, left⟩, hServe⟩ := Option.isSome_iff_exists.mp (hServes k)
    have hAll : blocked ok before = before.length :=
      countP_eq_length.mpr fun y hy => by simpa using hNone y hy
    rcases window_or_behind limit hSplit with ⟨-, hIn⟩ | ⟨rest, hBefore, hRest⟩
    · exact absurd ((serve_eq_some hServe).1 x hIn) hUnread
    · have hDrop := congrArg List.length hRest
      have hLength := congrArg List.length hBefore
      simp only [length_drop, length_append, length_take, length_cons]
        at hDrop hLength
      omega
  · intro hClear
    refine ⟨?_, hClear.serves_isSome⟩
    -- the backlog gets shorter as long as something is left to do
    by_contra hNever
    simp only [not_exists, not_forall, not_not] at hNever
    have hShrinks : ∀ k, (serves ok readable limit k l).2.length + k ≤ l.length := by
      intro k
      induction k with
      | zero => exact le_rfl
      | succ k ih =>
        obtain ⟨⟨done, left⟩, hServe⟩ := Option.isSome_iff_exists.mp (hClear.serves_isSome k)
        obtain ⟨x, hx, hOk⟩ := hNever k
        have hLess := ((clear_serves k l fun i _ => hClear.serves_isSome i).mp hClear).progress
          hServe hx hOk
        simp only [serves, hServe]
        omega
    have := hShrinks (l.length + 1)
    omega

end RustyBrain.Backlog
