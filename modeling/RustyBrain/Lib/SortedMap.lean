import Mathlib

/-!
# Maps as key-sorted association lists

A map kept as the list of its entries in strictly increasing key order. Two such
lists with the same lookups are the same list (`Sorted.ext`), so an equation
between maps is proved one key at a time: each operation has a lookup rule
(`lookup_insert`, `lookup_erase`, `lookup_keep`) and keeps the order.
-/

namespace SortedMap

open List

variable {K V : Type*} [LinearOrder K] {k : K} {v : V} {m : List (K × V)} {f : K → V → Option V}

/-- The entries are in strictly increasing key order. -/
def Sorted (m : List (K × V)) : Prop :=
  m.Pairwise fun a b => a.1 < b.1

/-- The value under `k`. -/
def lookup (k : K) : List (K × V) → Option V
  | [] => none
  | (k', v) :: m => if k' = k then some v else lookup k m

/-- Put `v` under `k`, in its place, over what was there. -/
def insert (k : K) (v : V) : List (K × V) → List (K × V)
  | [] => [(k, v)]
  | (k', v') :: m =>
    if k' < k then (k', v') :: insert k v m
    else if k' = k then (k, v) :: m
    else (k, v) :: (k', v') :: m

/-- Drop the entry under `k`. -/
def erase (k : K) (m : List (K × V)) : List (K × V) :=
  m.filter fun e => e.1 ≠ k

/-- Rewrite every entry, dropping those for which `f` has nothing. -/
def keep (f : K → V → Option V) (m : List (K × V)) : List (K × V) :=
  m.filterMap fun e => (f e.1 e.2).map (e.1, ·)

/-! ## Lookup -/

@[simp] theorem lookup_nil (k : K) : lookup k ([] : List (K × V)) = none := rfl

theorem lookup_cons (k k' : K) (v : V) (m : List (K × V)) :
    lookup k ((k', v) :: m) = if k' = k then some v else lookup k m := rfl

/-- What is found is an entry. -/
theorem mem_of_lookup (h : lookup k m = some v) :
    (k, v) ∈ m := by
  induction m with
  | nil => simp at h
  | cons e m ih =>
    obtain ⟨k', v'⟩ := e
    rw [lookup_cons] at h
    split at h
    · next hk => simp_all
    · exact mem_cons_of_mem _ (ih h)

/-- A key without an entry is not found. -/
theorem lookup_eq_none (h : ∀ e ∈ m, e.1 ≠ k) :
    lookup k m = none := by
  by_contra hne
  obtain ⟨v, hv⟩ := Option.ne_none_iff_exists'.mp hne
  exact h _ (mem_of_lookup hv) rfl

/-- An entry of a sorted map is found: no other has its key. -/
theorem Sorted.lookup_of_mem (hm : Sorted m)
    (h : (k, v) ∈ m) : lookup k m = some v := by
  induction m with
  | nil => simp at h
  | cons e m ih =>
    obtain ⟨k', v'⟩ := e
    obtain ⟨hHead, hTail⟩ := pairwise_cons.mp hm
    rw [lookup_cons]
    rcases mem_cons.mp h with hEq | hMem
    · obtain ⟨rfl, rfl⟩ := Prod.mk.inj hEq
      simp
    · rw [if_neg (hHead _ hMem).ne]
      exact ih hTail hMem

/-- An insertion shows under its own key only. -/
theorem lookup_insert (k j : K) (v : V) (m : List (K × V)) :
    lookup j (insert k v m) = if k = j then some v else lookup j m := by
  induction m with
  | nil => simp [insert, lookup_cons]
  | cons e m ih =>
    obtain ⟨k', v'⟩ := e
    rcases lt_trichotomy k' k with hLt | rfl | hGt
    · rw [insert, if_pos hLt, lookup_cons, lookup_cons, ih]
      by_cases hj : k' = j
      · rw [if_pos hj, if_pos hj, if_neg (hj ▸ hLt.ne')]
      · rw [if_neg hj, if_neg hj]
    · rw [insert, if_neg (lt_irrefl _), if_pos rfl, lookup_cons, lookup_cons]
      by_cases hj : k' = j
      · rw [if_pos hj, if_pos hj]
      · rw [if_neg hj, if_neg hj, if_neg hj]
    · rw [insert, if_neg hGt.asymm, if_neg hGt.ne', lookup_cons]

/-- So does a removal. -/
theorem lookup_erase (k j : K) (m : List (K × V)) :
    lookup j (erase k m) = if j = k then none else lookup j m := by
  induction m with
  | nil => simp [erase]
  | cons e m ih =>
    obtain ⟨k', v'⟩ := e
    simp only [erase] at ih
    by_cases hk : k' = k
    · simp only [erase, filter_cons, hk, ne_eq, not_true_eq_false, decide_false,
        Bool.false_eq_true, if_false, ih, lookup_cons]
      split_ifs with h1 h2 <;> simp_all
    · simp only [erase, filter_cons, hk, ne_eq, not_false_eq_true, decide_true, if_true,
        ih, lookup_cons]
      split_ifs with h1 h2 <;> simp_all

omit [LinearOrder K] in
/-- The entries that are kept, under their keys. -/
theorem mem_keep : (k, v) ∈ keep f m ↔ ∃ w, (k, w) ∈ m ∧ f k w = some v := by
  simp only [keep, mem_filterMap, Option.map_eq_some_iff, Prod.mk.injEq, Prod.exists]
  constructor
  · rintro ⟨k', w, hMem, v', hf, rfl, rfl⟩
    exact ⟨w, hMem, hf⟩
  · rintro ⟨w, hMem, hf⟩
    exact ⟨k, w, hMem, v, hf, rfl, rfl⟩

omit [LinearOrder K] in
/-- Nothing is kept exactly when every entry is dropped. -/
theorem keep_eq_nil :
    keep f m = [] ↔ ∀ e ∈ m, f e.1 e.2 = none := by
  simp [keep, filterMap_eq_nil_iff]

/-! ## The order -/

/-- An insertion brings one entry. -/
theorem mem_insert {e : K × V} (h : e ∈ insert k v m) :
    e = (k, v) ∨ e ∈ m := by
  induction m with
  | nil => simpa [insert] using h
  | cons e' m ih =>
    obtain ⟨k', v'⟩ := e'
    rw [insert] at h
    split_ifs at h
    · rcases mem_cons.mp h with rfl | h
      · simp
      · exact (ih h).imp_right (mem_cons_of_mem _)
    · exact (mem_cons.mp h).imp_right (mem_cons_of_mem _)
    · exact mem_cons.mp h

/-- An entry is put in its place. -/
theorem Sorted.insert (hm : Sorted m) (k : K) (v : V) :
    Sorted (insert k v m) := by
  induction m with
  | nil => simp [SortedMap.insert, Sorted]
  | cons e m ih =>
    obtain ⟨k', v'⟩ := e
    obtain ⟨hHead, hTail⟩ := pairwise_cons.mp hm
    rw [SortedMap.insert]
    split_ifs with hLt hEq
    · refine pairwise_cons.mpr ⟨fun e he => ?_, ih hTail⟩
      rcases mem_insert he with rfl | he
      · exact hLt
      · exact hHead e he
    · subst hEq
      exact pairwise_cons.mpr ⟨hHead, hTail⟩
    · have hGt : k < k' := lt_of_le_of_ne (not_lt.mp hLt) (Ne.symm hEq)
      refine pairwise_cons.mpr ⟨fun e he => ?_, hm⟩
      rcases mem_cons.mp he with rfl | he
      · exact hGt
      · exact hGt.trans (hHead e he)

theorem Sorted.erase (hm : Sorted m) (k : K) : Sorted (erase k m) :=
  List.Pairwise.filter _ hm

theorem Sorted.keep (hm : Sorted m) (f : K → V → Option V) :
    Sorted (keep f m) := by
  refine List.Pairwise.filterMap _ ?_ hm
  intro a b hab a' ha' b' hb'
  simp only [Option.map_eq_some_iff] at ha' hb'
  obtain ⟨_, _, rfl⟩ := ha'
  obtain ⟨_, _, rfl⟩ := hb'
  exact hab

/-- Keeping acts on each key alone. -/
theorem Sorted.lookup_keep (hm : Sorted m) (f : K → V → Option V) (k : K) :
    lookup k (SortedMap.keep f m) = (lookup k m).bind (f k) := by
  cases hl : lookup k m with
  | none =>
    refine lookup_eq_none fun e he hk => ?_
    obtain ⟨w, hMem, -⟩ := mem_keep.mp he
    have := hm.lookup_of_mem hMem
    simp_all
  | some w =>
    rw [Option.bind_some]
    cases hf : f k w with
    | none =>
      refine lookup_eq_none fun e he hk => ?_
      obtain ⟨w', hMem, hf'⟩ := mem_keep.mp he
      have := hm.lookup_of_mem hMem
      simp_all
    | some v => exact (hm.keep f).lookup_of_mem (mem_keep.mpr ⟨w, mem_of_lookup hl, hf⟩)

/-- The entry under `k` is dropped, or replaced. -/
theorem lookup_ite (c : Bool) (k j : K) (v : V) (m : List (K × V)) :
    lookup j (if c then erase k m else insert k v m) =
      if j = k then if c then none else some v else lookup j m := by
  cases c <;> simp [lookup_erase, lookup_insert, eq_comm]

theorem Sorted.ite (hm : Sorted m) (c : Bool) (k : K) (v : V) :
    Sorted (if c then SortedMap.erase k m else SortedMap.insert k v m) := by
  cases c
  · exact hm.insert k v
  · exact hm.erase k

/-- Sorted lists with the same lookups are equal. -/
theorem Sorted.ext {m n : List (K × V)} (hm : Sorted m) (hn : Sorted n)
    (h : ∀ k, lookup k m = lookup k n) : m = n := by
  -- both lists hold the same entries, and a strict order has one sorted list of them
  have hMem : ∀ e, e ∈ m ↔ e ∈ n := fun e =>
    ⟨fun he => mem_of_lookup ((h e.1).symm.trans (hm.lookup_of_mem he)),
      fun he => mem_of_lookup ((h e.1).trans (hn.lookup_of_mem he))⟩
  have hPerm : m.Perm n := by
    refine (perm_ext_iff_of_nodup ?_ ?_).mpr hMem
    · exact hm.imp fun hab hEq => hab.ne (congrArg Prod.fst hEq)
    · exact hn.imp fun hab hEq => hab.ne (congrArg Prod.fst hEq)
  exact hPerm.eq_of_pairwise (fun a b _ _ hab hba => absurd hab hba.asymm) hm hn

/-- A map in which nothing is found is empty. -/
theorem eq_nil_of_lookup (hm : Sorted m) (h : ∀ k, lookup k m = none) :
    m = [] :=
  hm.ext List.Pairwise.nil h

end SortedMap
