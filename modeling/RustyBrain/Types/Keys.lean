import RustyBrain.Types.Review

/-!
# rusty-brain — the keys of review items

An id is shown as 32 hexadecimal digits in five groups, so two ids of 128 bits have the same
text only when they are the same. The key of a review item is its reason and the texts of its
members in order; it tells the reason and the members.
-/

namespace RustyBrain

open List

variable {a b id : MemoryId} {reason : ReviewReason}

/-! ## The text of an id -/

/-- The value of a hexadecimal digit. -/
def hexDigit (c : Char) : Nat := if c.toNat ≤ 57 then c.toNat - 48 else c.toNat - 87

/-- The number that a text of hexadecimal digits stands for. -/
def hexValue (t : Text) : Nat := t.foldl (fun n c => 16 * n + hexDigit c) 0

theorem digitChar_spec : ∀ d < 16, hexDigit d.digitChar = d ∧ d.digitChar ≠ '-' := by decide

theorem hexValue_concat (t : Text) (c : Char) : hexValue (t ++ [c]) = 16 * hexValue t + hexDigit c := by
  simp [hexValue, foldl_append]

/-- The digits of a number stand for it, and none of them is a hyphen. The induction is on the
number, one digit at a time. -/
theorem toDigits_spec (n : Nat) :
    hexValue (Nat.toDigits 16 n) = n ∧ '-' ∉ Nat.toDigits 16 n := by
  induction n using Nat.strong_induction_on with
  | _ n ih =>
    rw [Nat.toDigits_eq_if (by decide)]
    by_cases hSmall : n < 16
    · obtain ⟨hValue, hPlain⟩ := digitChar_spec n hSmall
      rw [if_pos hSmall]
      refine ⟨?_, fun hIn => hPlain (mem_singleton.mp hIn).symm⟩
      show 16 * 0 + hexDigit n.digitChar = n
      omega
    · have hLess : n / 16 < n := by omega
      obtain ⟨hRest, hNo⟩ := ih (n / 16) hLess
      obtain ⟨hValue, hPlain⟩ := digitChar_spec (n % 16) (Nat.mod_lt _ (by decide))
      rw [if_neg hSmall]
      refine ⟨?_, fun hIn => ?_⟩
      · rw [hexValue_concat, hRest, hValue]
        omega
      · rcases mem_append.mp hIn with hIn | hIn
        · exact hNo hIn
        · exact hPlain (mem_singleton.mp hIn).symm

theorem hexValue_padded (k : Nat) (t : Text) : hexValue (List.replicate k '0' ++ t) = hexValue t := by
  have hZeros : (List.replicate k '0').foldl (fun n c => 16 * n + hexDigit c) 0 = 0 := by
    induction k with
    | zero => rfl
    | succ k ih => exact ih
  unfold hexValue
  rw [foldl_append, hZeros]

/-- The 32 digits of an id. -/
def MemoryId.hex (id : MemoryId) : Text :=
  List.replicate (32 - (Nat.toDigits 16 id.uuid).length) '0' ++ Nat.toDigits 16 id.uuid

theorem MemoryId.hexValue_hex (id : MemoryId) : hexValue id.hex = id.uuid := by
  unfold hex
  rw [hexValue_padded, (toDigits_spec id.uuid).1]

theorem MemoryId.hyphen_notMem_hex (id : MemoryId) : '-' ∉ id.hex := by
  unfold hex
  intro hIn
  rcases mem_append.mp hIn with hIn | hIn
  · cases eq_of_mem_replicate hIn
  · exact (toDigits_spec id.uuid).2 hIn

theorem MemoryId.length_hex (h : id.uuid < 2 ^ 128) : id.hex.length = 32 := by
  have hDigits : (Nat.toDigits 16 id.uuid).length ≤ 32 :=
    (Nat.length_toDigits_le_iff (by decide) (by decide)).mpr (by
      rw [show (16 : Nat) ^ 32 = 2 ^ 128 by decide]
      exact h)
  unfold hex
  rw [length_append, length_replicate]
  omega

/-- The groups of the digits, one after the other. -/
theorem MemoryId.display_toList (id : MemoryId) : id.display.toList =
    id.hex.take 8 ++ '-' :: (id.hex.drop 8).take 4 ++ '-' :: (id.hex.drop 12).take 4 ++
      '-' :: (id.hex.drop 16).take 4 ++ '-' :: (id.hex.drop 20).take 12 := by
  unfold display hex
  rw [String.toList_ofList]
  rfl

theorem MemoryId.length_display (h : id.uuid < 2 ^ 128) : id.display.toList.length = 36 := by
  rw [display_toList]
  simp [length_hex h]

/-- Without the hyphens the digits are left. -/
theorem MemoryId.display_digits (h : id.uuid < 2 ^ 128) :
    (id.display.toList.filter fun c => c ≠ '-') = id.hex := by
  have hKeep : ∀ t : Text, (∀ c ∈ t, c ∈ id.hex) → (t.filter fun c => c ≠ '-') = t := by
    intro t ht
    refine filter_eq_self.mpr fun c hc => decide_eq_true ?_
    rintro rfl
    exact id.hyphen_notMem_hex (ht _ hc)
  have hTake : ∀ i n, ((id.hex.drop i).take n).filter (fun c => c ≠ '-') = (id.hex.drop i).take n :=
    fun i n => hKeep _ fun c hc => mem_of_mem_drop (mem_of_mem_take hc)
  have hFirst : (id.hex.take 8).filter (fun c => c ≠ '-') = id.hex.take 8 := hTake 0 8
  have hLast : (id.hex.drop 20).take 12 = id.hex.drop 20 :=
    take_of_length_le (by simp [length_hex h])
  rw [display_toList]
  simp only [filter_append, filter_cons, hTake, hFirst, ne_eq, not_true_eq_false,
    decide_false, Bool.false_eq_true, if_false]
  -- the groups are consecutive parts of the digits
  have hSplit : ∀ i n, (id.hex.drop i).take n ++ id.hex.drop (i + n) = id.hex.drop i := by
    intro i n
    rw [← drop_drop]
    exact take_append_drop n _
  calc id.hex.take 8 ++ (id.hex.drop 8).take 4 ++ (id.hex.drop 12).take 4 ++ (id.hex.drop 16).take 4 ++
        (id.hex.drop 20).take 12
      = id.hex.take 8 ++ ((id.hex.drop 8).take 4 ++ ((id.hex.drop 12).take 4 ++
          ((id.hex.drop 16).take 4 ++ id.hex.drop 20))) := by
        rw [hLast]
        simp only [append_assoc]
    _ = id.hex := by
        rw [hSplit 16 4, hSplit 12 4, hSplit 8 4, take_append_drop]

/-- The text of an id tells the id. -/
theorem MemoryId.display_inj (ha : a.uuid < 2 ^ 128) (hb : b.uuid < 2 ^ 128)
    (h : a.display = b.display) : a = b := by
  have hHex : a.hex = b.hex := by rw [← display_digits ha, ← display_digits hb, h]
  have hUuid : a.uuid = b.uuid := by rw [← hexValue_hex a, ← hexValue_hex b, hHex]
  cases a
  cases b
  exact congrArg MemoryId.mk hUuid

/-! ## The key of an item -/

/-- What follows the reason in a key. -/
def reviewKeyTail (ids : List MemoryId) : String :=
  String.intercalate ":" ((ids.insertionSort fun a b => a.uuid ≤ b.uuid).map MemoryId.display)

theorem reviewItemKey_eq (reason : ReviewReason) (ids : List MemoryId) :
    reviewItemKey reason ids = reason.asStr ++ ":" ++ reviewKeyTail ids := rfl

/-- The key of a pair in order. -/
theorem reviewItemKey_pair (reason : ReviewReason) (h : a.uuid ≤ b.uuid) :
    reviewItemKey reason [a, b] = reason.asStr ++ ":" ++ (a.display ++ ":" ++ b.display) := by
  have hSorted : [a, b].insertionSort (fun a b => a.uuid ≤ b.uuid) = [a, b] := by
    simp [List.insertionSort, h]
  rw [reviewItemKey_eq, reviewKeyTail, hSorted]
  rfl

/-- The order of a pair does not matter. -/
theorem reviewItemKey_swap (reason : ReviewReason) (a b : MemoryId) :
    reviewItemKey reason [a, b] = reviewItemKey reason [b, a] := by
  have hSame : [a, b].insertionSort (fun a b => a.uuid ≤ b.uuid) =
      [b, a].insertionSort (fun a b => a.uuid ≤ b.uuid) := by
    rcases lt_trichotomy a.uuid b.uuid with hlt | hEq | hgt
    · simp [List.insertionSort, hlt.le, Nat.not_le.mpr hlt]
    · obtain rfl : a = b := by
        cases a
        cases b
        exact congrArg MemoryId.mk hEq
      rfl
    · simp [List.insertionSort, hgt.le, Nat.not_le.mpr hgt]
  rw [reviewItemKey_eq, reviewItemKey_eq, reviewKeyTail, reviewKeyTail, hSame]

/-- The first letters of the reasons are different, so the key tells the reason. -/
theorem reviewItemKey_reason {r₁ r₂ : ReviewReason} {xs ys : List MemoryId}
    (h : reviewItemKey r₁ xs = reviewItemKey r₂ ys) : r₁ = r₂ := by
  have hHead : ∀ (r : ReviewReason) ids, (reviewItemKey r ids).toList.head? = r.asStr.toList.head? := by
    intro r ids
    rw [reviewItemKey_eq, String.toList_append, String.toList_append]
    cases r <;> rfl
  have hLetters : r₁.asStr.toList.head? = r₂.asStr.toList.head? := by
    rw [← hHead r₁ xs, ← hHead r₂ ys, h]
  cases r₁ <;> cases r₂ <;> first | rfl | exact absurd hLetters (by decide)

/-- What follows the reason is the same when the keys are. -/
theorem reviewItemKey_tail {xs ys : String}
    (h : reason.asStr ++ ":" ++ xs = reason.asStr ++ ":" ++ ys) : xs = ys := by
  have hLists := congrArg String.toList h
  rw [String.toList_append, @String.toList_append (reason.asStr ++ ":") ys] at hLists
  exact String.toList_inj.mp (append_cancel_left hLists)

/-- The key of a single memory tells the memory. -/
theorem reviewItemKey_single_inj (ha : a.uuid < 2 ^ 128) (hb : b.uuid < 2 ^ 128)
    (h : reviewItemKey reason [a] = reviewItemKey reason [b]) : a = b :=
  MemoryId.display_inj ha hb (reviewItemKey_tail h)

/-- Two pairs with one key are the same pair, in one order or the other. -/
theorem reviewItemKey_pair_inj {c d : MemoryId} (ha : a.uuid < 2 ^ 128) (hb : b.uuid < 2 ^ 128)
    (hc : c.uuid < 2 ^ 128) (hd : d.uuid < 2 ^ 128)
    (h : reviewItemKey reason [a, b] = reviewItemKey reason [c, d]) :
    a = c ∧ b = d ∨ a = d ∧ b = c := by
  -- both pairs in order: the texts have the same length, so they agree one by one
  have hOrdered : ∀ {a b c d : MemoryId}, a.uuid < 2 ^ 128 → b.uuid < 2 ^ 128 → c.uuid < 2 ^ 128 →
      d.uuid < 2 ^ 128 → a.uuid ≤ b.uuid → c.uuid ≤ d.uuid →
      reviewItemKey reason [a, b] = reviewItemKey reason [c, d] → a = c ∧ b = d := by
    intro a b c d ha hb hc hd hab hcd h
    rw [reviewItemKey_pair reason hab, reviewItemKey_pair reason hcd] at h
    have hTails := congrArg String.toList (reviewItemKey_tail h)
    simp only [String.toList_append, append_assoc] at hTails
    have hLength : a.display.toList.length = c.display.toList.length := by
      rw [MemoryId.length_display ha, MemoryId.length_display hc]
    obtain ⟨hFirst, hRest⟩ := append_inj hTails hLength
    refine ⟨MemoryId.display_inj ha hc (String.toList_inj.mp hFirst), ?_⟩
    exact MemoryId.display_inj hb hd (String.toList_inj.mp (append_cancel_left hRest))
  rcases le_total a.uuid b.uuid with hab | hba
  · rcases le_total c.uuid d.uuid with hcd | hdc
    · exact .inl (hOrdered ha hb hc hd hab hcd h)
    · rw [reviewItemKey_swap reason c d] at h
      exact .inr (hOrdered ha hb hd hc hab hdc h)
  · rw [reviewItemKey_swap reason a b] at h
    rcases le_total c.uuid d.uuid with hcd | hdc
    · exact .inr (hOrdered hb ha hc hd hba hcd h).symm
    · rw [reviewItemKey_swap reason c d] at h
      exact .inl (hOrdered hb ha hd hc hba hdc h).symm

end RustyBrain
