import RustyBrain.Types.Basic

/-!
# rusty-brain — truncation to a number of tokens

`truncate_to_tokens` of the crate `rb-tokens`: the last-resort guard that keeps one line within
a token budget. It searches the character boundaries of the text by halving, and asks the
tokenizer, any function on texts here, about one prefix in each turn.

## Results

* `truncate_longest` — what is returned is a prefix that fits, and the longest one when longer
  prefixes never have fewer tokens.
-/

namespace RustyBrain.Tokens

open List

/-- `str::len`: the bytes of a text. -/
def byteLen (text : Text) : Nat := (text.map Char.utf8Size).sum

/-- `char_indices`, the offsets only: where each character starts, the first one at `offset`. -/
def charIndices (offset : Nat) : Text → List Nat
  | [] => []
  | c :: rest => offset :: charIndices (offset + c.utf8Size) rest

/-- `&text[..end]`: the panic, `none`, where no character ends at the offset. -/
def sliceTo : Text → Nat → Option Text
  | _, 0 => some []
  | [], _ + 1 => none
  | c :: rest, e + 1 =>
    if c.utf8Size ≤ e + 1 then (sliceTo rest (e + 1 - c.utf8Size)).map (c :: ·) else none

section Truncate

variable (countTokens : Text → Nat) (text : Text) (maxTokens : Nat)

/-- The loop of `truncate_to_tokens`; the division rounds up, so that `lo` moves. -/
def search (bounds : List Nat) (lo hi : Nat) : Option Nat :=
  if lo < hi then do
    let mid := lo + (hi - lo + 1) / 2
    let cut ← sliceTo text (← bounds[mid]?)
    if countTokens cut ≤ maxTokens then search bounds mid hi else search bounds lo (mid - 1)
  else some lo
termination_by hi - lo

/-- `truncate_to_tokens`. -/
def truncateToTokens : Option Text :=
  if countTokens text ≤ maxTokens then some text
  else do
    let bounds := charIndices 0 text ++ [byteLen text]
    let lo ← search countTokens text maxTokens bounds 0 (bounds.length - 1)
    sliceTo text (← bounds[lo]?)

variable {countTokens text maxTokens}

/-! ## Character boundaries -/

theorem bounds_get (text : Text) (offset : Nat) {i : Nat} (hi : i ≤ text.length) :
    (charIndices offset text ++ [offset + byteLen text])[i]? =
      some (offset + byteLen (text.take i)) := by
  induction text generalizing offset i with
  | nil => simp_all [charIndices]
  | cons c rest ih =>
    cases i with
    | zero => simp [charIndices, byteLen]
    | succ i =>
      have hRest := ih (offset + c.utf8Size) (Nat.le_of_succ_le_succ hi)
      simp only [byteLen, map_cons, sum_cons, take_succ_cons, ← Nat.add_assoc] at hRest ⊢
      exact hRest

theorem length_charIndices (offset : Nat) : (charIndices offset text).length = text.length := by
  induction text generalizing offset with
  | nil => rfl
  | cons c rest ih => simp [charIndices, ih]

theorem sliceTo_take (text : Text) (i : Nat) :
    sliceTo text (byteLen (text.take i)) = some (text.take i) := by
  induction text generalizing i with
  | nil => simp [byteLen, sliceTo]
  | cons c rest ih =>
    cases i with
    | zero => simp [byteLen, sliceTo]
    | succ i =>
      have hSize : byteLen ((c :: rest).take (i + 1)) = c.utf8Size + byteLen (rest.take i) := by
        simp [byteLen]
      obtain ⟨e, he⟩ : ∃ e, c.utf8Size + byteLen (rest.take i) = e + 1 := by
        have hPos := c.utf8Size_pos
        exact ⟨_, (Nat.sub_add_cancel (by omega)).symm⟩
      rw [hSize, he, sliceTo, if_pos (by omega), ← he, Nat.add_sub_cancel_left, ih i]
      rfl

/-! ## The search -/

/-- Prefixes of the text never have more tokens than longer ones. -/
def Monotone (countTokens : Text → Nat) (text : Text) : Prop :=
  ∀ s t, s <+: t → t <+: text → countTokens s ≤ countTokens t

/-- The loop keeps a prefix that fits at `lo`, and, for a monotone count, none that fits above
`hi`. -/
theorem search_spec {lo hi : Nat} (hLe : lo ≤ hi) (hHi : hi ≤ text.length)
    (hLo : countTokens (text.take lo) ≤ maxTokens) :
    ∃ i ≤ text.length, countTokens (text.take i) ≤ maxTokens ∧
      search countTokens text maxTokens (charIndices 0 text ++ [byteLen text]) lo hi = some i ∧
      (Monotone countTokens text → (∀ j, hi < j → j ≤ text.length →
        maxTokens < countTokens (text.take j)) → ∀ j, i < j → j ≤ text.length →
        maxTokens < countTokens (text.take j)) := by
  induction hn : hi - lo using Nat.strong_induction_on generalizing lo hi with
  | h n ih =>
    rw [search]
    by_cases hLt : lo < hi
    · have hBound := bounds_get text 0 (i := lo + (hi - lo + 1) / 2) (by omega)
      simp only [Nat.zero_add] at hBound
      simp only [if_pos hLt, hBound, Option.bind_eq_bind, Option.bind_some, sliceTo_take]
      split
      next hFits => exact ih _ (by omega) (by omega) hHi hFits rfl
      next hOver =>
        obtain ⟨i, hi', hFits, hEq, hAbove⟩ := ih _ (by omega) (by omega)
          (show lo + (hi - lo + 1) / 2 - 1 ≤ text.length by omega) hLo rfl
        refine ⟨i, hi', hFits, hEq, fun hMono hHigh => hAbove hMono fun j hj hjLe => ?_⟩
        -- the prefix at `mid` is part of the one at `j`
        exact (not_le.mp hOver).trans_le <|
          hMono _ _ (take_prefix_take_left (by omega)) <| take_prefix ..
    · rw [if_neg hLt]
      obtain rfl : lo = hi := by omega
      exact ⟨lo, hHi, hLo, rfl, fun _ hHigh => hHigh⟩

/-- **Key result:** truncation never fails; it returns a prefix of the text, cut between two
characters, that is within the bound, and no longer prefix is when the count is monotone. -/
theorem truncate_longest (hEmpty : countTokens [] = 0) (text : Text) (maxTokens : Nat) :
    ∃ p, truncateToTokens countTokens text maxTokens = some p ∧ p <+: text ∧
      countTokens p ≤ maxTokens ∧ (Monotone countTokens text →
        ∀ q, q <+: text → countTokens q ≤ maxTokens → q.length ≤ p.length) := by
  unfold truncateToTokens
  split
  next hFits => exact ⟨text, rfl, prefix_rfl, hFits, fun _ q hq _ => hq.length_le⟩
  · have hNone : countTokens (text.take 0) ≤ maxTokens := by
      rw [take_zero, hEmpty]
      exact Nat.zero_le _
    obtain ⟨i, hi, hFits, hEq, hAbove⟩ := search_spec (Nat.zero_le text.length) le_rfl hNone
    have hBound := bounds_get text 0 hi
    simp only [Nat.zero_add] at hBound
    refine ⟨text.take i, ?_, take_prefix .., hFits, fun hMono q hq hWithin => ?_⟩
    · simp only [length_append, length_charIndices, length_singleton, Nat.add_sub_cancel, hEq,
        Option.bind_eq_bind, Option.bind_some, hBound, sliceTo_take]
    · rw [length_take_of_le hi]
      by_contra hLong
      have hOver := hAbove hMono (fun j hj hjLe => absurd hjLe (by omega)) q.length
        (by omega) hq.length_le
      rw [← prefix_iff_eq_take.mp hq] at hOver
      omega

/-- Three characters of one, two and three bytes, counted by their bytes. -/
theorem truncate_longest_bytes : byteLen [] = 0 ∧
    ∃ p, truncateToTokens byteLen ['a', 'é', '漢'] 4 = some p ∧ p <+: ['a', 'é', '漢'] ∧
      byteLen p ≤ 4 ∧ ∀ q, q <+: ['a', 'é', '漢'] → byteLen q ≤ 4 → q.length ≤ p.length := by
  have hEmpty : byteLen [] = 0 := rfl
  obtain ⟨p, hEq, hPrefix, hFits, hLongest⟩ := truncate_longest hEmpty ['a', 'é', '漢'] 4
  refine ⟨hEmpty, p, hEq, hPrefix, hFits, hLongest ?_⟩
  rintro s _ ⟨t, rfl⟩ -
  simp [byteLen]

end Truncate

end RustyBrain.Tokens
