import RustyBrain.Types.Update

/-!
# rusty-brain — single precision keeps the order

The scores of the store are `f32` values of distances that the vector table computed. Rounding
to 24 bits can make two different values equal; it never turns their order around.
-/

namespace RustyBrain

variable {q r : ℚ}

/-! ## The nearest integer -/

/-- Rounding goes to the floor or to the integer after it. -/
theorem roundHalfEven_cases (q : ℚ) : roundHalfEven q = ⌊q⌋ ∨ roundHalfEven q = ⌊q⌋ + 1 := by
  unfold roundHalfEven
  dsimp only
  split_ifs
  · exact .inl rfl
  · exact .inr rfl
  · exact .inl rfl
  · exact .inr rfl

theorem roundHalfEven_intCast (k : ℤ) : roundHalfEven (k : ℚ) = k := by
  unfold roundHalfEven
  simp

/-- Rounding to the nearest integer keeps the order. -/
theorem roundHalfEven_mono (h : q ≤ r) : roundHalfEven q ≤ roundHalfEven r := by
  have hFloor : ⌊q⌋ ≤ ⌊r⌋ := Int.floor_le_floor h
  rcases hFloor.lt_or_eq with hLess | hSame
  · -- the floors differ, so the integer after the first is no more than the second
    rcases roundHalfEven_cases q with hq | hq <;> rcases roundHalfEven_cases r with hr | hr <;>
      omega
  · unfold roundHalfEven
    dsimp only
    rw [hSame]
    have hPart : q - (⌊r⌋ : ℚ) ≤ r - (⌊r⌋ : ℚ) := by linarith
    split_ifs <;> first | omega | linarith

/-- The rounding is the same on both sides of zero. -/
theorem roundHalfEven_neg (q : ℚ) : roundHalfEven (-q) = -roundHalfEven q := by
  by_cases hInt : (⌊q⌋ : ℚ) = q
  · rw [← hInt, ← Int.cast_neg, roundHalfEven_intCast, roundHalfEven_intCast]
  · -- the fraction of the opposite number is what is missing to one
    have hBelow : (⌊q⌋ : ℚ) < q := lt_of_le_of_ne (Int.floor_le q) hInt
    have hAbove : q < ⌊q⌋ + 1 := Int.lt_floor_add_one q
    have hFloor : ⌊-q⌋ = -⌊q⌋ - 1 := by
      rw [Int.floor_eq_iff]
      push_cast
      constructor
      · linarith
      · linarith
    unfold roundHalfEven
    dsimp only
    rw [hFloor]
    push_cast
    split_ifs <;> first | omega | linarith

/-! ## The nearest `f32` -/

/-- The exponent of the last bit that an `f32` near `q` has. -/
def f32Exponent (q : ℚ) : ℤ := max (Int.log 2 |q| - 23) (-149)

theorem f32Round_of_ne_zero (h : q ≠ 0) :
    f32Round q = roundHalfEven (q / 2 ^ f32Exponent q) * 2 ^ f32Exponent q := by
  unfold f32Round f32Exponent
  rw [if_neg h]

theorem f32Round_neg (q : ℚ) : f32Round (-q) = -f32Round q := by
  by_cases hZero : q = 0
  · rw [hZero, neg_zero]
    unfold f32Round
    rw [if_pos rfl, neg_zero]
  · have hExponent : f32Exponent (-q) = f32Exponent q := by
      unfold f32Exponent
      rw [abs_neg]
    rw [f32Round_of_ne_zero hZero, f32Round_of_ne_zero (neg_ne_zero.mpr hZero), hExponent, neg_div,
      roundHalfEven_neg, Int.cast_neg, neg_mul]

/-- A value at most `k` steps of the last bit is rounded to at most `k` steps. -/
theorem f32Round_le_of_le (hq : q ≠ 0) {k : ℤ} (h : q ≤ k * 2 ^ f32Exponent q) :
    f32Round q ≤ k * 2 ^ f32Exponent q := by
  have hUlp : (0 : ℚ) < 2 ^ f32Exponent q := zpow_pos (by norm_num) _
  rw [f32Round_of_ne_zero hq]
  refine mul_le_mul_of_nonneg_right ?_ hUlp.le
  rw [Int.cast_le, ← roundHalfEven_intCast k]
  exact roundHalfEven_mono ((div_le_iff₀ hUlp).mpr h)

theorem le_f32Round_of_le (hq : q ≠ 0) {k : ℤ} (h : k * 2 ^ f32Exponent q ≤ q) :
    k * 2 ^ f32Exponent q ≤ f32Round q := by
  have hUlp : (0 : ℚ) < 2 ^ f32Exponent q := zpow_pos (by norm_num) _
  rw [f32Round_of_ne_zero hq]
  refine mul_le_mul_of_nonneg_right ?_ hUlp.le
  rw [Int.cast_le, ← roundHalfEven_intCast k]
  exact roundHalfEven_mono ((le_div_iff₀ hUlp).mpr h)

theorem f32Round_nonneg (h : 0 ≤ q) : 0 ≤ f32Round q := by
  rcases h.eq_or_lt with rfl | hPos
  · unfold f32Round
    rw [if_pos rfl]
  · have hStep := le_f32Round_of_le (k := 0) hPos.ne' (by simpa using h)
    simpa using hStep

/-- Between positive values: with one exponent the integers decide, and with two there is a
power of two between the values that both of their grids have. -/
theorem f32Round_mono_pos (hq : 0 < q) (h : q ≤ r) : f32Round q ≤ f32Round r := by
  have hr : 0 < r := lt_of_lt_of_le hq h
  have hLog : Int.log 2 |q| ≤ Int.log 2 |r| := by
    rw [abs_of_pos hq, abs_of_pos hr]
    exact Int.log_mono_right hq h
  by_cases hSame : f32Exponent q = f32Exponent r
  · have hUlp : (0 : ℚ) < 2 ^ f32Exponent r := zpow_pos (by norm_num) _
    rw [f32Round_of_ne_zero hq.ne', f32Round_of_ne_zero hr.ne', hSame]
    refine mul_le_mul_of_nonneg_right (Int.cast_le.mpr (roundHalfEven_mono ?_)) hUlp.le
    exact div_le_div_of_nonneg_right h hUlp.le
  · -- the larger value is a normal number, at least the power of two of its logarithm
    have hTop : f32Exponent r = Int.log 2 |r| - 23 ∧ Int.log 2 |q| + 1 ≤ Int.log 2 |r| ∧
        f32Exponent q ≤ Int.log 2 |r| := by
      unfold f32Exponent at hSame ⊢
      omega
    obtain ⟨hNormal, hLess, hFine⟩ := hTop
    have hBelow : q ≤ 2 ^ Int.log 2 |r| := by
      have hNext : q < 2 ^ (Int.log 2 |q| + 1) := by
        simpa [abs_of_pos hq] using Int.lt_zpow_succ_log_self (R := ℚ) (b := 2) (by norm_num) |q|
      exact hNext.le.trans (zpow_le_zpow_right₀ (by norm_num) hLess)
    have hAbove : (2 : ℚ) ^ Int.log 2 |r| ≤ r := by
      simpa [abs_of_pos hr] using Int.zpow_log_le_self (b := 2) (r := |r|) (by norm_num)
        (abs_pos.mpr hr.ne')
    have hGrid : ∀ {e : ℤ}, e ≤ Int.log 2 |r| →
        (2 : ℚ) ^ Int.log 2 |r| = ((2 ^ (Int.log 2 |r| - e).toNat : ℤ) : ℚ) * 2 ^ e := by
      intro e he
      push_cast
      rw [← zpow_natCast, Int.toNat_of_nonneg (by omega), ← zpow_add₀ (by norm_num)]
      congr 1
      omega
    calc f32Round q ≤ 2 ^ Int.log 2 |r| := by
          rw [hGrid hFine]
          exact f32Round_le_of_le hq.ne' (hGrid hFine ▸ hBelow)
      _ ≤ f32Round r := by
          have hr' : f32Exponent r ≤ Int.log 2 |r| := by omega
          rw [hGrid hr']
          exact le_f32Round_of_le hr.ne' (hGrid hr' ▸ hAbove)

/-- Rounding to an `f32` keeps the order. -/
theorem f32Round_mono (h : q ≤ r) : f32Round q ≤ f32Round r := by
  rcases lt_or_ge 0 q with hq | hq
  · exact f32Round_mono_pos hq h
  · rcases lt_or_ge r 0 with hr | hr
    · -- both are negative: turn them around
      have hNeg := f32Round_mono_pos (neg_pos.mpr hr) (neg_le_neg h)
      rw [f32Round_neg, f32Round_neg] at hNeg
      exact neg_le_neg_iff.mp hNeg
    · have hLow : f32Round q ≤ 0 := by
        have hNeg := f32Round_nonneg (neg_nonneg.mpr hq)
        rw [f32Round_neg] at hNeg
        exact neg_nonneg.mp hNeg
      exact hLow.trans (f32Round_nonneg hr)

theorem clampUnit_mono (h : q ≤ r) : clampUnit q ≤ clampUnit r :=
  max_le_max le_rfl (min_le_min h le_rfl)

end RustyBrain
