import Mathlib
import BlockCode.Proofs.Doubles
import BlockCode.Proofs.Numeral

/- That the test on decimals is rounding to the nearest double. `Decimal.roundsTo` compares
   whole numbers and never makes a power of ten that would be too large; `roundsTo_iff`
   says that it holds exactly if the double nearest to the number that is written is the
   integer. Each part of the test has a statement of its own, from the quotient of two
   whole numbers up to the signed decimal. -/
namespace BlockCode.Decimal
open Double

/-! ## Quotients -/

theorem mul_two_pow_le_iff {num den : ℕ} (hden : 0 < den) (k : ℕ) :
    num * Nat.pow 2 k ≤ den ↔ |(num : ℚ) / den| ≤ 1 / 2 ^ k := by
  have hden' : (0 : ℚ) < den := by exact_mod_cast hden
  rw [abs_of_nonneg (by positivity), div_le_div_iff₀ hden' (by positivity), one_mul, Nat.pow_eq,
    ← Nat.cast_le (α := ℚ), Nat.cast_mul, Nat.cast_pow, Nat.cast_ofNat]

theorem quotientRoundsTo_iff {num den n : ℕ} (hden : 0 < den) (hlt : n < 2 ^ 52) :
    quotientRoundsTo num den n = true ↔ Nearest (num / den) n := by
  obtain rfl | hn := Nat.eq_zero_or_pos n
  · rw [quotientRoundsTo, if_pos rfl, decide_eq_true_iff, Nat.cast_zero, nearest_zero_iff]
    generalize 1075 = k
    exact mul_two_pow_le_iff hden k
  · have hreach : reachBelow n ≤ n * 2 ^ 54 := by
      calc reachBelow n ≤ 2 ^ 52 := reachBelow_le hn hlt
        _ ≤ 1 * 2 ^ 54 := by norm_num
        _ ≤ n * 2 ^ 54 := Nat.mul_le_mul_right _ hn
    have hden' : (0 : ℚ) < den := by exact_mod_cast hden
    rw [quotientRoundsTo, if_neg hn.ne', Bool.and_eq_true, decide_eq_true_iff, decide_eq_true_iff,
      nearest_natCast_iff hn hlt, le_div_iff₀ hden', div_le_iff₀ hden', ← Nat.cast_le (α := ℚ),
      ← Nat.cast_le (α := ℚ)]
    simp only [Nat.pow_eq, Nat.cast_mul, Nat.cast_add, Nat.cast_sub hreach, Nat.cast_pow, Nat.cast_ofNat]
    refine and_congr ?_ ?_
    · constructor <;> intro h <;> linarith
    · constructor <;> intro h <;> linarith

/-! ## Magnitudes -/

theorem nearest_iff_eq_zero {v : ℚ} (hv : |v| ≤ 1 / 2 ^ 1075) {n : ℕ} (hlt : n < 2 ^ 52) :
    Nearest v n ↔ n = 0 := by
  have hzero : Nearest v (0 : ℤ) := by
    rw [Int.cast_zero]
    exact nearest_zero_iff.mpr hv
  constructor
  · intro h
    have := Nearest.unique (n := n) (by simpa using hlt) (by norm_num) (by simpa using h) hzero
    exact_mod_cast this
  · rintro rfl
    simpa using hzero

theorem not_nearest_of_add_one_le {v : ℚ} {n : ℕ} (hlt : n < 2 ^ 52) (hv : (n : ℚ) + 1 ≤ v) :
    ¬ Nearest v n := by
  intro h
  have := (abs_le.mp (h.abs_sub_natCast_le hlt)).2
  linarith

theorem tiny_of_length_le {significand length k : ℕ} (hless : significand < 10 ^ length)
    (hle : length + 324 ≤ k) : |(significand : ℚ) / Nat.pow 10 k| ≤ 1 / 2 ^ 1075 := by
  have htwo : Nat.pow 2 1075 ≤ 10 ^ 324 := by decide +kernel
  generalize 1075 = e at htwo ⊢
  have hpow : significand * Nat.pow 2 e ≤ Nat.pow 10 k := by
    calc significand * Nat.pow 2 e ≤ 10 ^ length * 10 ^ 324 := Nat.mul_le_mul hless.le htwo
      _ = 10 ^ (length + 324) := (pow_add 10 length 324).symm
      _ ≤ 10 ^ k := Nat.pow_le_pow_right (by norm_num) hle
  exact (mul_two_pow_le_iff (Nat.pow_pos (by norm_num)) e).mp hpow

theorem add_one_le_mul_ten_pow {significand n k : ℕ} (hne : significand ≠ 0) (hlt : n < k) :
    (n : ℚ) + 1 ≤ (significand * Nat.pow 10 k : ℕ) := by
  have hle : n + 1 ≤ significand * Nat.pow 10 k := by
    calc n + 1 ≤ k := hlt
      _ ≤ Nat.pow 10 k := (Nat.lt_pow_self (by norm_num)).le
      _ ≤ significand * Nat.pow 10 k := Nat.le_mul_of_pos_left _ (Nat.pos_of_ne_zero hne)
  exact_mod_cast hle

theorem magnitudeRoundsTo_iff {d : Decimal} (hdigits : ∀ c ∈ d.digits, c.isDigit) {n : ℕ}
    (hlt : n < 2 ^ 52) :
    d.magnitudeRoundsTo n = true ↔ Nearest (d.significand * 10 ^ d.scale) n := by
  unfold magnitudeRoundsTo
  split
  · next hzero =>
    have hv : |(0 : ℚ)| ≤ 1 / 2 ^ 1075 := by rw [abs_zero]; positivity
    rw [decide_eq_true_iff, hzero, Nat.cast_zero, zero_mul, nearest_iff_eq_zero hv hlt]
  · next hne =>
    split
    · next k hk =>
      have hvalue : (d.significand : ℚ) * 10 ^ d.scale = (d.significand * Nat.pow 10 k : ℕ) := by
        rw [hk, Int.ofNat_eq_natCast, zpow_natCast, Nat.pow_eq, Nat.cast_mul, Nat.cast_pow,
          Nat.cast_ofNat]
      rw [Bool.and_eq_true, decide_eq_true_iff, quotientRoundsTo_iff one_pos hlt, Nat.cast_one,
        div_one, hvalue]
      -- the test on the exponent only saves making the power
      refine and_iff_right_of_imp fun hnearest => ?_
      by_contra hkn
      exact not_nearest_of_add_one_le hlt (add_one_le_mul_ten_pow hne (not_le.mp hkn)) hnearest
    · next k hk =>
      have hvalue : (d.significand : ℚ) * 10 ^ d.scale =
          (d.significand : ℚ) / (Nat.pow 10 (k + 1) : ℕ) := by
        rw [hk, zpow_negSucc, div_eq_mul_inv, Nat.pow_eq, Nat.cast_pow, Nat.cast_ofNat]
      rw [hvalue]
      split
      · next hlong =>
        have hless : d.significand < 10 ^ d.digits.length := ofDigits_lt hdigits
        rw [decide_eq_true_iff, nearest_iff_eq_zero (tiny_of_length_le hless hlong) hlt]
      · exact quotientRoundsTo_iff (Nat.pow_pos (by norm_num)) hlt

/-! ## Signed decimals -/

/-- A magnitude goes to no negative integer. -/
theorem nearest_intCast_iff {m : ℚ} (hm : 0 ≤ m) {v : ℤ} (hlt : v.natAbs < 2 ^ 52) :
    Nearest m v ↔ 0 ≤ v ∧ Nearest m v.natAbs := by
  have hcast (hv : 0 ≤ v) : ((v.natAbs : ℕ) : ℚ) = v := by
    rw [← Int.cast_natCast, Int.natAbs_of_nonneg hv]
  constructor
  · intro h
    have hv : 0 ≤ v := by
      have hle := (abs_le.mp (h.abs_sub_le hlt)).2
      have hgt : (-1 : ℚ) < v := by linarith
      have : -1 < v := by exact_mod_cast hgt
      omega
    exact ⟨hv, by rwa [hcast hv]⟩
  · rintro ⟨hv, h⟩
    rwa [hcast hv] at h

theorem nearest_neg_intCast_iff {m : ℚ} (hm : 0 ≤ m) {v : ℤ} (hlt : v.natAbs < 2 ^ 52) :
    Nearest (-m) v ↔ v ≤ 0 ∧ Nearest m v.natAbs := by
  have h := nearest_intCast_iff hm (v := -v) (by rwa [Int.natAbs_neg])
  rwa [Int.natAbs_neg, Int.neg_nonneg, ← nearest_neg_iff, Int.cast_neg, neg_neg] at h

theorem roundsTo_iff {d : Decimal} (hdigits : ∀ c ∈ d.digits, c.isDigit) {v : ℤ}
    (hlt : v.natAbs < 2 ^ 52) : d.roundsTo v = true ↔ Nearest d.value v := by
  have hm : 0 ≤ (d.significand : ℚ) * 10 ^ d.scale := by positivity
  rw [roundsTo, Bool.and_eq_true, magnitudeRoundsTo_iff hdigits hlt, value_eq]
  have hsign : ((v = 0 || d.negative == decide (v < 0)) = true) ↔
      if d.negative then v ≤ 0 else 0 ≤ v := by
    rw [Bool.or_eq_true, decide_eq_true_iff, beq_iff_eq]
    cases d.negative <;> simp <;> omega
  rw [hsign]
  cases d.negative with
  | false => rw [if_neg Bool.false_ne_true, if_neg Bool.false_ne_true, one_mul,
      nearest_intCast_iff hm hlt]
  | true => rw [if_pos rfl, if_pos rfl, neg_one_mul, nearest_neg_intCast_iff hm hlt]

end BlockCode.Decimal
