import Mathlib
import BlockCode.Decimal

/- Doubles and rounding to them. `Double.Nearest v x` says that `x` is the double that is
   nearest to the number `v`, where a tie goes to the double with an even significand. It is
   stated by comparison with all doubles; nothing here computes one.

   To know the numbers that go to a double with an even significand it is enough to know
   the doubles next to it: they are the numbers from the one midpoint to the other, with
   both of them (`Neighbours.nearest_iff`). Which doubles are next to an integer follows
   from two facts on the spacing of doubles (`IsDouble.add_le_of_lt`,
   `IsDouble.le_sub_of_lt`). The results are `nearest_zero_iff` and
   `nearest_natCast_iff`. -/
namespace BlockCode

namespace Double

/-- A significand and an exponent that a double can have. -/
structure InRange (m e : ℤ) : Prop where
  significand : |m| < 2 ^ 53
  least : -1074 ≤ e
  greatest : e ≤ 971

/-- The finite doubles, as numbers. -/
def IsDouble (x : ℚ) : Prop := ∃ m e, InRange m e ∧ x = m * 2 ^ e

/-- The doubles whose significand ends in a zero bit. It has all its 53 bits, unless the
exponent is the least there is. -/
def IsEven (x : ℚ) : Prop :=
  ∃ m e, InRange m e ∧ (2 ^ 52 ≤ |m| ∨ e = -1074) ∧ x = m * 2 ^ e ∧ Even m

/-- From here on numbers go to infinity: half a unit above the greatest double. -/
def overflow : ℚ := 2 ^ 1024 - 2 ^ 970

/-- The double `x` is nearest to `v`. Of two that are equally near it is the even one. -/
structure Nearest (v x : ℚ) : Prop where
  finite : |v| < overflow
  double : IsDouble x
  nearest : ∀ y, IsDouble y → |v - x| ≤ |v - y|
  even : ∀ y, IsDouble y → y ≠ x → |v - y| = |v - x| → IsEven x

theorem IsEven.isDouble {x : ℚ} (h : IsEven x) : IsDouble x := by
  obtain ⟨m, e, hrange, _, hx, _⟩ := h
  exact ⟨m, e, hrange, hx⟩

/-! ## Negative numbers -/

theorem InRange.neg {m e : ℤ} (h : InRange m e) : InRange (-m) e :=
  ⟨by rw [abs_neg]; exact h.significand, h.least, h.greatest⟩

theorem IsDouble.neg {x : ℚ} (h : IsDouble x) : IsDouble (-x) := by
  obtain ⟨m, e, hrange, rfl⟩ := h
  exact ⟨-m, e, hrange.neg, by push_cast; ring⟩

theorem IsEven.neg {x : ℚ} (h : IsEven x) : IsEven (-x) := by
  obtain ⟨m, e, hrange, hbits, rfl, heven⟩ := h
  exact ⟨-m, e, hrange.neg, by rwa [abs_neg], by push_cast; ring, heven.neg⟩

theorem Nearest.neg {v x : ℚ} (h : Nearest v x) : Nearest (-v) (-x) where
  finite := by rw [abs_neg]; exact h.finite
  double := h.double.neg
  nearest y hy := by
    have := h.nearest (-y) hy.neg
    rwa [← abs_neg, ← abs_neg (v - -y), show -(v - x) = -v - -x by ring,
      show -(v - -y) = -v - y by ring] at this
  even y hy hne htie := by
    refine (h.even (-y) hy.neg ?_ ?_).neg
    · rintro rfl
      exact hne (neg_neg y).symm
    · rw [← abs_neg, ← abs_neg (v - x), show -(v - -y) = -v - y by ring,
        show -(v - x) = -v - -x by ring, htie]

theorem nearest_neg_iff {v x : ℚ} : Nearest (-v) (-x) ↔ Nearest v x := by
  constructor
  · intro h
    have := h.neg
    rwa [neg_neg, neg_neg] at this
  · exact Nearest.neg

/-! ## The spacing of doubles -/

theorem exists_multiple (m : ℤ) {t e : ℤ} (h : t ≤ e) : ∃ k : ℤ, (m : ℚ) * 2 ^ e = k * 2 ^ t := by
  refine ⟨m * 2 ^ (e - t).toNat, ?_⟩
  have hexp : (2 : ℚ) ^ e = 2 ^ (e - t).toNat * 2 ^ t := by
    rw [← zpow_natCast, ← zpow_add₀ two_ne_zero, Int.toNat_of_nonneg (by omega)]
    congr 1
    omega
  rw [hexp]
  push_cast
  ring

theorem mul_zpow_le {m e t : ℤ} (hm : |m| < 2 ^ 53) (h : e < t) :
    (m : ℚ) * 2 ^ e ≤ 2 ^ 52 * 2 ^ t := by
  have hle : (m : ℚ) ≤ 2 ^ 53 := by exact_mod_cast ((le_abs_self m).trans_lt hm).le
  have ht : (2 : ℚ) ^ t = 2 * 2 ^ (t - 1) := by
    rw [zpow_sub_one₀ two_ne_zero]
    ring
  calc (m : ℚ) * 2 ^ e ≤ 2 ^ 53 * 2 ^ e := by gcongr
    _ ≤ 2 ^ 53 * 2 ^ (t - 1) := by
      gcongr
      · norm_num
      · omega
    _ = 2 ^ 52 * 2 ^ t := by rw [ht]; ring

/-- From a double with all its bits it is at least one unit to the next. -/
theorem IsDouble.add_le_of_lt {y : ℚ} (h : IsDouble y) {j t : ℤ} (hj : 2 ^ 52 ≤ j)
    (hlt : j * 2 ^ t < y) : ((j + 1 : ℤ) : ℚ) * 2 ^ t ≤ y := by
  obtain ⟨m, e, hrange, rfl⟩ := h
  have ht : (0 : ℚ) < 2 ^ t := by positivity
  -- a double is a multiple of the unit, or it has a smaller exponent and is too small
  by_cases hte : t ≤ e
  · obtain ⟨k, hk⟩ := exists_multiple m hte
    rw [hk] at hlt ⊢
    have hjk : j < k := by exact_mod_cast lt_of_mul_lt_mul_right hlt ht.le
    have hjk' : ((j + 1 : ℤ) : ℚ) ≤ k := by exact_mod_cast hjk
    gcongr
  · have hsmall := mul_zpow_le hrange.significand (by omega : e < t)
    have hj' : (2 : ℚ) ^ 52 ≤ j := by exact_mod_cast hj
    have : (2 : ℚ) ^ 52 * 2 ^ t ≤ j * 2 ^ t := by gcongr
    linarith

/-- Down to the double before it is one unit, if all bits remain. -/
theorem IsDouble.le_sub_of_lt {y : ℚ} (h : IsDouble y) {j t : ℤ} (hj : 2 ^ 52 < j)
    (hlt : y < j * 2 ^ t) : y ≤ ((j - 1 : ℤ) : ℚ) * 2 ^ t := by
  obtain ⟨m, e, hrange, rfl⟩ := h
  have ht : (0 : ℚ) < 2 ^ t := by positivity
  by_cases hte : t ≤ e
  · obtain ⟨k, hk⟩ := exists_multiple m hte
    rw [hk] at hlt ⊢
    have hkj : k < j := by exact_mod_cast lt_of_mul_lt_mul_right hlt ht.le
    have hkj' : (k : ℚ) ≤ ((j - 1 : ℤ) : ℚ) := by exact_mod_cast (by omega : k ≤ j - 1)
    gcongr
  · have hj' : (2 : ℚ) ^ 52 ≤ ((j - 1 : ℤ) : ℚ) := by exact_mod_cast (by omega : 2 ^ 52 ≤ j - 1)
    calc (m : ℚ) * 2 ^ e ≤ 2 ^ 52 * 2 ^ t := mul_zpow_le hrange.significand (by omega)
      _ ≤ ((j - 1 : ℤ) : ℚ) * 2 ^ t := by gcongr

theorem IsDouble.abs_lt {y : ℚ} (h : IsDouble y) : |y| < overflow := by
  obtain ⟨m, e, hrange, rfl⟩ := h
  obtain ⟨c, hc⟩ : ∃ c : ℚ, c = 2 ^ 970 := ⟨_, rfl⟩
  have hpos : 0 < c := by rw [hc]; positivity
  have hm : |(m : ℚ)| ≤ 2 ^ 53 - 1 := by
    have : |m| ≤ 2 ^ 53 - 1 := Int.le_sub_one_of_lt hrange.significand
    exact_mod_cast this
  have he : (2 : ℚ) ^ e ≤ 2 * c := by
    calc (2 : ℚ) ^ e ≤ 2 ^ (971 : ℤ) := zpow_le_zpow_right₀ (by norm_num) hrange.greatest
      _ = 2 ^ 971 := zpow_natCast 2 971
      _ = 2 * c := by rw [hc]; exact pow_succ' 2 970
  have htop : overflow = 2 ^ 54 * c - c := by
    rw [overflow, hc]
    congr 1
    exact pow_add 2 54 970
  have hpow : (0 : ℚ) < 2 ^ e := by positivity
  calc |(m : ℚ) * 2 ^ e| = |(m : ℚ)| * 2 ^ e := by rw [abs_mul, abs_of_pos hpow]
    _ ≤ (2 ^ 53 - 1) * (2 * c) := by gcongr
    _ < overflow := by rw [htop]; linarith only [hpos]

/-! ## The doubles next to a double -/

/-- The double `x` has an even significand, and stands between the other two with no double in
between. -/
structure Neighbours (lo x hi : ℚ) : Prop where
  even : IsEven x
  lower : IsDouble lo
  upper : IsDouble hi
  lt : lo < x ∧ x < hi
  below : ∀ y, IsDouble y → y < x → y ≤ lo
  above : ∀ y, IsDouble y → x < y → hi ≤ y

/-- What goes to a double with an even significand lies between the midpoints to the doubles
next to it; the midpoints belong to it. -/
theorem Neighbours.nearest_iff {lo x hi v : ℚ} (h : Neighbours lo x hi) :
    Nearest v x ↔ (lo + x) / 2 ≤ v ∧ v ≤ (x + hi) / 2 := by
  obtain ⟨hlo, hhi⟩ := h.lt
  constructor
  · intro hv
    have hlower := hv.nearest lo h.lower
    have hupper := hv.nearest hi h.upper
    -- beyond a midpoint the neighbour is nearer
    constructor
    · by_contra hlt
      push Not at hlt
      have : |v - lo| < x - v := abs_sub_lt_iff.mpr ⟨by linarith, by linarith⟩
      have := neg_le_abs (v - x)
      linarith
    · by_contra hlt
      push Not at hlt
      have : |v - hi| < v - x := abs_sub_lt_iff.mpr ⟨by linarith, by linarith⟩
      have := le_abs_self (v - x)
      linarith
  · rintro ⟨hlower, hupper⟩
    refine ⟨?_, h.even.isDouble, ?_, fun _ _ _ _ => h.even⟩
    · have := abs_lt.mp h.lower.abs_lt
      have := abs_lt.mp h.upper.abs_lt
      exact abs_lt.mpr ⟨by linarith, by linarith⟩
    · intro y hy
      -- any other double is at least as far off as the neighbour on its side
      obtain hlt | rfl | hgt := lt_trichotomy y x
      · have := h.below y hy hlt
        have := le_abs_self (v - y)
        exact abs_sub_le_iff.mpr ⟨by linarith, by linarith⟩
      · exact le_refl _
      · have := h.above y hy hgt
        have := neg_le_abs (v - y)
        exact abs_sub_le_iff.mpr ⟨by linarith, by linarith⟩

/-! ### Zero -/

theorem isDouble_least : IsDouble (2 ^ (-1074 : ℤ)) :=
  ⟨1, -1074, ⟨by norm_num, le_refl _, by norm_num⟩, by rw [Int.cast_one, one_mul]⟩

theorem IsDouble.least_le {y : ℚ} (h : IsDouble y) (hy : 0 < y) : 2 ^ (-1074 : ℤ) ≤ y := by
  obtain ⟨m, e, hrange, rfl⟩ := h
  have hpow : (0 : ℚ) < 2 ^ e := by positivity
  have hm : (1 : ℚ) ≤ m := by
    have : (0 : ℚ) < m := pos_of_mul_pos_left hy hpow.le
    exact_mod_cast this
  calc (2 : ℚ) ^ (-1074 : ℤ) ≤ 2 ^ e := zpow_le_zpow_right₀ (by norm_num) hrange.least
    _ ≤ m * 2 ^ e := le_mul_of_one_le_left hpow.le hm

theorem neighbours_zero : Neighbours (-2 ^ (-1074 : ℤ)) 0 (2 ^ (-1074 : ℤ)) where
  even := ⟨0, -1074, ⟨by norm_num, le_refl _, by norm_num⟩, .inr rfl, by simp, Even.zero⟩
  lower := isDouble_least.neg
  upper := isDouble_least
  lt := by
    have : (0 : ℚ) < 2 ^ (-1074 : ℤ) := by positivity
    exact ⟨neg_lt_zero.mpr this, this⟩
  below y hy hlt := le_neg.mp (hy.neg.least_le (neg_pos.mpr hlt))
  above y hy hlt := hy.least_le hlt

/-! ### Positive integers -/

open Decimal (reachAbove reachBelow)

theorem reachAbove_pos (n : ℕ) : 0 < reachAbove n := Nat.pow_pos two_pos

theorem reachBelow_pos (n : ℕ) : 0 < reachBelow n := by
  unfold reachBelow
  split <;> exact Nat.pow_pos two_pos

/-- The doubles from an integer up stand `reachAbove` units of `2 ^ -53` apart: the integer has
all its bits after a shift that makes this distance a whole. -/
theorem exists_shift_above {n : ℕ} (hn : 0 < n) (hlt : n < 2 ^ 52) :
    ∃ s, 0 < s ∧ s ≤ 52 ∧ reachAbove n * 2 ^ s = 2 ^ 53 ∧ 2 ^ 52 ≤ n * 2 ^ s ∧
      n * 2 ^ s + 2 ≤ 2 ^ 53 := by
  have hlog : n.log2 < 52 := (Nat.log2_lt hn.ne').mpr hlt
  obtain ⟨s, hs⟩ : ∃ s, n.log2 + s = 52 := ⟨52 - n.log2, by omega⟩
  have hreach : reachAbove n * 2 ^ s = 2 ^ 53 := by
    calc reachAbove n * 2 ^ s = 2 ^ (n.log2 + 1 + s) := (pow_add 2 _ s).symm
      _ = 2 ^ 53 := by rw [add_right_comm, hs]
  have hlow : 2 ^ n.log2 ≤ n := Nat.log2_self_le hn.ne'
  have hhigh : n + 1 ≤ reachAbove n := Nat.lt_log2_self
  have htwo : 2 ^ 1 ≤ 2 ^ s := Nat.pow_le_pow_right two_pos (by omega)
  refine ⟨s, by omega, by omega, hreach, ?_, ?_⟩
  · calc 2 ^ 52 = 2 ^ n.log2 * 2 ^ s := by rw [← hs, pow_add]
      _ ≤ n * 2 ^ s := Nat.mul_le_mul_right _ hlow
  · calc n * 2 ^ s + 2 ≤ (n + 1) * 2 ^ s := by rw [add_mul]; omega
      _ ≤ reachAbove n * 2 ^ s := Nat.mul_le_mul_right _ hhigh
      _ = 2 ^ 53 := hreach

/-- Below a power of two the doubles stand twice as close as above it. -/
theorem exists_shift_below {n : ℕ} (hn : 0 < n) (hlt : n < 2 ^ 52) :
    ∃ s, s ≤ 53 ∧ reachBelow n * 2 ^ s = 2 ^ 53 ∧ 2 ^ 52 < n * 2 ^ s ∧ n * 2 ^ s ≤ 2 ^ 53 := by
  obtain ⟨s, hs, hs', hreach, hlow, hhigh⟩ := exists_shift_above hn hlt
  by_cases htwo : Nat.pow 2 n.log2 = n
  · have hbelow : reachBelow n = n := (if_pos htwo).trans htwo
    have habove : reachAbove n = n * 2 := by
      calc reachAbove n = 2 ^ n.log2 * 2 := pow_succ 2 n.log2
        _ = n * 2 := congrArg (· * 2) htwo
    have hn53 : n * 2 ^ (s + 1) = 2 ^ 53 := by rw [← hreach, habove, pow_succ']; ring
    exact ⟨s + 1, by omega, by rw [hbelow, hn53], by rw [hn53]; norm_num, hn53.le⟩
  · have hbelow : reachBelow n = reachAbove n := if_neg htwo
    refine ⟨s, by omega, by rw [hbelow, hreach], ?_, by omega⟩
    have hlow' : 2 ^ n.log2 < n := lt_of_le_of_ne (Nat.log2_self_le hn.ne') htwo
    have habove : reachAbove n = 2 ^ n.log2 * 2 := pow_succ 2 n.log2
    have hpos : 0 < 2 ^ s := by positivity
    have := Nat.mul_lt_mul_of_pos_right hlow' hpos
    rw [habove, mul_right_comm] at hreach
    omega

theorem add_steps (n : ℕ) {reach s : ℕ} (h : reach * 2 ^ s = 2 ^ 53) (k : ℤ) :
    (n : ℚ) + k * (reach / 2 ^ 53) = (((n * 2 ^ s : ℕ) + k : ℤ) : ℚ) * 2 ^ (-s : ℤ) := by
  have hunit : (reach : ℚ) / 2 ^ 53 = (2 ^ s)⁻¹ := by
    rw [div_eq_iff (by positivity), eq_inv_mul_iff_mul_eq₀ (by positivity), mul_comm]
    exact_mod_cast h
  rw [hunit, zpow_neg, zpow_natCast]
  push_cast
  field_simp

theorem neighbours_natCast {n : ℕ} (hn : 0 < n) (hlt : n < 2 ^ 52) :
    Neighbours (n - reachBelow n / 2 ^ 53) n (n + reachAbove n / 2 ^ 53) := by
  obtain ⟨s, hs, hs', hreach, hlow, hhigh⟩ := exists_shift_above hn hlt
  obtain ⟨r, hr, hreach', hlow', hhigh'⟩ := exists_shift_below hn hlt
  have hx : (n : ℚ) = ((n * 2 ^ s : ℕ) : ℤ) * 2 ^ (-s : ℤ) := by simp
  have hx' : (n : ℚ) = ((n * 2 ^ r : ℕ) : ℤ) * 2 ^ (-r : ℤ) := by simp
  have hnext := add_steps n hreach 1
  have hprevious := add_steps n hreach' (-1)
  rw [Int.cast_one, one_mul] at hnext
  rw [Int.cast_neg, Int.cast_one, neg_one_mul, ← sub_eq_add_neg, ← sub_eq_add_neg] at hprevious
  refine ⟨?_, ?_, ?_, ⟨?_, ?_⟩, ?_, ?_⟩
  · -- after the shift that fills all bits the last one is zero
    have heven : Even (n * 2 ^ s) := (Nat.even_pow.mpr ⟨even_two, hs.ne'⟩).mul_left n
    refine ⟨(n * 2 ^ s : ℕ), -s, ⟨?_, by omega, by omega⟩, .inl ?_, hx, by exact_mod_cast heven⟩
    · rw [Nat.abs_cast]
      omega
    · rw [Nat.abs_cast]
      exact_mod_cast hlow
  · rw [hprevious]
    refine ⟨_, _, ⟨?_, by omega, by omega⟩, rfl⟩
    exact abs_lt.mpr ⟨by omega, by omega⟩
  · rw [hnext]
    refine ⟨_, _, ⟨?_, by omega, by omega⟩, rfl⟩
    exact abs_lt.mpr ⟨by omega, by omega⟩
  · have := reachBelow_pos n
    exact sub_lt_self _ (by positivity)
  · have := reachAbove_pos n
    exact lt_add_of_pos_right _ (by positivity)
  · intro y hy hlt
    rw [hx'] at hlt
    rw [hprevious]
    exact hy.le_sub_of_lt (by exact_mod_cast hlow') hlt
  · intro y hy hlt
    rw [hx] at hlt
    rw [hnext]
    exact hy.add_le_of_lt (by exact_mod_cast hlow) hlt

/-! ## What goes to an integer -/

theorem nearest_zero_iff {v : ℚ} : Nearest v 0 ↔ |v| ≤ 1 / 2 ^ 1075 := by
  have hhalf : (2 : ℚ) ^ (-1074 : ℤ) / 2 = 1 / 2 ^ 1075 := by
    calc (2 : ℚ) ^ (-1074 : ℤ) / 2 = 2 ^ (-1074 - 1 : ℤ) := by
          rw [zpow_sub_one₀ two_ne_zero, div_eq_mul_inv]
      _ = (2 ^ 1075)⁻¹ := zpow_negSucc 2 1074
      _ = 1 / 2 ^ 1075 := inv_eq_one_div _
  rw [neighbours_zero.nearest_iff, add_zero, zero_add, neg_div, hhalf, abs_le]

theorem nearest_natCast_iff {n : ℕ} (hn : 0 < n) (hlt : n < 2 ^ 52) {v : ℚ} :
    Nearest v n ↔ n - reachBelow n / 2 ^ 54 ≤ v ∧ v ≤ n + reachAbove n / 2 ^ 54 := by
  have hlo : ((n : ℚ) - reachBelow n / 2 ^ 53 + n) / 2 = n - reachBelow n / 2 ^ 54 := by ring
  have hhi : ((n : ℚ) + (n + reachAbove n / 2 ^ 53)) / 2 = n + reachAbove n / 2 ^ 54 := by ring
  rw [(neighbours_natCast hn hlt).nearest_iff, hlo, hhi]

theorem reachAbove_le {n : ℕ} (hn : 0 < n) (hlt : n < 2 ^ 52) : reachAbove n ≤ 2 ^ 52 := by
  obtain ⟨s, hs, _, hreach, _⟩ := exists_shift_above hn hlt
  have htwo : 2 ^ 1 ≤ 2 ^ s := Nat.pow_le_pow_right two_pos hs
  have := Nat.mul_le_mul_left (reachAbove n) htwo
  omega

theorem reachBelow_le {n : ℕ} (hn : 0 < n) (hlt : n < 2 ^ 52) : reachBelow n ≤ 2 ^ 52 := by
  refine Nat.le_trans ?_ (reachAbove_le hn hlt)
  unfold reachBelow reachAbove
  split
  · exact Nat.pow_le_pow_right two_pos (Nat.le_succ _)
  · exact Nat.le_refl _

theorem Nearest.abs_sub_natCast_le {n : ℕ} (hlt : n < 2 ^ 52) {v : ℚ} (h : Nearest v n) :
    |v - n| ≤ 1 / 4 := by
  obtain rfl | hn := Nat.eq_zero_or_pos n
  · rw [Nat.cast_zero] at h ⊢
    rw [sub_zero]
    refine (nearest_zero_iff.mp h).trans (one_div_le_one_div_of_le (by norm_num) ?_)
    calc (4 : ℚ) = 2 ^ 2 := by norm_num
      _ ≤ 2 ^ 1075 := pow_le_pow_right₀ (by norm_num) (by norm_num)
  · obtain ⟨hlow, hhigh⟩ := (nearest_natCast_iff hn hlt).mp h
    have habove : (reachAbove n : ℚ) ≤ 2 ^ 52 := by exact_mod_cast reachAbove_le hn hlt
    have hbelow : (reachBelow n : ℚ) ≤ 2 ^ 52 := by exact_mod_cast reachBelow_le hn hlt
    exact abs_sub_le_iff.mpr ⟨by linarith, by linarith⟩

/-- A number goes to an integer only if it is close to it. -/
theorem Nearest.abs_sub_le {n : ℤ} (hlt : n.natAbs < 2 ^ 52) {v : ℚ} (h : Nearest v n) :
    |v - n| ≤ 1 / 4 := by
  obtain ⟨k, rfl | rfl⟩ := Int.eq_nat_or_neg n
  · rw [Int.cast_natCast] at h ⊢
    exact h.abs_sub_natCast_le (by simpa using hlt)
  · rw [Int.cast_neg, Int.cast_natCast] at h ⊢
    have hclose := h.neg
    rw [neg_neg] at hclose
    have := hclose.abs_sub_natCast_le (by simpa using hlt)
    rwa [← abs_neg, show -(-v - k) = v - -(k : ℚ) by ring] at this

theorem Nearest.unique {n m : ℤ} (hn : n.natAbs < 2 ^ 52) (hm : m.natAbs < 2 ^ 52) {v : ℚ}
    (h : Nearest v n) (h' : Nearest v m) : n = m := by
  obtain ⟨hlow, hhigh⟩ := abs_le.mp (h.abs_sub_le hn)
  obtain ⟨hlow', hhigh'⟩ := abs_le.mp (h'.abs_sub_le hm)
  have hless : (n : ℚ) < m + 1 := by linarith
  have hless' : (m : ℚ) < n + 1 := by linarith
  have : n < m + 1 := by exact_mod_cast hless
  have : m < n + 1 := by exact_mod_cast hless'
  omega

end Double

end BlockCode
