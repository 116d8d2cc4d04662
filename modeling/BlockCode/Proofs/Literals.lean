import Mathlib
import BlockCode.Proofs.Rounding

/- Which literals select a constant. A literal selects the constant to which the number that
   it writes down is rounded, of the type that its spelling asks for; `Constant.interval`
   gives the numbers that go to each constant, and `literal_selects_iff` says that these are
   all of them.

   So a literal need not be exact. How far off it may be, and with how many places after
   the point it cannot be off at all, is `literal_exact_iff`. -/
namespace BlockCode

open Decimal Double

namespace Constant

theorem natAbs_value_lt (c : Constant) : c.value.natAbs < 2 ^ 52 := by
  cases c <;> decide

theorem eq_of_value {c c' : Constant} (hfloat : c.isFloat = c'.isFloat)
    (hvalue : c.value = c'.value) : c = c' := by
  have h : ∀ a ∈ (Enumerated.values : List Constant), ∀ b ∈ (Enumerated.values : List Constant),
      a.isFloat = b.isFloat → a.value = b.value → a = b := by decide
  exact h c (Enumerated.complete c) c' (Enumerated.complete c') hfloat hvalue

theorem ofNumeral?_eq_some_iff {t : List Char} {c : Constant} :
    ofNumeral? t = some c ↔
      ∃ d, IsNumeral t d ∧ (c.isFloat ↔ '.' ∈ t) ∧ Nearest d.value c.value := by
  rw [ofNumeral?, Option.bind_eq_some_iff]
  refine exists_congr fun d => ?_
  rw [parse?_eq_some_iff]
  refine and_congr_right fun hd => ?_
  have hrounds (c : Constant) : d.roundsTo c.value = true ↔ Nearest d.value c.value :=
    roundsTo_iff hd.isDigit c.natAbs_value_lt
  have htest (c : Constant) : (c.isFloat == t.contains '.' && d.roundsTo c.value) = true ↔
      (c.isFloat ↔ '.' ∈ t) ∧ Nearest d.value c.value := by
    rw [Bool.and_eq_true, beq_iff_eq, hrounds, Bool.eq_iff_iff, List.contains_iff_mem]
  rw [Enumerated.find?_eq_some_iff, htest]
  -- the spelling fixes the type and the rounding fixes the value, so no second constant is found
  intro a b ha hb
  obtain ⟨hfloat, hnearest⟩ := (htest a).mp ha
  obtain ⟨hfloat', hnearest'⟩ := (htest b).mp hb
  refine eq_of_value (Bool.eq_iff_iff.mpr (hfloat.trans hfloat'.symm)) ?_
  exact hnearest.unique a.natAbs_value_lt b.natAbs_value_lt hnearest'

/-! ## The numbers that go to a constant -/

/-- The numbers that are rounded to the constant. -/
def interval : Constant → Set ℚ
  | minusOne => Set.Icc (-(1 + 1 / 2 ^ 53)) (-(1 - 1 / 2 ^ 54))
  | zero | floatZero => {v | |v| ≤ 1 / 2 ^ 1075}
  | one | floatOne => Set.Icc (1 - 1 / 2 ^ 54) (1 + 1 / 2 ^ 53)
  | two | floatTwo => Set.Icc (2 - 1 / 2 ^ 53) (2 + 1 / 2 ^ 52)
  | three => Set.Icc (3 - 1 / 2 ^ 52) (3 + 1 / 2 ^ 52)
  | four => Set.Icc (4 - 1 / 2 ^ 52) (4 + 1 / 2 ^ 51)
  | five => Set.Icc (5 - 1 / 2 ^ 51) (5 + 1 / 2 ^ 51)

theorem mem_Icc_iff (n below above : ℕ)
    (h : 0 < n ∧ n < 2 ^ 52 ∧ reachBelow n = below ∧ reachAbove n = above) {lo hi : ℚ}
    (hlo : lo = n - below / 2 ^ 54) (hhi : hi = n + above / 2 ^ 54) (v : ℚ) :
    v ∈ Set.Icc lo hi ↔ Nearest v n := by
  obtain ⟨hn, hlt, rfl, rfl⟩ := h
  rw [nearest_natCast_iff hn hlt, Set.mem_Icc, hlo, hhi]

theorem mem_interval_iff (c : Constant) (v : ℚ) : v ∈ c.interval ↔ Nearest v c.value := by
  cases c with
  | zero | floatZero => rw [value, Int.cast_zero, nearest_zero_iff, interval, Set.mem_ofPred_eq]
  | minusOne =>
    calc v ∈ minusOne.interval ↔ -v ∈ one.interval := Set.neg_mem_Icc_iff.symm
      _ ↔ Nearest (-v) (1 : ℕ) :=
        mem_Icc_iff 1 1 2 (by decide) (by norm_num) (by norm_num) (-v)
      _ ↔ Nearest v minusOne.value := by
        rw [← nearest_neg_iff, neg_neg, Nat.cast_one, value, Int.cast_neg, Int.cast_one]
  | one | floatOne => exact mem_Icc_iff 1 1 2 (by decide) (by norm_num) (by norm_num) v
  | two | floatTwo => exact mem_Icc_iff 2 2 4 (by decide) (by norm_num) (by norm_num) v
  | three => exact mem_Icc_iff 3 4 4 (by decide) (by norm_num) (by norm_num) v
  | four => exact mem_Icc_iff 4 4 8 (by decide) (by norm_num) (by norm_num) v
  | five => exact mem_Icc_iff 5 8 8 (by decide) (by norm_num) (by norm_num) v

theorem ofLiteral?_eq_some_iff {text : String} {c : Constant} :
    ofLiteral? text = some c ↔ ∃ t d, Text.TrimsTo text.toList t ∧ IsNumeral t d ∧
      (c.isFloat ↔ '.' ∈ t) ∧ d.value ∈ c.interval := by
  rw [ofLiteral?, ofNumeral?_eq_some_iff]
  constructor
  · rintro ⟨d, hnumeral, hfloat, hnearest⟩
    exact ⟨_, d, Text.trimsTo_trim _, hnumeral, hfloat, (c.mem_interval_iff _).mpr hnearest⟩
  · rintro ⟨t, d, htrims, hnumeral, hfloat, hvalue⟩
    rw [Text.trim_of_trimsTo htrims]
    exact ⟨d, hnumeral, hfloat, (c.mem_interval_iff _).mp hvalue⟩

end Constant

/-- A literal selects a constant exactly if, without the blanks around it, it is a numeral of the
constant's type, and the number that it writes down is one of those that are rounded to the
constant. Words such as `inf` and `nan` select nothing, for they have no digit. -/
theorem literal_selects_iff (text : String) (c : Constant) :
    (Constant.ofLiteral? text = some c ↔
      ∃ t d, Text.TrimsTo text.toList t ∧ IsNumeral t d ∧ (c.isFloat ↔ '.' ∈ t) ∧
        d.value ∈ c.interval) ∧
    (∀ v, v ∈ c.interval ↔ Nearest v c.value) ∧
    ((∀ x ∈ text.toList, ¬ x.isDigit) → Constant.ofLiteral? text = none) := by
  refine ⟨Constant.ofLiteral?_eq_some_iff, c.mem_interval_iff, ?_⟩
  intro hnone
  by_contra hsome
  obtain ⟨c', hc'⟩ := Option.ne_none_iff_exists'.mp hsome
  obtain ⟨t, d, ⟨left, right, htext, _⟩, hnumeral, _⟩ := Constant.ofLiteral?_eq_some_iff.mp hc'
  obtain ⟨x, hx, hdigit⟩ := hnumeral.exists_isDigit
  exact hnone x (by simp [htext, hx]) hdigit

/-- One and half the distance to the next double. -/
def halfway : String := " 1.00000000000000011102230246251565404236316680908203125\n"

/-- A number halfway between two doubles goes to the one with an even significand. -/
theorem literal_selects_iff_halfway :
    Constant.ofLiteral? halfway = some .floatOne ∧ Constant.ofLiteral? "-Infinity" = none := by
  obtain ⟨d, hparse, hvalue⟩ : ∃ d, parse? (Text.trim halfway.toList) = some d ∧
      d.value * 10 ^ 53 = (100000000000000011102230246251565404236316680908203125 : ℤ) :=
    exists_parse (by decide +kernel)
  have hmem : d.value ∈ Constant.floatOne.interval := by
    norm_num [Constant.interval] at hvalue ⊢
    constructor <;> linarith
  have hpoint : '.' ∈ Text.trim halfway.toList := by decide +kernel
  have hnone : ∀ x ∈ "-Infinity".toList, ¬ x.isDigit := by simp
  refine ⟨(literal_selects_iff _ _).1.mpr ?_, (literal_selects_iff _ .floatOne).2.2 hnone⟩
  exact ⟨_, d, Text.trimsTo_trim _, parse?_eq_some_iff.mp hparse, iff_of_true rfl hpoint, hmem⟩

/-! ## Literals that are not exact -/

namespace Constant

theorem abs_sub_le_of_mem_interval {c : Constant} {v : ℚ} (h : v ∈ c.interval) :
    |v - c.value| ≤ 1 / 2 ^ 51 := by
  cases c with
  | zero | floatZero =>
    rw [value, Int.cast_zero, sub_zero]
    refine le_trans h (one_div_le_one_div_of_le (by positivity) ?_)
    exact pow_le_pow_right₀ (by norm_num) (by norm_num)
  | _ =>
    obtain ⟨hlow, hhigh⟩ := h
    rw [abs_le, value]
    push_cast
    constructor <;> linarith

/-- With so many places after the point a literal cannot miss the constant. -/
def exactPlaces (c : Constant) : ℕ := if c.value = 0 then 323 else 15

theorem abs_sub_lt_of_mem_interval {c : Constant} {v : ℚ} (h : v ∈ c.interval) :
    |v - c.value| < 1 / 10 ^ c.exactPlaces := by
  by_cases hzero : c.value = 0
  · rw [mem_interval_iff, hzero, Int.cast_zero, nearest_zero_iff] at h
    rw [hzero, Int.cast_zero, sub_zero, exactPlaces, if_pos hzero]
    have hpow : Nat.pow 10 323 < Nat.pow 2 1075 := by decide +kernel
    -- only the comparison of the two powers matters from here on
    generalize 323 = k, 1075 = e at hpow h ⊢
    refine lt_of_le_of_lt h (one_div_lt_one_div_of_lt (by positivity) ?_)
    exact_mod_cast hpow
  · rw [exactPlaces, if_neg hzero]
    refine lt_of_le_of_lt (abs_sub_le_of_mem_interval h) ?_
    norm_num

/-- A literal that selects the constant and misses it, with one place more than are exact. -/
def nearMiss : Constant → String
  | minusOne => "-10000000000000001e-16"
  | zero => "1e-324"
  | one => "10000000000000001e-16"
  | two => "20000000000000001e-16"
  | three => "30000000000000001e-16"
  | four => "40000000000000001e-16"
  | five => "50000000000000001e-16"
  | floatZero => "1.e-324"
  | floatOne => "1.0000000000000001"
  | floatTwo => "2.0000000000000001"

theorem nearMiss_selects (c : Constant) : ofLiteral? c.nearMiss = some c := by
  cases c <;> decide +kernel

theorem nearMiss_digits (c : Constant) :
    ∃ d, Writes c.nearMiss d ∧ d.scale = -(c.exactPlaces + 1 : ℕ) ∧
      d.signed ≠ c.value * 10 ^ (c.exactPlaces + 1) := by
  cases c <;> exact ⟨_, writes_of_parse rfl, by decide +kernel, by decide +kernel⟩

theorem nearMiss_inexact (c : Constant) :
    ∃ d, Writes c.nearMiss d ∧ d.HasPlaces (c.exactPlaces + 1) ∧ d.value ≠ c.value := by
  obtain ⟨d, hwrites, hscale, hne⟩ := c.nearMiss_digits
  have hsigned := value_mul_pow hscale
  refine ⟨d, hwrites, ⟨_, hsigned⟩, ?_⟩
  intro heq
  rw [heq] at hsigned
  exact hne (by exact_mod_cast hsigned.symm)

theorem ofLiteral?_writes {text : String} {c : Constant} (h : ofLiteral? text = some c) :
    ∃ d, Writes text d ∧ d.value ∈ c.interval := by
  obtain ⟨t, d, htrims, hnumeral, _, hvalue⟩ := ofLiteral?_eq_some_iff.mp h
  exact ⟨d, ⟨t, htrims, hnumeral⟩, hvalue⟩

end Constant

/-- What a literal writes down differs from the constant that it selects by 2^-51 at most. If the
number has few enough places after the point it is the constant, and with more than
`exactPlaces` it may differ. -/
theorem literal_exact_iff (c : Constant) :
    (∀ text, Constant.ofLiteral? text = some c →
      ∃ d, Writes text d ∧ |d.value - c.value| ≤ 1 / 2 ^ 51) ∧
    ∀ places,
      (∀ text d, Constant.ofLiteral? text = some c → Writes text d → d.HasPlaces places →
        d.value = c.value) ↔ places ≤ c.exactPlaces := by
  constructor
  · intro text h
    obtain ⟨d, hwrites, hvalue⟩ := Constant.ofLiteral?_writes h
    exact ⟨d, hwrites, Constant.abs_sub_le_of_mem_interval hvalue⟩
  · intro places
    constructor
    · -- one place more than `exactPlaces` is enough for a literal that misses the constant
      intro hexact
      by_contra hmore
      obtain ⟨d, hwrites, hplaces, hne⟩ := c.nearMiss_inexact
      exact hne (hexact _ d c.nearMiss_selects hwrites (hplaces.mono (Nat.lt_of_not_le hmore)))
    · intro hle text d h hwrites hplaces
      obtain ⟨d', hwrites', hvalue⟩ := Constant.ofLiteral?_writes h
      obtain rfl := hwrites'.unique hwrites
      refine (hplaces.mono hle).eq_of_abs_sub_lt ?_
      exact Constant.abs_sub_lt_of_mem_interval hvalue

/-- Fifteen places are few enough: what is written is the constant. -/
theorem literal_exact_iff_fifteenPlaces :
    ∃ d, Writes "-1000000000000000e-15" d ∧ d.HasPlaces 15 ∧ d.value = Constant.minusOne.value := by
  obtain ⟨d, hparse, hvalue⟩ : ∃ d, parse? (Text.trim "-1000000000000000e-15".toList) = some d ∧
      d.value * 10 ^ 15 = (-1000000000000000 : ℤ) := exists_parse (by decide +kernel)
  have hselects : Constant.ofLiteral? "-1000000000000000e-15" = some .minusOne := by decide +kernel
  have hwrites := writes_of_parse hparse
  have hplaces : d.HasPlaces 15 := ⟨_, hvalue⟩
  refine ⟨d, hwrites, hplaces, ?_⟩
  exact ((literal_exact_iff .minusOne).2 15).mpr (by decide) _ d hselects hwrites hplaces

/-- A literal that selects a constant without being equal to it. -/
theorem literal_selects_inexact :
    Constant.ofLiteral? "1.0000000000000001" = some .floatOne ∧
    ∃ d, Writes "1.0000000000000001" d ∧ d.value ≠ Constant.floatOne.value := by
  obtain ⟨d, hwrites, _, hne⟩ := Constant.nearMiss_inexact .floatOne
  exact ⟨Constant.nearMiss_selects .floatOne, d, hwrites, hne⟩

end BlockCode
