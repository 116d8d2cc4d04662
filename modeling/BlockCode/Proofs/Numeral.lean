import Mathlib
import BlockCode.Decimal

/- Which texts are read as numbers, and which number a text writes down. `IsNumeral` gives
   the spelling rule by rule, without reading anything from left to right:

     numeral   = sign magnitude exponent
     sign      = nothing | + | -
     magnitude = digits | digits . [digits] | . digits
     exponent  = nothing | (e | E) sign digits

   `parse?_eq_some_iff` says that these are the texts that are read, and with which
   parts. `Decimal.value` is the exact number, a rational: what is before the point, and
   after it, times a power of ten. `Text.TrimsTo` says what is left of a text without the
   blanks around it. -/
namespace BlockCode

/-! ## Blanks around a text -/

namespace Text

/-- The text is the second one with blanks around it, and that one has none at its ends. -/
def TrimsTo (cs t : List Char) : Prop :=
  ∃ left right, cs = left ++ t ++ right ∧ (∀ c ∈ left, isBlank c) ∧ (∀ c ∈ right, isBlank c) ∧
    (∀ c ∈ t.head?, ¬ isBlank c) ∧ ∀ c ∈ t.getLast?, ¬ isBlank c

theorem trimEnd_eq_rdropWhile (cs : List Char) : trimEnd cs = cs.rdropWhile isBlank := rfl

theorem trimEnd_append {t right : List Char} (hright : ∀ c ∈ right, isBlank c)
    (hlast : ∀ c ∈ t.getLast?, ¬ isBlank c) : trimEnd (t ++ right) = t := by
  rw [trimEnd_eq_rdropWhile]
  induction right using List.reverseRecOn with
  | nil =>
    rw [List.append_nil, List.rdropWhile_eq_self_iff]
    intro hne
    exact hlast _ (List.getLast?_eq_some_getLast hne)
  | append_singleton right c ih =>
    rw [← List.append_assoc, List.rdropWhile_concat_pos _ _ _ (hright c (by simp))]
    exact ih fun c hc => hright c (by simp [hc])

theorem trim_of_trimsTo {cs t : List Char} (h : TrimsTo cs t) : trim cs = t := by
  obtain ⟨left, right, rfl, hleft, hright, hhead, hlast⟩ := h
  rw [trim, List.append_assoc, List.dropWhile_append_of_pos hleft]
  cases t with
  | nil =>
    rw [List.nil_append, List.dropWhile_eq_nil_iff.mpr hright]
    rfl
  | cons c t =>
    rw [List.cons_append, List.dropWhile_cons_of_neg (hhead c rfl), ← List.cons_append]
    exact trimEnd_append hright hlast

theorem trimsTo_trim (cs : List Char) : TrimsTo cs (trim cs) := by
  obtain ⟨rest, hrest⟩ : ∃ rest, rest = cs.dropWhile isBlank := ⟨_, rfl⟩
  have htrim : trim cs = rest.rdropWhile isBlank := by rw [trim, trimEnd_eq_rdropWhile, hrest]
  rw [htrim]
  refine ⟨cs.takeWhile isBlank, rest.rtakeWhile isBlank, ?_, ?_, ?_, ?_, ?_⟩
  · rw [List.append_assoc, List.rdropWhile_append_rtakeWhile, hrest, List.takeWhile_append_dropWhile]
  · intro c hc
    exact List.mem_takeWhile_imp hc
  · intro c hc
    exact List.mem_rtakeWhile_imp hc
  · -- the first character is that of the text without the blanks before it
    intro c hc
    have hfirst : c ∈ rest.head? := by
      obtain ⟨tail, htail⟩ := List.rdropWhile_prefix isBlank (l := rest)
      rw [← htail, List.head?_append, Option.mem_def.mp hc]
      rfl
    rw [hrest] at hfirst
    have := List.head?_dropWhile_not isBlank cs
    rw [Option.mem_def.mp hfirst] at this
    simpa using this
  · intro c hc
    have hne : rest.rdropWhile isBlank ≠ [] := by
      intro hnil
      rw [hnil] at hc
      cases hc
    rw [List.getLast?_eq_some_getLast hne] at hc
    cases hc
    exact List.rdropWhile_last_not _ _ hne

end Text

/-! ## The spelling of numbers -/

namespace Decimal

def IsDigits (cs : List Char) : Prop := cs ≠ [] ∧ ∀ c ∈ cs, c.isDigit

/-- A sign, which may be left out, and whether it is a minus. -/
inductive IsSign : List Char → Bool → Prop where
  | none : IsSign [] false
  | plus : IsSign ['+'] false
  | minus : IsSign ['-'] true

/-- Digits with or without a point: the whole text, the digits before the point and those
after it. -/
inductive IsMagnitude : List Char → List Char → List Char → Prop where
  | whole {whole : List Char} : IsDigits whole → IsMagnitude whole whole []
  | point {whole fraction : List Char} : IsDigits whole → (∀ c ∈ fraction, c.isDigit) →
    IsMagnitude (whole ++ '.' :: fraction) whole fraction
  | fraction {fraction : List Char} : IsDigits fraction → IsMagnitude ('.' :: fraction) [] fraction

/-- An exponent, which may be left out. -/
inductive IsExponent : List Char → Int → Prop where
  | none : IsExponent [] 0
  | power {mark : Char} {sign digits : List Char} {negative : Bool} : mark = 'e' ∨ mark = 'E' →
    IsSign sign negative → IsDigits digits →
    IsExponent (mark :: (sign ++ digits)) (if negative then -(ofDigits digits) else ofDigits digits)

/-- The text is a numeral with the parts of the decimal. -/
def IsNumeral (cs : List Char) (d : Decimal) : Prop :=
  ∃ sign magnitude exponent, cs = sign ++ (magnitude ++ exponent) ∧ IsSign sign d.negative ∧
    IsMagnitude magnitude d.whole d.fraction ∧ IsExponent exponent d.exponent

/-! ### Reading the parts -/

/-- The text does not begin with a character of which `P` holds. -/
def Stops (P : Char → Prop) (cs : List Char) : Prop := ∀ c ∈ cs.head?, ¬ P c

@[simp] theorem stops_nil (P : Char → Prop) : Stops P [] := by
  simp [Stops]

@[simp] theorem stops_cons (P : Char → Prop) (c : Char) (cs : List Char) :
    Stops P (c :: cs) ↔ ¬ P c := by
  simp [Stops]

theorem takeDigits_append {digits rest : List Char} (hdigits : ∀ c ∈ digits, c.isDigit)
    (hrest : Stops (fun c => c.isDigit) rest) : takeDigits (digits ++ rest) = (digits, rest) := by
  rw [takeDigits, List.takeWhile_append_of_pos hdigits, List.dropWhile_append_of_pos hdigits]
  cases rest with
  | nil => simp
  | cons c rest =>
    have hc : c.isDigit = false := by simpa using hrest
    simp [hc]

theorem takeDigits_eq {cs digits rest : List Char} (h : takeDigits cs = (digits, rest)) :
    cs = digits ++ rest ∧ ∀ c ∈ digits, c.isDigit := by
  cases h
  exact ⟨List.takeWhile_append_dropWhile.symm, fun _ hc => List.mem_takeWhile_imp hc⟩

theorem takeSign_append {sign rest : List Char} {negative : Bool} (h : IsSign sign negative)
    (hrest : Stops (fun c => c = '+' ∨ c = '-') rest) : takeSign (sign ++ rest) = (negative, rest) := by
  cases h with
  | plus | minus => rfl
  | none =>
    cases rest with
    | nil => rfl
    | cons c rest =>
      obtain ⟨hplus, hminus⟩ := not_or.mp (by simpa using hrest : ¬ (c = '+' ∨ c = '-'))
      rw [List.nil_append, takeSign]
      · intro cs heq
        exact hminus (List.cons.inj heq).1
      · intro cs heq
        exact hplus (List.cons.inj heq).1

theorem takeSign_eq {cs rest : List Char} {negative : Bool} (h : takeSign cs = (negative, rest)) :
    ∃ sign, cs = sign ++ rest ∧ IsSign sign negative := by
  unfold takeSign at h
  split at h <;> cases h
  · exact ⟨_, rfl, .minus⟩
  · exact ⟨_, rfl, .plus⟩
  · exact ⟨_, rfl, .none⟩

theorem IsDigits.stops {P : Char → Prop} {digits : List Char} (h : IsDigits digits)
    (hP : ∀ c, P c → ¬ c.isDigit) (rest : List Char) : Stops P (digits ++ rest) := by
  obtain ⟨hne, hdigits⟩ := h
  cases digits with
  | nil => exact absurd rfl hne
  | cons c digits =>
    rw [List.cons_append, stops_cons]
    intro hc
    exact hP c hc (hdigits c List.mem_cons_self)

theorem not_isDigit_of_sign (c : Char) (h : c = '+' ∨ c = '-') : ¬ c.isDigit := by
  rcases h with rfl | rfl <;> decide

theorem parseExponent?_eq_some_iff {cs : List Char} {exponent : Int} :
    parseExponent? cs = some exponent ↔ IsExponent cs exponent := by
  constructor
  · intro h
    cases cs with
    | nil =>
      cases h
      exact .none
    | cons mark cs =>
      obtain ⟨negative, digits, htake⟩ : ∃ negative digits, takeSign cs = (negative, digits) :=
        ⟨_, _, rfl⟩
      simp only [parseExponent?, htake] at h
      split at h
      · next hmark =>
        obtain ⟨sign, rfl, hsign⟩ := takeSign_eq htake
        obtain ⟨hdigits, hvalue⟩ := Option.ite_none_right_eq_some.mp h
        cases hvalue
        exact .power hmark hsign (by simpa [IsDigits] using hdigits)
      · cases h
  · intro h
    cases h with
    | none => rfl
    | @power mark sign digits negative hmark hsign hdigits =>
      have hstops := hdigits.stops not_isDigit_of_sign []
      rw [List.append_nil] at hstops
      simp only [parseExponent?, if_pos hmark, takeSign_append hsign hstops]
      refine if_pos ?_
      simpa [IsDigits] using hdigits

theorem IsExponent.stops {P : Char → Prop} {exponent : List Char} {n : Int}
    (h : IsExponent exponent n) (hP : ∀ c, P c → c ≠ 'e' ∧ c ≠ 'E') : Stops P exponent := by
  cases h with
  | none => exact stops_nil P
  | power hmark _ _ =>
    rw [stops_cons]
    intro hc
    obtain ⟨he, hE⟩ := hP _ hc
    exact hmark.elim he hE

theorem ne_mark_of_isDigit (c : Char) (h : c.isDigit) : c ≠ 'e' ∧ c ≠ 'E' := by
  constructor <;> rintro rfl <;> exact absurd h (by decide)

theorem takeMagnitude_append {magnitude whole fraction exponent : List Char} {n : Int}
    (h : IsMagnitude magnitude whole fraction) (hexponent : IsExponent exponent n) :
    ∃ rest, takeDigits (magnitude ++ exponent) = (whole, rest) ∧
      takeFraction rest = (fraction, exponent) := by
  have hdigits : Stops (fun c => c.isDigit) exponent := hexponent.stops ne_mark_of_isDigit
  have hpoint (cs : List Char) : Stops (fun c => c.isDigit) ('.' :: cs) := by simp
  cases h with
  | whole hwhole =>
    refine ⟨exponent, takeDigits_append hwhole.2 hdigits, ?_⟩
    have hnone : Stops (fun c => c = '.') exponent := hexponent.stops (by rintro c rfl; decide)
    cases exponent with
    | nil => rfl
    | cons c exponent =>
      rw [takeFraction]
      intro cs heq
      exact (stops_cons _ _ _).mp hnone (List.cons.inj heq).1
  | point hwhole hfraction =>
    refine ⟨'.' :: (fraction ++ exponent), ?_, takeDigits_append hfraction hdigits⟩
    rw [List.append_assoc]
    exact takeDigits_append hwhole.2 (hpoint _)
  | fraction hfraction =>
    refine ⟨'.' :: (fraction ++ exponent), ?_, takeDigits_append hfraction.2 hdigits⟩
    have hempty : ∀ c ∈ ([] : List Char), c.isDigit := by simp
    exact takeDigits_append hempty (hpoint _)

theorem isMagnitude_of_take {cs whole rest fraction exponent : List Char}
    (hwhole : takeDigits cs = (whole, rest)) (hfraction : takeFraction rest = (fraction, exponent))
    (hne : ¬ (whole = [] ∧ fraction = [])) :
    ∃ magnitude, cs = magnitude ++ exponent ∧ IsMagnitude magnitude whole fraction := by
  obtain ⟨rfl, hdigits⟩ := takeDigits_eq hwhole
  unfold takeFraction at hfraction
  split at hfraction
  · next rest =>
    obtain ⟨rfl, hdigits'⟩ := takeDigits_eq hfraction
    by_cases hempty : whole = []
    · subst hempty
      exact ⟨'.' :: fraction, rfl, .fraction ⟨fun h => hne ⟨rfl, h⟩, hdigits'⟩⟩
    · exact ⟨whole ++ '.' :: fraction, by simp, .point ⟨hempty, hdigits⟩ hdigits'⟩
  · cases hfraction
    exact ⟨whole, rfl, .whole ⟨fun h => hne ⟨h, rfl⟩, hdigits⟩⟩

theorem IsMagnitude.stops {magnitude whole fraction : List Char}
    (h : IsMagnitude magnitude whole fraction) (rest : List Char) :
    Stops (fun c => c = '+' ∨ c = '-') (magnitude ++ rest) := by
  cases h with
  | whole hwhole => exact hwhole.stops not_isDigit_of_sign rest
  | point hwhole _ =>
    rw [List.append_assoc]
    exact hwhole.stops not_isDigit_of_sign _
  | fraction _ => simp

theorem IsMagnitude.ne_nil {magnitude whole fraction : List Char}
    (h : IsMagnitude magnitude whole fraction) : ¬ (whole = [] ∧ fraction = []) := by
  rintro ⟨rfl, rfl⟩
  cases h with
  | whole h | point h _ | fraction h => exact h.1 rfl

/-- A text is read as a number exactly if it is a numeral. -/
theorem parse?_eq_some_iff {cs : List Char} {d : Decimal} :
    parse? cs = some d ↔ IsNumeral cs d := by
  constructor
  · -- each reader splits its text, so the parts put together again are the whole
    intro h
    obtain ⟨negative, afterSign, htake⟩ : ∃ n r, takeSign cs = (n, r) := ⟨_, _, rfl⟩
    obtain ⟨whole, afterWhole, hwhole⟩ : ∃ w r, takeDigits afterSign = (w, r) := ⟨_, _, rfl⟩
    obtain ⟨fraction, exponent, hfraction⟩ : ∃ f r, takeFraction afterWhole = (f, r) := ⟨_, _, rfl⟩
    simp only [parse?, htake, hwhole, hfraction] at h
    obtain ⟨hne, h⟩ := Option.ite_none_left_eq_some.mp h
    obtain ⟨n, hexponent, rfl⟩ := Option.map_eq_some_iff.mp h
    obtain ⟨sign, rfl, hsign⟩ := takeSign_eq htake
    obtain ⟨magnitude, rfl, hmagnitude⟩ := isMagnitude_of_take hwhole hfraction (by simpa using hne)
    exact ⟨sign, magnitude, exponent, rfl, hsign, hmagnitude, parseExponent?_eq_some_iff.mp hexponent⟩
  · rintro ⟨sign, magnitude, exponent, rfl, hsign, hmagnitude, hexponent⟩
    obtain ⟨rest, hwhole, hfraction⟩ := takeMagnitude_append hmagnitude hexponent
    have hne : ¬ (d.whole.isEmpty && d.fraction.isEmpty) = true := by
      simpa using hmagnitude.ne_nil
    simp only [parse?, takeSign_append hsign (hmagnitude.stops exponent), hwhole, hfraction, if_neg hne,
      parseExponent?_eq_some_iff.mpr hexponent]
    rfl

theorem IsNumeral.isDigit {cs : List Char} {d : Decimal} (h : IsNumeral cs d) :
    ∀ c ∈ d.digits, c.isDigit := by
  obtain ⟨_, magnitude, _, _, _, hmagnitude, _⟩ := h
  rw [digits]
  generalize d.whole = whole, d.fraction = fraction at hmagnitude ⊢
  intro c hc
  cases hmagnitude with
  | whole hwhole => exact hwhole.2 c (by simpa using hc)
  | point hwhole hfraction => exact (List.mem_append.mp hc).elim (hwhole.2 c) (hfraction c)
  | fraction hfraction => exact hfraction.2 c (by simpa using hc)

theorem IsDigits.exists_isDigit {digits : List Char} (h : IsDigits digits) :
    ∃ c ∈ digits, c.isDigit := by
  obtain ⟨c, hc⟩ := List.exists_mem_of_ne_nil digits h.1
  exact ⟨c, hc, h.2 c hc⟩

theorem IsMagnitude.exists_isDigit {magnitude whole fraction : List Char}
    (h : IsMagnitude magnitude whole fraction) : ∃ c ∈ magnitude, c.isDigit := by
  cases h with
  | whole hwhole => exact hwhole.exists_isDigit
  | point hwhole _ =>
    obtain ⟨c, hc, hdigit⟩ := hwhole.exists_isDigit
    exact ⟨c, List.mem_append_left _ hc, hdigit⟩
  | fraction hfraction =>
    obtain ⟨c, hc, hdigit⟩ := hfraction.exists_isDigit
    exact ⟨c, List.mem_cons_of_mem _ hc, hdigit⟩

theorem IsNumeral.exists_isDigit {cs : List Char} {d : Decimal} (h : IsNumeral cs d) :
    ∃ c ∈ cs, c.isDigit := by
  obtain ⟨_, magnitude, _, rfl, _, hmagnitude, _⟩ := h
  obtain ⟨c, hc, hdigit⟩ := hmagnitude.exists_isDigit
  exact ⟨c, List.mem_append_right _ (List.mem_append_left _ hc), hdigit⟩

/-! ## The number that is written -/

/-- The number that a decimal writes down: what stands before the point and what stands after
it, times a power of ten. -/
def value (d : Decimal) : ℚ :=
  (if d.negative then -1 else 1) *
    ((ofDigits d.whole + ofDigits d.fraction / 10 ^ d.fraction.length) * 10 ^ d.exponent)

theorem foldl_digits (ds : List Char) (n : Nat) :
    ds.foldl (fun n c => 10 * n + (c.toNat - '0'.toNat)) n = n * 10 ^ ds.length + ofDigits ds := by
  rw [ofDigits]
  induction ds generalizing n with
  | nil => simp
  | cons c ds ih =>
    rw [List.foldl_cons, List.foldl_cons, ih, ih (10 * 0 + _), List.length_cons, pow_succ]
    ring

theorem ofDigits_append (ds es : List Char) :
    ofDigits (ds ++ es) = ofDigits ds * 10 ^ es.length + ofDigits es := by
  rw [ofDigits, List.foldl_append, foldl_digits]
  rfl

theorem ofDigits_lt {ds : List Char} (h : ∀ c ∈ ds, c.isDigit) : ofDigits ds < 10 ^ ds.length := by
  induction ds using List.reverseRecOn with
  | nil => simp [ofDigits]
  | append_singleton ds c ih =>
    have hc : c.toNat - '0'.toNat < 10 := by
      have hle : c.toNat ≤ '9'.toNat := (Char.isDigit_iff_toNat.mp (h c (by simp))).2
      change c.toNat - 48 < 10
      change c.toNat ≤ 57 at hle
      omega
    have hds := ih fun c hc => h c (by simp [hc])
    have hlast : ofDigits [c] = c.toNat - '0'.toNat := by simp [ofDigits]
    rw [ofDigits_append, hlast, List.length_append, List.length_singleton, pow_one, pow_succ]
    omega

/-- The digits as one number, with the power of ten that puts the point where it was. -/
theorem value_eq (d : Decimal) :
    d.value = (if d.negative then -1 else 1) * (d.significand * 10 ^ d.scale) := by
  have hscale : (10 : ℚ) ^ d.scale = 10 ^ d.exponent / 10 ^ d.fraction.length := by
    rw [scale, zpow_sub₀ (by norm_num), zpow_natCast]
  rw [value, significand, digits, ofDigits_append, hscale]
  push_cast
  field_simp

def signed (d : Decimal) : ℤ := if d.negative then -d.significand else d.significand

theorem value_mul_pow {d : Decimal} {places : ℕ} (h : d.scale = -places) :
    d.value * 10 ^ places = d.signed := by
  rw [value_eq, h, zpow_neg, zpow_natCast, signed]
  split <;> push_cast <;> field_simp

theorem exists_parse {cs : List Char} {n : ℤ} {places : ℕ}
    (h : (parse? cs).map (fun d => (d.signed, d.scale)) = some (n, -(places : ℤ))) :
    ∃ d, parse? cs = some d ∧ d.value * 10 ^ places = n := by
  obtain ⟨d, hparse, hd⟩ := Option.map_eq_some_iff.mp h
  obtain ⟨hsigned, hscale⟩ := Prod.mk.inj hd
  exact ⟨d, hparse, by rw [value_mul_pow hscale, hsigned]⟩

/-- The number needs no more than so many places after the point. -/
def HasPlaces (d : Decimal) (places : ℕ) : Prop := ∃ k : ℤ, d.value * 10 ^ places = k

theorem HasPlaces.mono {d : Decimal} {places more : ℕ} (h : d.HasPlaces places)
    (hle : places ≤ more) : d.HasPlaces more := by
  obtain ⟨k, hk⟩ := h
  obtain ⟨extra, rfl⟩ := Nat.exists_eq_add_of_le hle
  refine ⟨k * 10 ^ extra, ?_⟩
  rw [pow_add, ← mul_assoc, hk]
  push_cast
  rfl

/-- Two numbers with so many places that are closer than one unit of the last are the same. -/
theorem HasPlaces.eq_of_abs_sub_lt {d : Decimal} {places : ℕ} (h : d.HasPlaces places) {n : ℤ}
    (hclose : |d.value - n| < 1 / 10 ^ places) : d.value = n := by
  obtain ⟨k, hk⟩ := h
  -- times the power of ten both are integers, and integers less than one apart are equal
  have hpow : (0 : ℚ) < 10 ^ places := by positivity
  have hless : |((k - n * 10 ^ places : ℤ) : ℚ)| < 1 := by
    calc |((k - n * 10 ^ places : ℤ) : ℚ)| = |d.value - n| * 10 ^ places := by
          push_cast
          rw [← hk, ← sub_mul, abs_mul, abs_of_pos hpow]
      _ < 1 := (lt_div_iff₀ hpow).mp hclose
  have hzero : k - n * 10 ^ places = 0 := Int.abs_lt_one_iff.mp (by exact_mod_cast hless)
  have hcast : (k : ℚ) = n * 10 ^ places := by exact_mod_cast sub_eq_zero.mp hzero
  exact mul_right_cancel₀ hpow.ne' (hk.trans hcast)

/-! ## Texts with blanks around a numeral -/

/-- The text, without the blanks around it, is a numeral with these parts. -/
def Writes (text : String) (d : Decimal) : Prop :=
  ∃ t, Text.TrimsTo text.toList t ∧ IsNumeral t d

theorem writes_of_parse {text : String} {d : Decimal} (h : parse? (Text.trim text.toList) = some d) :
    Writes text d :=
  ⟨_, Text.trimsTo_trim _, parse?_eq_some_iff.mp h⟩

theorem Writes.unique {text : String} {d d' : Decimal} (h : Writes text d) (h' : Writes text d') :
    d = d' := by
  obtain ⟨t, htrims, hnumeral⟩ := h
  obtain ⟨t', htrims', hnumeral'⟩ := h'
  obtain rfl := (Text.trim_of_trimsTo htrims).symm.trans (Text.trim_of_trimsTo htrims')
  have hparse := parse?_eq_some_iff.mpr hnumeral
  rw [parse?_eq_some_iff.mpr hnumeral'] at hparse
  exact (Option.some.inj hparse).symm

/-! ## Numbers as they are written -/

/-- Only zero is written with a zero in front. -/
theorem eq_zero_of_head?_toDigits {n : Nat} (h : (Nat.toDigits 10 n).head? = some '0') : n = 0 := by
  induction n using Nat.strongRecOn with
  | ind n ih =>
    by_cases hn : n < 10
    · have hdigit : ∀ d < 10, Nat.digitChar d = '0' → d = 0 := by decide
      rw [Nat.toDigits_of_lt_base hn] at h
      exact hdigit n hn (Option.some.inj h)
    · rw [Nat.toDigits_of_base_le (by decide) (Nat.not_lt.mp hn),
        List.head?_append_of_ne_nil _ Nat.toDigits_ne_nil] at h
      have := ih (n / 10) (by omega) h
      omega

end Decimal

end BlockCode
