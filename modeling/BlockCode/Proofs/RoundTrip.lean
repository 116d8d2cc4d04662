import Mathlib
import BlockCode.Wire

/- Fragments that are written and read again. `Varint.Spells` and `SpellsFragment` say what
   bytes stand for a number and for a fragment, without reading them: a number may be
   spelled with more bytes than it needs, and `Varint.encode` is one of its spellings.

   Every reader takes off its own bytes and leaves what follows. From this
   `decode_encode` for numbers goes up to values of an enumerated type, to rows of them and
   to fragments, always with the bytes that follow left free; `wire_roundTrip` has the
   results. -/
namespace BlockCode.Wire

namespace Varint

/-- The bytes spell the number: seven bits in each, lowest first, and the high bit set in all
but the last. -/
inductive Spells : Nat → List UInt8 → Prop where
  | last {b : UInt8} : b.toNat < 128 → Spells b.toNat [b]
  | more {b : UInt8} {n : Nat} {bytes : List UInt8} : 128 ≤ b.toNat → Spells n bytes →
    Spells (b.toNat - 128 + 128 * n) (b :: bytes)

theorem Spells.length_pos {n : Nat} {bytes : List UInt8} (h : Spells n bytes) :
    0 < bytes.length := by
  cases h <;> simp

theorem toNat_toUInt8 {n : Nat} (h : n < 256) : n.toUInt8.toNat = n := by
  simpa using h

theorem encode_of_lt {n : Nat} (h : n < 128) : encode n = [n.toUInt8] := by
  rw [encode, if_pos h]

theorem encode_of_le {n : Nat} (h : 128 ≤ n) :
    encode n = (n % 128 + 128).toUInt8 :: encode (n / 128) := by
  rw [encode, if_neg (by omega)]

theorem spells_encode (n : Nat) : Spells n (encode n) := by
  induction n using Nat.strongRecOn with
  | ind n ih =>
    by_cases h : n < 128
    · have hlast := toNat_toUInt8 (by omega : n < 256)
      have hspells := Spells.last (b := n.toUInt8) (by omega)
      rwa [hlast, ← encode_of_lt h] at hspells
    · have hfirst := toNat_toUInt8 (by omega : n % 128 + 128 < 256)
      have hspells := Spells.more (b := (n % 128 + 128).toUInt8) (by omega) (ih (n / 128) (by omega))
      rw [hfirst, ← encode_of_le (by omega)] at hspells
      rwa [show n % 128 + 128 - 128 + 128 * (n / 128) = n by omega] at hspells

theorem length_encode_le {n k : Nat} (h : n < 128 ^ (k + 1)) : (encode n).length ≤ k + 1 := by
  induction k generalizing n with
  | zero => rw [encode_of_lt (by simpa using h)]; simp
  | succ k ih =>
    by_cases hn : n < 128
    · rw [encode_of_lt hn]
      simp
    · rw [encode_of_le (by omega), List.length_cons]
      rw [Nat.pow_succ] at h
      have := ih (n := n / 128) (by omega)
      omega

/-- A reader takes every spelling that is not too long, of a number that is not too large. -/
theorem decodeUpTo_of_spells {bound full n : Nat} {bytes : List UInt8} (h : Spells n bytes)
    (hlen : bytes.length ≤ full + 1) (hn : n < bound * 128 ^ full) (rest : List UInt8) :
    decodeUpTo bound full (bytes ++ rest) = .ok (n, rest) := by
  induction h generalizing full with
  | @last b hb =>
    cases full with
    | zero => simpa [decodeUpTo] using hn
    | succ full => simp [decodeUpTo, hb]
  | @more b n bytes hb hspells ih =>
    have hpos := hspells.length_pos
    obtain ⟨full, rfl⟩ : ∃ k, full = k + 1 := ⟨full - 1, by rw [List.length_cons] at hlen; omega⟩
    have hrest : decodeUpTo bound full (bytes ++ rest) = .ok (n, rest) := by
      refine ih (by simpa using hlen) ?_
      rw [Nat.pow_succ, ← Nat.mul_assoc] at hn
      omega
    rw [List.cons_append, decodeUpTo, if_neg (by omega), hrest]

theorem two_pow_eq (bits : Nat) : Nat.pow 2 (bits % 7) * 128 ^ (bits / 7) = 2 ^ bits := by
  calc Nat.pow 2 (bits % 7) * 128 ^ (bits / 7)
      = 2 ^ (bits % 7) * 2 ^ (7 * (bits / 7)) := by rw [Nat.pow_mul]; rfl
    _ = 2 ^ bits := by rw [← Nat.pow_add, Nat.mod_add_div]

theorem decode_of_spells {bits n : Nat} {bytes : List UInt8} (h : Spells n bytes)
    (hlen : bytes.length ≤ bits / 7 + 1) (hn : n < 2 ^ bits) (rest : List UInt8) :
    decode bits (bytes ++ rest) = .ok (n, rest) := by
  rw [← two_pow_eq] at hn
  exact decodeUpTo_of_spells h hlen hn rest

theorem decode_encode {bits n : Nat} (hn : n < 2 ^ bits) (rest : List UInt8) :
    decode bits (encode n ++ rest) = .ok (n, rest) := by
  have hlarge : 2 ^ bits ≤ 128 ^ (bits / 7 + 1) := by
    calc 2 ^ bits ≤ 2 ^ (7 * (bits / 7 + 1)) := Nat.pow_le_pow_right (by decide) (by omega)
      _ = 128 ^ (bits / 7 + 1) := by rw [Nat.pow_mul]
  exact decode_of_spells (spells_encode n) (length_encode_le (by omega)) hn rest

end Varint

/-! ## Values of enumerated types -/

section
variable {α : Type} [DecidableEq α] [Enumerated α]

theorem spells_encodeIndex (a : α) : Varint.Spells (Enumerated.index a) (encodeIndex a) :=
  Varint.spells_encode _

theorem decodeIndex_encodeIndex (hsize : (Enumerated.values : List α).length ≤ 2 ^ 32) (a : α)
    (rest : List UInt8) : decodeIndex (encodeIndex a ++ rest) = .ok (a, rest) := by
  have hlt : Enumerated.index a < 2 ^ 32 := Nat.lt_of_lt_of_le (Enumerated.index_lt a) hsize
  rw [decodeIndex, encodeIndex, Varint.decode_encode hlt]
  simp only [Enumerated.ofIndex?_index]

end

theorem decodeMany_flatMap {α : Type} {encode : α → List UInt8} {decode : Decoder α}
    (h : ∀ a rest, decode (encode a ++ rest) = .ok (a, rest)) (as : List α) (rest : List UInt8) :
    decodeMany decode as.length (as.flatMap encode ++ rest) = .ok (as, rest) := by
  induction as with
  | nil => rfl
  | cons a as ih =>
    rw [List.flatMap_cons, List.append_assoc, List.length_cons, decodeMany, h]
    simp only [ih]

/-! ## Fragments -/

/-- The bytes spell the fragment: the number of its instructions, then the instructions, then
the precedence, each by its position among its kind. -/
def SpellsFragment (f : Fragment) (bytes : List UInt8) : Prop :=
  ∃ count code precedence, bytes = count ++ code.flatten ++ precedence ∧
    Varint.Spells f.length count ∧
    List.Forall₂ (fun i b => Varint.Spells (Enumerated.index i) b) f.code code ∧
    Varint.Spells (Enumerated.index f.precedence) precedence

theorem spellsFragment_encodeFragment (f : Fragment) : SpellsFragment f (encodeFragment f) := by
  refine ⟨_, f.code.map encodeIndex, _, ?_, Varint.spells_encode _, ?_, spells_encodeIndex _⟩
  · rw [encodeFragment, List.flatMap_def]
  · rw [List.forall₂_map_right_iff, List.forall₂_same]
    exact fun i _ => spells_encodeIndex i

theorem decodeFragment_encodeFragment {f : Fragment} (h : f.length < 2 ^ 64) (rest : List UInt8) :
    decodeFragment (encodeFragment f ++ rest) = .ok (f, rest) := by
  have hcode := decodeMany_flatMap (decodeIndex_encodeIndex (α := Instruction) (by decide)) f.code
  rw [encodeFragment, List.append_assoc, List.append_assoc, decodeFragment, Varint.decode_encode h]
  simp only [Fragment.length, hcode, decodeIndex_encodeIndex (α := Precedence) (by decide)]

/-- What is written is read as it was, whatever bytes follow, and these are left. A fragment is
written as what spells it; no fragment is written as the beginning of another. -/
theorem wire_roundTrip :
    (∀ f, SpellsFragment f (encodeFragment f)) ∧
    (∀ f : Fragment, f.length < 2 ^ 64 → ∀ rest,
      decodeFragment (encodeFragment f ++ rest) = .ok (f, rest)) ∧
    (∀ (i : Instruction) (rest : List UInt8), decodeIndex (encodeIndex i ++ rest) = .ok (i, rest)) ∧
    (∀ (p : Precedence) (rest : List UInt8), decodeIndex (encodeIndex p ++ rest) = .ok (p, rest)) ∧
    (∀ (op : Operator) (rest : List UInt8), decodeIndex (encodeIndex op ++ rest) = .ok (op, rest)) ∧
    ∀ f g : Fragment, f.length < 2 ^ 64 → g.length < 2 ^ 64 →
      (encodeFragment f <+: encodeFragment g ↔ f = g) := by
  refine ⟨spellsFragment_encodeFragment, fun f hf => decodeFragment_encodeFragment hf,
    decodeIndex_encodeIndex (by decide), decodeIndex_encodeIndex (by decide),
    decodeIndex_encodeIndex (by decide), ?_⟩
  intro f g hf hg
  constructor
  · rintro ⟨rest, hrest⟩
    have hread := decodeFragment_encodeFragment hf rest
    have hread' := decodeFragment_encodeFragment hg []
    rw [List.append_nil, ← hrest, hread] at hread'
    cases hread'
    rfl
  · rintro rfl
    exact List.prefix_refl _

/-- Two hundred instructions, the number of which takes two bytes. -/
def longFragment : Fragment := ⟨List.replicate 200 (.push .one), .loosest⟩

/-- The byte that follows is left, although a number could go on with it, and what is written for
no instruction is not the beginning of what is written for many. -/
theorem wire_roundTrip_longFragment :
    longFragment.length < 2 ^ 64 ∧
    decodeFragment (encodeFragment longFragment ++ [0x80]) = .ok (longFragment, [0x80]) ∧
    ¬ encodeFragment ⟨[], .loosest⟩ <+: encodeFragment longFragment := by
  have hlong : longFragment.length < 2 ^ 64 := by
    rw [Fragment.length, longFragment, List.length_replicate]
    decide
  have hempty : (⟨[], .loosest⟩ : Fragment).length < 2 ^ 64 := by decide
  obtain ⟨_, hread, _, _, _, hfree⟩ := wire_roundTrip
  refine ⟨hlong, hread _ hlong _, ?_⟩
  rw [hfree _ _ hempty hlong]
  decide

end BlockCode.Wire
