import Mathlib
import BlockCode.Block
import BlockCode.Proofs.Numeral
import BlockCode.Proofs.PathOrder

/- The operands of a list block. `Block.list` connects them one after the other, each to a
   slot whose name is made from its number. `list_operands` says that every operand is
   found again in its own slot, and that nothing is found anywhere else.

   An operand that is connected later does not take the place of an earlier one, because
   numbers are never written the same way (`listSlot_inj`); and a text is the name of an item
   slot only if it goes on with a number as it is written (`listSlot_eq_iff`), so without
   zeros in front. -/
namespace BlockCode

/-! ## Names of item slots -/

theorem listSlot_eq_iff {i : Nat} {t : String} : "NUM" ++ t = listSlot i ↔ t = toString i :=
  String.append_right_inj "NUM"

theorem listSlot_ne_numberField (i : Nat) : listSlot i ≠ numberField := by
  intro h
  have hempty : "" = toString i := listSlot_eq_iff.mp (by rw [h]; rfl)
  have hdigits := congrArg String.toList hempty
  rw [Nat.toString_eq_repr, Nat.toList_repr] at hdigits
  exact Nat.toDigits_ne_nil hdigits.symm

theorem listSlot_ne_of_leadingZero {t : String} (ht : t ≠ "") (i : Nat) : listSlot i ≠ "NUM0" ++ t := by
  intro h
  have hsplit : "NUM" ++ ("0" ++ t) = listSlot i := by
    rw [h, ← String.append_assoc]
    rfl
  have hdigits := congrArg String.toList (listSlot_eq_iff.mp hsplit)
  rw [String.toList_append, Nat.toString_eq_repr, Nat.toList_repr] at hdigits
  obtain rfl : i = 0 := Decimal.eq_zero_of_head?_toDigits (by rw [← hdigits]; rfl)
  rw [Nat.toDigits_zero] at hdigits
  have hrest : t.toList = [] := (List.cons.inj hdigits).2
  exact ht (String.toList_inj.mp hrest)

namespace Block

/-! ## Connecting the items -/

theorem input_withItems_of_ne {b : Block} {i : Nat} {items : List (Option Block)} {s : String}
    (h : ∀ k < items.length, s ≠ listSlot (i + k)) : (b.withItems i items).input s = b.input s := by
  induction items generalizing b i with
  | nil => rfl
  | cons item rest ih =>
    have hrest : ∀ k < rest.length, s ≠ listSlot (i + 1 + k) := by
      intro k hk
      rw [Nat.add_assoc, Nat.add_comm 1 k]
      exact h (k + 1) (Nat.succ_lt_succ hk)
    have hfirst : s ≠ listSlot i := h 0 (Nat.succ_pos _)
    rw [withItems, ih hrest, input_withInput?, if_neg hfirst]

/-- An item is in its slot; where it is missing there is what was there before. -/
theorem input_withItems {b : Block} {i k : Nat} {items : List (Option Block)} (hk : k < items.length) :
    (b.withItems i items).input (listSlot (i + k)) = items[k].or (b.input (listSlot (i + k))) := by
  induction items generalizing b i k with
  | nil => exact absurd hk (Nat.not_lt_zero k)
  | cons item rest ih =>
    rw [withItems]
    cases k with
    | zero =>
      -- the items that follow have greater numbers, so they go to other slots
      rw [input_withItems_of_ne, input_withInput?]
      · simp
      · intro k _ h
        have := listSlot_inj h
        omega
    | succ k =>
      have hslot : i + (k + 1) = i + 1 + k := by omega
      have hne : listSlot (i + 1 + k) ≠ listSlot i := by
        intro h
        have := listSlot_inj h
        omega
      rw [hslot, ih (Nat.lt_of_succ_lt_succ hk), input_withInput?, if_neg hne]
      rfl

/-- A list block has as many items as it was given. Each of them is in the slot of its number, and
no other slot has anything in it: not those of greater numbers, nor those of other blocks, nor any
whose name has a zero in front of the number. For the names of the slots are all different. -/
theorem list_operands (op : ListOp) (items : List (Option Block)) :
    (list op items).itemCount = some items.length ∧
    (∀ i (hi : i < items.length), (list op items).input (listSlot i) = items[i]) ∧
    (∀ s, (∀ i < items.length, s ≠ listSlot i) → (list op items).input s = none) ∧
    (∀ i, items.length ≤ i → (list op items).input (listSlot i) = none) ∧
    (∀ s ∈ [numberField, slotA, slotB], (list op items).input s = none) ∧
    (∀ t, t ≠ "" → (list op items).input ("NUM0" ++ t) = none) ∧
    Function.Injective listSlot ∧ ∀ i, listSlot i ≠ slotA ∧ listSlot i ≠ slotB := by
  have hown (i : Nat) (hi : i < items.length) : (list op items).input (listSlot i) = items[i] := by
    have hslot := input_withItems (b := ofKind (.list op)) (i := 0) hi
    rw [Nat.zero_add] at hslot
    exact hslot.trans Option.or_none
  have hother (s : String) (hs : ∀ i < items.length, s ≠ listSlot i) :
      (list op items).input s = none := by
    apply input_withItems_of_ne (b := ofKind (.list op)) (i := 0)
    intro k hk
    rw [Nat.zero_add]
    exact hs k hk
  refine ⟨rfl, hown, hother, ?_, ?_, ?_, fun i j => listSlot_inj,
    fun i => ⟨listSlot_ne_slotA i, listSlot_ne_slotB i⟩⟩
  · intro i hi
    apply hother
    intro j hj h
    have := listSlot_inj h
    omega
  · intro s hs
    apply hother
    intro i _ h
    subst h
    simp only [List.mem_cons, List.not_mem_nil, or_false] at hs
    obtain h | h | h := hs
    · exact listSlot_ne_numberField i h
    · exact listSlot_ne_slotA i h
    · exact listSlot_ne_slotB i h
  · intro t ht
    apply hother
    intro i _ h
    exact listSlot_ne_of_leadingZero ht i h.symm

/-- Twelve operands, of which the second and the last but one are there: `NUM1` and `NUM10`
begin alike. -/
def sparseItems : List (Option Block) :=
  none :: some (.number "1") :: List.replicate 8 none ++ [some (.number "10"), none]

theorem list_operands_sparse :
    (list .multiply sparseItems).itemCount = some 12 ∧
    (list .multiply sparseItems).input "NUM1" = some (.number "1") ∧
    (list .multiply sparseItems).input "NUM10" = some (.number "10") ∧
    (list .multiply sparseItems).input "NUM11" = none ∧
    (list .multiply sparseItems).input "NUM12" = none ∧
    (list .multiply sparseItems).input "A" = none ∧
    (list .multiply sparseItems).input "NUM01" = none ∧
    (list .multiply sparseItems).input "NUM1 " = none := by
  obtain ⟨hcount, hown, hother, hlarger, hforeign, hzero, _⟩ := list_operands .multiply sparseItems
  refine ⟨hcount, hown 1 (by decide), hown 10 (by decide), hown 11 (by decide), hlarger 12 (by decide),
    hforeign slotA (by decide), hzero "1" (by decide), hother "NUM1 " ?_⟩
  decide

end Block

end BlockCode
