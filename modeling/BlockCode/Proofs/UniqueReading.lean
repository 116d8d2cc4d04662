import Mathlib
import BlockCode.Proofs.Alike
import BlockCode.Proofs.Punctuation
import BlockCode.Proofs.ShownAlike

/- A sketch has one reading. Literals may be any text, and a literal such as `1, B: 2` would make
   a sketch ambiguous; `NumbersPlain` says that literals have only characters of numerals
   in them. `Sketch.text_eq_iff_shownAlike` says that then trees with the same text show the same,
   whatever the limits are, and that their sketches have the same spans.

   The first word of a drawing tells the kind of block (`kind_eq_of_firstWord`), and with it how the
   rest is to be read (`Outline.arguments_append_inj`). The induction on the levels is
   `Outline.ofNode_append_inj`; it speaks of drawings that begin a longer text, since that is how
   the operands of a block stand in its drawing. -/
namespace BlockCode
universe u v
variable {α : Type u} {β : Type v} [Node α] [Node β] {o : Options} {depth levels : Nat}

/-! ## Literals -/

def isNumeralChar (c : Char) : Bool :=
  c.isDigit || c = '+' || c = '-' || c = '.' || c = 'e' || c = 'E'

/-- The literal of a number block, if it has one, has only characters that may stand in a numeral. -/
def LiteralPlain (node : α) : Prop :=
  Node.kind node = .number → ∀ text ∈ Node.field node numberField, text.toList.all isNumeralChar

/-- All number blocks that are drawn as such have plain literals. -/
def NumbersPlain (o : Options) (depth : Nat) (node : α) : Prop :=
  ∀ path block, Shows o depth node path block → depth + path.length < o.maxDepth → LiteralPlain block

theorem numbersPlain_iff {node : α} : NumbersPlain o depth node ↔ (depth < o.maxDepth →
    LiteralPlain node ∧ ∀ slot ∈ shownSlots o node, ∀ child ∈ Node.input node slot,
      NumbersPlain o (depth + 1) child) := by
  constructor
  · intro h hd
    refine ⟨h [] node .root hd, ?_⟩
    intro slot hslot child hchild path block hshows hlt
    exact h (slot :: path) block (.slot hd hslot hchild hshows) (by rwa [depth_cons])
  · intro h path block hshows hlt
    cases hshows with
    | root => exact (h hlt).1
    | slot hd hslot hchild hshows =>
      rw [depth_cons] at hlt
      exact (h hd).2 _ hslot _ hchild _ _ hshows hlt

instance (node : α) : Decidable (LiteralPlain node) :=
  inferInstanceAs (Decidable (Node.kind node = .number →
    ∀ text ∈ Node.field node numberField, text.toList.all isNumeralChar))

/-- Goes down the levels that are left. -/
def decideNumbersPlain : (levels depth : Nat) → (node : α) → o.maxDepth ≤ levels + depth →
    Decidable (NumbersPlain o depth node)
  | 0, depth, node, h => isTrue (numbersPlain_iff.mpr fun hd => by omega)
  | levels + 1, depth, node, h =>
    have (child : α) : Decidable (NumbersPlain o (depth + 1) child) :=
      decideNumbersPlain levels (depth + 1) child (by omega)
    decidable_of_iff _ numbersPlain_iff.symm

instance (node : α) : Decidable (NumbersPlain o depth node) :=
  decideNumbersPlain o.maxDepth depth node (Nat.le_add_right _ _)

/-- The word with which the drawing of a block begins, if it is not cut off. -/
def firstWord (node : α) : String :=
  match Node.kind node with
  | .number => (Node.field node numberField).getD "?"
  | kind => kind.blockType

theorem Outline.word_ofNode_succ (o : Options) (levels : Nat) (node : α) :
    (ofNode o (levels + 1) node).word = firstWord node := by
  simp only [ofNode, firstWord]
  cases Node.kind node with
  | number | compare | binary => rfl
  | list op => cases Node.itemCount node <;> rfl

theorem firstWord_number {node : α} (hk : Node.kind node = .number) :
    firstWord node = (Node.field node numberField).getD "?" := by
  simp only [firstWord, hk]

theorem firstWord_of_ne_number {node : α} (hk : Node.kind node ≠ .number) :
    firstWord node = (Node.kind node).blockType := by
  unfold firstWord
  split
  · contradiction
  · rfl

theorem firstWord_chars {node : α} (h : LiteralPlain node) (hk : Node.kind node = .number) :
    ∀ c ∈ (firstWord node).toList, isNumeralChar c ∨ c = '?' := by
  rw [firstWord_number hk]
  intro c hc
  cases hf : Node.field node numberField with
  | none =>
    rw [hf] at hc
    exact .inr (by simpa using hc)
  | some text =>
    rw [hf] at hc
    exact .inl (List.all_eq_true.mp (h hk text hf) c hc)

theorem m_mem_blockType (kind : Kind) : 'm' ∈ kind.blockType.toList := by
  cases kind with
  | number | compare => simp [Kind.blockType]
  | binary op | list op => cases op <;> simp [Kind.blockType]

theorem firstWord_ne_blockType {node : α} (h : LiteralPlain node) (hk : Node.kind node = .number)
    (kind : Kind) : firstWord node ≠ kind.blockType := by
  intro heq
  have hm := m_mem_blockType kind
  rw [← heq] at hm
  exact absurd (firstWord_chars h hk 'm' hm) (by decide)

theorem isWord_firstWord {node : α} (h : LiteralPlain node) : Outline.IsWord (firstWord node) := by
  by_cases hk : Node.kind node = .number
  · intro c hc hdelimiter
    simp only [Outline.isDelimiter, Bool.or_eq_true, decide_eq_true_eq] at hdelimiter
    obtain (rfl | rfl) | rfl := hdelimiter <;> exact absurd (firstWord_chars h hk _ hc) (by decide)
  · rw [firstWord_of_ne_number hk]
    exact Outline.isWord_blockType _

theorem firstWord_ne_emptySlot {node : α} (h : LiteralPlain node) : firstWord node ≠ "_" := by
  intro heq
  by_cases hk : Node.kind node = .number
  · exact absurd (firstWord_chars h hk '_' (by rw [heq]; decide)) (by decide)
  · have hm := m_mem_blockType (Node.kind node)
    rw [← firstWord_of_ne_number hk, heq] at hm
    exact absurd hm (by decide)

theorem blockType_inj {k k' : Kind} (h : k.blockType = k'.blockType) : k = k' := by
  have hsome := Kind.ofBlockType?_blockType k
  rw [h, Kind.ofBlockType?_blockType] at hsome
  exact (Option.some.inj hsome).symm

theorem getD_literal_inj {x y : Option String} (hx : ∀ text ∈ x, text.toList.all isNumeralChar)
    (hy : ∀ text ∈ y, text.toList.all isNumeralChar) (h : x.getD "?" = y.getD "?") : x = y := by
  have hsign {text : String} (htext : text.toList.all isNumeralChar) : text ≠ "?" := by
    rintro rfl
    exact absurd htext (by decide)
  cases x with
  | none =>
    cases y with
    | none => rfl
    | some text => exact absurd h.symm (hsign (hy text rfl))
  | some text =>
    cases y with
    | none => exact absurd h (hsign (hx text rfl))
    | some text' => exact congrArg some h

/-- The first word tells the kind of a block and, if it is a number, its literal. -/
theorem kind_eq_of_firstWord {x : α} {y : β} (hx : LiteralPlain x) (hy : LiteralPlain y)
    (h : firstWord x = firstWord y) : Node.kind x = Node.kind y ∧
      (Node.kind x = .number → Node.field x numberField = Node.field y numberField) := by
  by_cases hkx : Node.kind x = .number
  · by_cases hky : Node.kind y = .number
    · refine ⟨hkx.trans hky.symm, fun _ => getD_literal_inj (hx hkx) (hy hky) ?_⟩
      rwa [firstWord_number hkx, firstWord_number hky] at h
    · rw [firstWord_of_ne_number hky] at h
      exact absurd h (firstWord_ne_blockType hx hkx _)
  · by_cases hky : Node.kind y = .number
    · rw [firstWord_of_ne_number hkx] at h
      exact absurd h.symm (firstWord_ne_blockType hy hky _)
    · rw [firstWord_of_ne_number hkx, firstWord_of_ne_number hky] at h
      exact ⟨blockType_inj h, fun hk => absurd hk hkx⟩

/-! ## Whole drawings -/

theorem isName_of_mem_shownSlots {node : α} {slot : String} (h : slot ∈ shownSlots o node) :
    Outline.IsName slot := by
  unfold shownSlots at h
  cases hk : Node.kind node with
  | number | compare => simp [hk] at h
  | binary op =>
    simp only [hk, List.mem_cons, List.not_mem_nil, or_false] at h
    obtain rfl | rfl := h
    · exact ⟨'A', [], rfl, rfl⟩
    · exact ⟨'B', [], rfl, rfl⟩
  | list op =>
    cases hc : Node.itemCount node with
    | none => simp [hk, hc] at h
    | some count =>
      simp only [hk, hc, Option.elim_some, itemSlots, List.mem_map] at h
      obtain ⟨i, _, rfl⟩ := h
      exact ⟨'N', 'U' :: 'M' :: i.repr.toList, by simp [listSlot], rfl⟩

theorem itemSlots_prefix {m n : Nat} (h : m ≤ n) : itemSlots m <+: itemSlots n := by
  have htake : List.range m = (List.range n).take m := by rw [List.take_range, Nat.min_eq_left h]
  rw [itemSlots, itemSlots, htake]
  exact (List.take_prefix m _).map listSlot

namespace Outline

theorem readApart_slotOf {x : α} {y : β} {slot : String}
    (hx : ∀ a ∈ Node.input x slot, IsWord (ofNode o levels a).word ∧ (ofNode o levels a).word ≠ "_")
    (hy : ∀ b ∈ Node.input y slot, IsWord (ofNode o levels b).word ∧ (ofNode o levels b).word ≠ "_")
    (hread : ∀ a ∈ Node.input x slot, ∀ b ∈ Node.input y slot, ∀ r r', Delimited r → Delimited r' →
      (ofNode o levels a).chars ++ r = (ofNode o levels b).chars ++ r' →
        ofNode o levels a = ofNode o levels b ∧ r = r') :
    ReadApart (slotOf o levels x slot).2 (slotOf o levels y slot).2 := by
  -- the sign for an empty slot is a word, and no block begins with it
  have hempty {z : Outline} (hz : IsWord z.word ∧ z.word ≠ "_") {r r' : List Char}
      (hr : Delimited r) (hr' : Delimited r') : '_' :: r ≠ z.chars ++ r' := by
    intro h
    rw [chars_eq, List.append_assoc] at h
    have hsign : IsWord "_" := by simp [IsWord, isDelimiter]
    exact hz.2 (word_append_inj hsign hz.1 hr (delimited_arguments z hr') h).1.symm
  intro r r' hr hr' h
  unfold slotOf at h ⊢
  cases hcx : Node.input x slot with
  | none =>
    cases hcy : Node.input y slot with
    | none =>
      rw [hcx, hcy] at h
      exact ⟨rfl, (List.cons.inj h).2⟩
    | some b =>
      rw [hcx, hcy] at h
      exact absurd h (hempty (hy b hcy) hr hr')
  | some a =>
    cases hcy : Node.input y slot with
    | none =>
      rw [hcx, hcy] at h
      exact absurd h.symm (hempty (hx a hcx) hr' hr)
    | some b =>
      rw [hcx, hcy] at h
      obtain ⟨hsame, hrest⟩ := hread a hcx b hcy r r' hr hr' h
      exact ⟨congrArg some hsame, hrest⟩

/-- The words of drawings have no delimiters in them, and none is the sign for an empty slot. -/
theorem isWord_word_ofNode {node : α} (hd : depth + levels = o.maxDepth)
    (h : NumbersPlain o depth node) :
    IsWord (ofNode o levels node).word ∧ (ofNode o levels node).word ≠ "_" := by
  cases levels with
  | zero =>
    rw [ofNode, word]
    refine ⟨?_, by decide⟩
    intro c hc
    obtain rfl : c = '…' := List.mem_singleton.mp hc
    decide
  | succ levels =>
    have hplain := (numbersPlain_iff.mp h (by omega)).1
    rw [word_ofNode_succ]
    exact ⟨isWord_firstWord hplain, firstWord_ne_emptySlot hplain⟩

/-- The slots that blocks of one kind show have the same names, as far as both have so many. -/
theorem shownSlots_prefix {x : α} {y : β} (hkind : Node.kind x = Node.kind y) :
    shownSlots o x <+: shownSlots o y ∨ shownSlots o y <+: shownSlots o x := by
  unfold shownSlots
  rw [hkind]
  cases Node.kind y with
  | number | compare | binary => exact .inl (List.prefix_refl _)
  | list op =>
    cases Node.itemCount x with
    | none => exact .inl List.nil_prefix
    | some count =>
      cases Node.itemCount y with
      | none => exact .inr List.nil_prefix
      | some count' => exact (Nat.le_total _ _).imp itemSlots_prefix itemSlots_prefix

theorem operation_append_inj {kind : Kind} {x : α} {y : β} {hidden hidden' : Nat} {r r' : List Char}
    (hkind : Node.kind x = Node.kind y)
    (hread : ∀ slot ∈ shownSlots o x, slot ∈ shownSlots o y →
      ReadApart (slotOf o levels x slot).2 (slotOf o levels y slot).2)
    (h : (operation kind ((shownSlots o x).map (slotOf o levels x)) hidden).arguments ++ r =
      (operation kind ((shownSlots o y).map (slotOf o levels y)) hidden').arguments ++ r') :
    operation kind ((shownSlots o x).map (slotOf o levels x)) hidden =
      operation kind ((shownSlots o y).map (slotOf o levels y)) hidden' ∧ r = r' := by
  obtain ⟨hslots, rfl, rfl⟩ : (shownSlots o x).map (slotOf o levels x) =
      (shownSlots o y).map (slotOf o levels y) ∧ hidden = hidden' ∧ r = r' := by
    refine bodyChars_append_inj ?_ ?_ ?_ ?_ (List.cons.inj h).2
    · exact List.forall_mem_map.mpr fun slot hslot => isName_of_mem_shownSlots hslot
    · exact List.forall_mem_map.mpr fun slot hslot => isName_of_mem_shownSlots hslot
    · rw [map_fst_slotOf, map_fst_slotOf]
      exact shownSlots_prefix hkind
    · simp only [List.forall_mem_map]
      rintro s hs t ht (rfl : s = t)
      exact hread s hs ht
  rw [hslots]
  exact ⟨rfl, rfl⟩

/-- Slots cannot be taken for the sign that the number of items is not known. -/
theorem uncounted_append_ne {op : ListOp} {kind : Kind} {node : α} {hidden : Nat} {r r' : List Char} :
    (uncounted op).arguments ++ r ≠
      (operation kind ((shownSlots o node).map (slotOf o levels node)) hidden).arguments ++ r' := by
  intro h
  replace h : '.' :: '.' :: ')' :: r = bodyChars _ hidden ++ r' := (List.cons.inj h).2
  cases hslots : shownSlots o node with
  | nil =>
    have hdelimited := delimited_trailChars [] hidden r'
    rw [hslots, List.map_nil, bodyChars] at h
    rw [← h] at hdelimited
    exact absurd (hdelimited '.' rfl) (by decide)
  | cons slot slots =>
    have hmem : slot ∈ shownSlots o node := by rw [hslots]; exact List.mem_cons_self
    obtain ⟨c, cs, hc, halpha⟩ := isName_of_mem_shownSlots hmem
    rw [hslots, List.map_cons, bodyChars, slotChars, slotOf, hc] at h
    obtain rfl : '.' = c := (List.cons.inj h).1
    exact absurd halpha (by decide)

/-- Of blocks of one kind, with the same literal if they are numbers, the rest of the drawing can be
read off a text if what is in their slots can be. -/
theorem arguments_append_inj {x : α} {y : β} {r r' : List Char} (hkind : Node.kind x = Node.kind y)
    (hfield : Node.kind x = .number → Node.field x numberField = Node.field y numberField)
    (hread : ∀ slot ∈ shownSlots o x, slot ∈ shownSlots o y →
      ReadApart (slotOf o levels x slot).2 (slotOf o levels y slot).2)
    (h : (ofNode o (levels + 1) x).arguments ++ r = (ofNode o (levels + 1) y).arguments ++ r') :
    ofNode o (levels + 1) x = ofNode o (levels + 1) y ∧ r = r' := by
  cases hk : Node.kind x with
  | number =>
    rw [ofNode_number hk, ofNode_number (hkind ▸ hk)] at h ⊢
    exact ⟨congrArg number (hfield hk), h⟩
  | compare =>
    rw [ofNode_compare hk, ofNode_compare (hkind ▸ hk)] at h ⊢
    exact ⟨rfl, h⟩
  | binary op =>
    rw [ofNode_binary hk, ofNode_binary (hkind ▸ hk)] at h ⊢
    exact operation_append_inj hkind hread h
  | list op =>
    have hk' : Node.kind y = .list op := hkind ▸ hk
    cases hc : Node.itemCount x with
    | none =>
      rw [ofNode_uncounted hk hc] at h ⊢
      cases hc' : Node.itemCount y with
      | none =>
        rw [ofNode_uncounted hk' hc'] at h ⊢
        exact ⟨rfl, List.append_cancel_left h⟩
      | some count =>
        rw [ofNode_list hk' hc'] at h
        exact absurd h uncounted_append_ne
    | some count =>
      rw [ofNode_list hk hc] at h ⊢
      cases hc' : Node.itemCount y with
      | none =>
        rw [ofNode_uncounted hk' hc'] at h
        exact absurd h.symm uncounted_append_ne
      | some count' =>
        rw [ofNode_list hk' hc'] at h ⊢
        exact operation_append_inj hkind hread h

/-- Drawings that begin a text, and are followed by a delimiter if anything follows, can be read off
it. -/
theorem ofNode_append_inj {x : α} {y : β} (hd : depth + levels = o.maxDepth)
    (hx : NumbersPlain o depth x) (hy : NumbersPlain o depth y) {r r' : List Char} (hr : Delimited r)
    (hr' : Delimited r') (h : (ofNode o levels x).chars ++ r = (ofNode o levels y).chars ++ r') :
    ofNode o levels x = ofNode o levels y ∧ r = r' := by
  induction levels generalizing depth x y r r' with
  | zero => exact ⟨rfl, List.append_cancel_left h⟩
  | succ levels ih =>
    have hd' : depth + 1 + levels = o.maxDepth := by omega
    obtain ⟨hplain, hbelow⟩ := numbersPlain_iff.mp hx (by omega)
    obtain ⟨hplain', hbelow'⟩ := numbersPlain_iff.mp hy (by omega)
    rw [chars_eq, chars_eq, List.append_assoc, List.append_assoc] at h
    obtain ⟨hword, hargs⟩ := word_append_inj (isWord_word_ofNode hd hx).1 (isWord_word_ofNode hd hy).1
      (delimited_arguments _ hr) (delimited_arguments _ hr') h
    rw [word_ofNode_succ, word_ofNode_succ] at hword
    obtain ⟨hkind, hfield⟩ := kind_eq_of_firstWord hplain hplain' hword
    refine arguments_append_inj hkind hfield ?_ hargs
    intro slot hslot hslot'
    refine readApart_slotOf ?_ ?_ ?_
    · exact fun a ha => isWord_word_ofNode hd' (hbelow slot hslot a ha)
    · exact fun b hb => isWord_word_ofNode hd' (hbelow' slot hslot' b hb)
    · intro a ha b hb r r' hr hr' h
      exact ih hd' (hbelow slot hslot a ha) (hbelow' slot hslot' b hb) hr hr' h

end Outline

/-- Two trees with plain literals have the same text just if they show the same, and then every block
stands at the same place in both sketches. -/
theorem Sketch.text_eq_iff_shownAlike {x : α} {y : β} (hx : NumbersPlain o 0 x)
    (hy : NumbersPlain o 0 y) :
    ((ofNode o x).text = (ofNode o y).text ↔ ShownAlike o 0 x y) ∧
      ((ofNode o x).text = (ofNode o y).text →
        ∀ path, (ofNode o x).spanOf path = (ofNode o y).spanOf path) := by
  have hd : 0 + o.maxDepth = o.maxDepth := Nat.zero_add _
  have hread (h : (ofNode o x).text = (ofNode o y).text) :
      Outline.ofNode o o.maxDepth x = Outline.ofNode o o.maxDepth y := by
    have hnil : Outline.Delimited [] := by simp [Outline.Delimited]
    refine (Outline.ofNode_append_inj hd hx hy hnil hnil ?_).1
    exact congrArg (·.toList ++ []) h
  refine ⟨⟨fun h => (Outline.ofNode_eq_iff_shownAlike hd).mp (hread h), fun h => ?_⟩, fun h path => ?_⟩
  · rw [ofNode, (Outline.ofNode_eq_iff_shownAlike hd).mpr h, ofNode]
  · rw [ofNode, hread h, ofNode]

/-- `math_subtract(A: math_add(NUM0: …, NUM1: _), B: 2)`, drawn of two differences that are stored in
different ways. -/
theorem Sketch.text_eq_iff_shownAlike_difference :
    NumbersPlain { maxDepth := 2 } 0 plainDifference ∧
    NumbersPlain { maxDepth := 2 } 0 (⟨0, by decide⟩ : overgrownDifference.Ref) ∧
    (ofNode { maxDepth := 2 } plainDifference).text =
      (ofNode { maxDepth := 2 } (⟨0, by decide⟩ : overgrownDifference.Ref)).text ∧
    ShownAlike { maxDepth := 2 } 0 plainDifference (⟨0, by decide⟩ : overgrownDifference.Ref) ∧
    (ofNode { maxDepth := 2 } plainDifference).spanOf ["A", "NUM0"] =
      (ofNode { maxDepth := 2 } (⟨0, by decide⟩ : overgrownDifference.Ref)).spanOf ["A", "NUM0"] := by
  have hx : NumbersPlain { maxDepth := 2 } 0 plainDifference := by decide +kernel
  have hy : NumbersPlain { maxDepth := 2 } 0 (⟨0, by decide⟩ : overgrownDifference.Ref) := by
    decide +kernel
  have htext : (ofNode { maxDepth := 2 } plainDifference).text =
      (ofNode { maxDepth := 2 } (⟨0, by decide⟩ : overgrownDifference.Ref)).text := by decide +kernel
  obtain ⟨hiff, hspans⟩ := text_eq_iff_shownAlike hx hy
  exact ⟨hx, hy, htext, hiff.mp htext, hspans htext ["A", "NUM0"]⟩

end BlockCode
