import Mathlib
import BlockCode.Proofs.Spans

/- What a sketch shows of a tree. `ShownAlike` says that two trees show the same: at the same paths they
   have blocks of the same kind with the same literals, numbers of items and connected slots,
   as far as the limits on depth and on items go. The outline of a tree is just that
   (`Outline.ofNode_eq_iff_shownAlike`), and it is all that is drawn. -/
namespace BlockCode
universe u v
variable {α : Type u} {β : Type v} [Node α] [Node β] {o : Options} {depth levels : Nat}

/-! ## Blocks and trees that look the same -/

/-- Two blocks show the same of themselves: their kind, the literal of a number, the number of items
of a list, and which of the slots that are shown are connected. -/
structure LooksLike (o : Options) (x : α) (y : β) : Prop where
  kind : Node.kind x = Node.kind y
  literal : Node.kind x = .number → Node.field x numberField = Node.field y numberField
  count : ∀ op, Node.kind x = .list op → Node.itemCount x = Node.itemCount y
  connected : ∀ slot ∈ shownSlots o x, (Node.input x slot).isSome = (Node.input y slot).isSome

/-- Two trees show the same: blocks at the same paths, and above the depth limit blocks that look like
each other. -/
structure ShownAlike (o : Options) (depth : Nat) (x : α) (y : β) : Prop where
  paths : ∀ path, (∃ a, Shows o depth x path a) ↔ ∃ b, Shows o depth y path b
  blocks : ∀ path a b, Shows o depth x path a → Shows o depth y path b →
    depth + path.length < o.maxDepth → LooksLike o a b

theorem LooksLike.shownSlots_eq {x : α} {y : β} (h : LooksLike o x y) :
    shownSlots o x = shownSlots o y := by
  unfold shownSlots
  rw [← h.kind]
  cases hk : Node.kind x with
  | number | compare | binary => rfl
  | list op => simp only [h.count op hk]

namespace Outline

def kind? : Outline → Option Kind
  | cut => none
  | number _ => some .number
  | compare => some .compare
  | uncounted op => some (.list op)
  | operation kind _ _ => some kind

def slots : Outline → List (String × Option Outline)
  | operation _ slots _ => slots
  | _ => []

theorem kind?_ofNode_succ (o : Options) (levels : Nat) (node : α) :
    (ofNode o (levels + 1) node).kind? = some (Node.kind node) := by
  simp only [ofNode]
  cases Node.kind node with
  | number | compare | binary => rfl
  | list op => cases Node.itemCount node <;> rfl

theorem slots_ofNode_succ (o : Options) (levels : Nat) (node : α) :
    (ofNode o (levels + 1) node).slots = (shownSlots o node).map (slotOf o levels node) := by
  cases hk : Node.kind node with
  | number => simp [ofNode_number hk, shownSlots, hk, slots]
  | compare => simp [ofNode_compare hk, shownSlots, hk, slots]
  | binary op => rw [ofNode_binary hk, slots]
  | list op =>
    cases hc : Node.itemCount node with
    | none => simp [ofNode_uncounted hk hc, shownSlots, hk, hc, slots]
    | some count => rw [ofNode_list hk hc, slots]

theorem slotOf_eq_iff {x : α} {y : β} {slot : String} :
    slotOf o levels x slot = slotOf o levels y slot ↔
      (Node.input x slot).isSome = (Node.input y slot).isSome ∧
        ∀ a ∈ Node.input x slot, ∀ b ∈ Node.input y slot, ofNode o levels a = ofNode o levels b := by
  unfold slotOf
  cases Node.input x slot <;> cases Node.input y slot <;> simp

/-- The items that are shown and the number of those that are not tell the number of items. -/
theorem count_eq_of_shown {count count' : Nat} (hshown : itemSlots (o.shown count) = itemSlots (o.shown count'))
    (hhidden : count - o.shown count = count' - o.shown count') : count = count' := by
  have hlength := congrArg List.length hshown
  simp only [itemSlots, List.length_map, List.length_range] at hlength
  have := o.shown_le count
  have := o.shown_le count'
  omega

theorem looksLike_of_ofNode_eq {x : α} {y : β} (h : ofNode o (levels + 1) x = ofNode o (levels + 1) y) :
    LooksLike o x y ∧ ∀ slot ∈ shownSlots o x, slotOf o levels x slot = slotOf o levels y slot := by
  have hkind : Node.kind x = Node.kind y := by
    have hkinds := congrArg kind? h
    rwa [kind?_ofNode_succ, kind?_ofNode_succ, Option.some.injEq] at hkinds
  have hslots := congrArg slots h
  rw [slots_ofNode_succ, slots_ofNode_succ] at hslots
  have hnames : shownSlots o x = shownSlots o y := by
    have hfst := congrArg (List.map Prod.fst) hslots
    rwa [map_fst_slotOf, map_fst_slotOf] at hfst
  rw [← hnames, List.map_inj_left] at hslots
  refine ⟨⟨hkind, ?_, ?_, fun slot hslot => (slotOf_eq_iff.mp (hslots slot hslot)).1⟩, hslots⟩
  · intro hk
    rw [ofNode_number hk, ofNode_number (hkind ▸ hk)] at h
    exact number.inj h
  · intro op hk
    have hk' : Node.kind y = .list op := hkind ▸ hk
    cases hc : Node.itemCount x with
    | none =>
      cases hc' : Node.itemCount y with
      | none => rfl
      | some count => rw [ofNode_uncounted hk hc, ofNode_list hk' hc'] at h; cases h
    | some count =>
      cases hc' : Node.itemCount y with
      | none => rw [ofNode_list hk hc, ofNode_uncounted hk' hc'] at h; cases h
      | some count' =>
        rw [ofNode_list hk hc, ofNode_list hk' hc'] at h
        simp only [shownSlots, hk, hk', hc, hc', Option.elim_some] at hnames
        rw [count_eq_of_shown hnames (operation.inj h).2.2]

theorem ofNode_eq_of_looksLike {x : α} {y : β} (h : LooksLike o x y)
    (hslots : ∀ slot ∈ shownSlots o x, slotOf o levels x slot = slotOf o levels y slot) :
    ofNode o (levels + 1) x = ofNode o (levels + 1) y := by
  have hmap : (shownSlots o x).map (slotOf o levels x) = (shownSlots o y).map (slotOf o levels y) := by
    rw [← h.shownSlots_eq]
    exact List.map_congr_left hslots
  cases hk : Node.kind x with
  | number => rw [ofNode_number hk, ofNode_number (h.kind ▸ hk), h.literal hk]
  | compare => rw [ofNode_compare hk, ofNode_compare (h.kind ▸ hk)]
  | binary op => rw [ofNode_binary hk, ofNode_binary (h.kind ▸ hk), hmap]
  | list op =>
    have hk' : Node.kind y = .list op := h.kind ▸ hk
    have hcount := h.count op hk
    cases hc : Node.itemCount x with
    | none => rw [ofNode_uncounted hk hc, ofNode_uncounted hk' (hcount ▸ hc)]
    | some count => rw [ofNode_list hk hc, ofNode_list hk' (hcount ▸ hc), hmap]

end Outline

theorem shows_cons_iff {node block : α} {slot : String} {path : Path} :
    Shows o depth node (slot :: path) block ↔ depth < o.maxDepth ∧ slot ∈ shownSlots o node ∧
      ∃ child, Node.input node slot = some child ∧ Shows o (depth + 1) child path block := by
  constructor
  · intro h
    cases h with
    | slot hd hslot hchild h => exact ⟨hd, hslot, _, hchild, h⟩
  · rintro ⟨hd, hslot, child, hchild, h⟩
    exact .slot hd hslot hchild h

theorem shownAlike_of_le (hd : o.maxDepth ≤ depth) (x : α) (y : β) : ShownAlike o depth x y where
  paths path := by
    cases path with
    | nil => exact ⟨fun _ => ⟨y, .root⟩, fun _ => ⟨x, .root⟩⟩
    | cons slot path =>
      simp only [shows_cons_iff]
      constructor <;> rintro ⟨_, hlt, _⟩ <;> omega
  blocks path a b _ _ hlt := by omega

/-- Trees show the same if their roots look alike and what is in their slots shows the same. -/
theorem shownAlike_of_lt {x : α} {y : β} (hd : depth < o.maxDepth) :
    ShownAlike o depth x y ↔ LooksLike o x y ∧ ∀ slot ∈ shownSlots o x, ∀ a ∈ Node.input x slot,
      ∀ b ∈ Node.input y slot, ShownAlike o (depth + 1) a b := by
  constructor
  · intro h
    have hlooks := h.blocks [] x y .root .root hd
    refine ⟨hlooks, ?_⟩
    intro slot hslot a ha b hb
    have hslot' : slot ∈ shownSlots o y := hlooks.shownSlots_eq ▸ hslot
    constructor
    · intro path
      have hpaths := h.paths (slot :: path)
      simp only [shows_cons_iff, hd, hslot, hslot', Option.mem_def.mp ha, Option.mem_def.mp hb,
        true_and, Option.some.injEq, exists_eq_left'] at hpaths
      exact hpaths
    · intro path c d hc hd' hlt
      exact h.blocks (slot :: path) c d (.slot hd hslot ha hc) (.slot hd hslot' hb hd')
        (by rwa [depth_cons])
  · rintro ⟨hlooks, hbelow⟩
    constructor
    · intro path
      cases path with
      | nil => exact ⟨fun _ => ⟨y, .root⟩, fun _ => ⟨x, .root⟩⟩
      | cons slot path =>
        constructor
        · rintro ⟨a, ha⟩
          obtain ⟨_, hslot, a', ha', hshows⟩ := shows_cons_iff.mp ha
          have hsome := hlooks.connected slot hslot
          rw [ha', Option.isSome_some] at hsome
          obtain ⟨b', hb'⟩ := Option.isSome_iff_exists.mp hsome.symm
          obtain ⟨b, hb⟩ := ((hbelow slot hslot a' ha' b' hb').paths path).mp ⟨a, hshows⟩
          exact ⟨b, .slot hd (hlooks.shownSlots_eq ▸ hslot) hb' hb⟩
        · rintro ⟨b, hb⟩
          obtain ⟨_, hslot, b', hb', hshows⟩ := shows_cons_iff.mp hb
          rw [← hlooks.shownSlots_eq] at hslot
          have hsome := hlooks.connected slot hslot
          rw [hb', Option.isSome_some] at hsome
          obtain ⟨a', ha'⟩ := Option.isSome_iff_exists.mp hsome
          obtain ⟨a, ha⟩ := ((hbelow slot hslot a' ha' b' hb').paths path).mpr ⟨b, hshows⟩
          exact ⟨a, .slot hd hslot ha' ha⟩
    · intro path a b ha hb hlt
      cases path with
      | nil =>
        cases ha
        cases hb
        exact hlooks
      | cons slot path =>
        obtain ⟨_, hslot, a', ha', hshows⟩ := shows_cons_iff.mp ha
        obtain ⟨_, _, b', hb', hshows'⟩ := shows_cons_iff.mp hb
        rw [depth_cons] at hlt
        exact (hbelow slot hslot a' ha' b' hb').blocks path a b hshows hshows' hlt

/-- The outline is what a tree shows. -/
theorem Outline.ofNode_eq_iff_shownAlike {x : α} {y : β} (hd : depth + levels = o.maxDepth) :
    ofNode o levels x = ofNode o levels y ↔ ShownAlike o depth x y := by
  induction levels generalizing depth x y with
  | zero => exact ⟨fun _ => shownAlike_of_le (by omega) x y, fun _ => rfl⟩
  | succ levels ih =>
    have hd' : depth + 1 + levels = o.maxDepth := by omega
    rw [shownAlike_of_lt (by omega)]
    constructor
    · intro h
      obtain ⟨hlooks, hslots⟩ := looksLike_of_ofNode_eq h
      refine ⟨hlooks, ?_⟩
      intro slot hslot a ha b hb
      exact (ih hd').mp ((slotOf_eq_iff.mp (hslots slot hslot)).2 a ha b hb)
    · rintro ⟨hlooks, hbelow⟩
      refine ofNode_eq_of_looksLike hlooks ?_
      intro slot hslot
      refine slotOf_eq_iff.mpr ⟨hlooks.connected slot hslot, ?_⟩
      intro a ha b hb
      exact (ih hd').mpr (hbelow slot hslot a ha b hb)

end BlockCode
