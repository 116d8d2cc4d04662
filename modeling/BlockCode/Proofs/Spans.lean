import Mathlib
import BlockCode.Block
import BlockCode.Graph
import BlockCode.Proofs.Drawing
import BlockCode.Proofs.FirstFault

/- Where the blocks of a tree stand in its sketch. `Shows` follows the connected slots
   that a sketch shows from block to block, as `Reaches` follows those that a
   compilation reads. `spanOf_ofNode` says that the spans are an exact map of the text:

   * exactly the blocks that are shown have a span, and the text there is the sketch
     of the block in its own right, with as many levels as are left for it;
   * a block stands strictly inside the blocks above it;
   * of two blocks side by side, the one that comes first in pre-order ends before the
     other begins.

   All this follows from what happens in one step, from a block to its slots
   (`atDepth_holds`, `atDepth_order`, `atDepth_spanOf_eq_none`). -/
namespace BlockCode
universe u
variable {α : Type u} [Node α] {o : Options} {depth levels : Nat} {node : α}

/-! ## What is shown -/

/-- The slots of a block that a sketch shows, in order. -/
def shownSlots (o : Options) (node : α) : List String :=
  match Node.kind node with
  | .number | .compare => []
  | .binary _ => [slotA, slotB]
  | .list _ => (Node.itemCount node).elim [] fun count => itemSlots (o.shown count)

theorem Options.shown_le (o : Options) (count : Nat) : o.shown count ≤ count := by
  unfold Options.shown
  cases o.maxListItems with
  | none => exact Nat.le_refl count
  | some limit => exact Nat.min_le_left count limit

/-- The path leads from a block at a depth to another block, through connected slots
that a sketch shows. -/
inductive Shows (o : Options) : Nat → α → Path → α → Prop where
  | root {depth : Nat} {node : α} : Shows o depth node [] node
  | slot {depth : Nat} {node child block : α} {slot : String} {path : Path} :
    depth < o.maxDepth → slot ∈ shownSlots o node → Node.input node slot = some child →
    Shows o (depth + 1) child path block → Shows o depth node (slot :: path) block

theorem pairwise_shownSlots (o : Options) (node : α) : (shownSlots o node).Pairwise SlotBefore := by
  unfold shownSlots
  cases Node.kind node with
  | number | compare => exact .nil
  | binary op => exact pairwise_operandSlots
  | list op =>
    cases Node.itemCount node with
    | none => exact .nil
    | some count => exact pairwise_itemSlots (o.shown count)

theorem Shows.split {p q : Path} {block : α} (h : Shows o depth node (p ++ q) block) :
    ∃ middle, Shows o depth node p middle ∧ Shows o (depth + p.length) middle q block := by
  induction p generalizing depth node with
  | nil => exact ⟨node, .root, h⟩
  | cons slot p ih =>
    cases h with
    | slot hd hslot hchild h =>
      obtain ⟨middle, hp, hq⟩ := ih h
      rw [← depth_cons depth slot p] at hq
      exact ⟨middle, .slot hd hslot hchild hp, hq⟩

/-! ## One block -/

theorem Outline.ofNode_congr {o' : Options} (h : o.maxListItems = o'.maxListItems) (levels : Nat)
    (node : α) : ofNode o levels node = ofNode o' levels node := by
  induction levels generalizing node with
  | zero => rfl
  | succ levels ih =>
    have hfun : ofNode o levels = (ofNode o' levels : α → Outline) := funext ih
    simp only [ofNode, hfun, Options.shown, h]

namespace Outline

/-- What is in a slot of a block, as its outline has it. -/
def slotOf (o : Options) (levels : Nat) (node : α) (slot : String) : String × Option Outline :=
  (slot, (Node.input node slot).map (ofNode o levels))

theorem ofNode_number (hk : Node.kind node = .number) :
    ofNode o (levels + 1) node = number (Node.field node numberField) := by
  simp only [ofNode, hk]

theorem ofNode_compare (hk : Node.kind node = .compare) : ofNode o (levels + 1) node = compare := by
  simp only [ofNode, hk]

theorem ofNode_binary {op : BinaryOp} (hk : Node.kind node = .binary op) :
    ofNode o (levels + 1) node =
      operation (.binary op) ((shownSlots o node).map (slotOf o levels node)) 0 := by
  simp only [ofNode, shownSlots, hk]
  rfl

theorem ofNode_uncounted {op : ListOp} (hk : Node.kind node = .list op)
    (hc : Node.itemCount node = none) : ofNode o (levels + 1) node = uncounted op := by
  simp only [ofNode, hk, hc]

theorem ofNode_list {op : ListOp} {count : Nat} (hk : Node.kind node = .list op)
    (hc : Node.itemCount node = some count) : ofNode o (levels + 1) node =
      operation (.list op) ((shownSlots o node).map (slotOf o levels node))
        (count - o.shown count) := by
  simp only [ofNode, shownSlots, hk, hc, Option.elim_some, itemSlots, List.map_map]
  rfl

theorem map_fst_slotOf (o : Options) (levels : Nat) (node : α) (slots : List String) :
    (slots.map (slotOf o levels node)).map Prod.fst = slots := by
  rw [List.map_map]
  exact List.map_id slots

end Outline

/-- The sketch of a block at a depth. So many levels fewer are shown of it. -/
def Sketch.atDepth (o : Options) (depth : Nat) (node : α) : Sketch :=
  ofNode { o with maxDepth := o.maxDepth - depth } node

namespace Sketch

theorem atDepth_eq (o : Options) (depth : Nat) (node : α) :
    atDepth o depth node = (Outline.ofNode o (o.maxDepth - depth) node).sketch := by
  have h : ({ o with maxDepth := o.maxDepth - depth } : Options).maxListItems = o.maxListItems := rfl
  rw [atDepth, ofNode, Outline.ofNode_congr h]

theorem atDepth_of_le (h : o.maxDepth ≤ depth) (node : α) :
    atDepth o depth node = (plain "…").asBlock := by
  rw [atDepth_eq, Nat.sub_eq_zero_of_le h, Outline.ofNode, Outline.sketch]

/-- What is in a slot, as the outline of a block at a depth has it. -/
def slotAt (o : Options) (depth : Nat) (node : α) (slot : String) : String × Option Outline :=
  (slot, (Node.input node slot).map (Outline.ofNode o (o.maxDepth - (depth + 1))))

/-- A block shows no slots at all, or it is drawn with its slots. -/
theorem atDepth_cases (h : depth < o.maxDepth) (node : α) :
    (shownSlots o node = [] ∧ ∃ text, atDepth o depth node = (plain text).asBlock) ∨
      ∃ hidden, atDepth o depth node = (Outline.operation (Node.kind node)
        ((shownSlots o node).map (slotAt o depth node)) hidden).sketch := by
  have hlevels : o.maxDepth - depth = o.maxDepth - (depth + 1) + 1 := by omega
  rw [atDepth_eq, hlevels]
  cases hk : Node.kind node with
  | number => exact .inl ⟨by simp only [shownSlots, hk], _, by rw [Outline.ofNode_number hk, Outline.sketch]⟩
  | compare => exact .inl ⟨by simp only [shownSlots, hk], _, by rw [Outline.ofNode_compare hk, Outline.sketch]⟩
  | binary op => exact .inr ⟨0, by rw [Outline.ofNode_binary hk]; rfl⟩
  | list op =>
    cases hc : Node.itemCount node with
    | none =>
      have hslots : shownSlots o node = [] := by simp only [shownSlots, hk, hc, Option.elim_none]
      exact .inl ⟨hslots, _, by rw [Outline.ofNode_uncounted hk hc, Outline.sketch]⟩
    | some count => exact .inr ⟨count - o.shown count, by rw [Outline.ofNode_list hk hc]; rfl⟩

theorem mem_of_connected {slots : List String} {slot : String}
    (h : Outline.Connected (slots.map (slotAt o depth node)) slot) :
    slot ∈ slots ∧ Node.input node slot ≠ none := by
  obtain ⟨child, hchild⟩ := h
  obtain ⟨s, hs, heq⟩ := List.mem_map.mp hchild
  obtain ⟨rfl, hinput⟩ := Prod.mk.inj heq
  refine ⟨hs, ?_⟩
  intro hnone
  rw [hnone] at hinput
  cases hinput

theorem slotAt_of_input {slot : String} {child : α} (h : Node.input node slot = some child) :
    slotAt o depth node slot = (slot, some (Outline.ofNode o (o.maxDepth - (depth + 1)) child)) := by
  rw [slotAt, h]
  rfl

/-- The text of a block at a depth up to what is in a slot, with the slots before it. -/
def leadAt (o : Options) (depth : Nat) (node : α) (before : List String) (slot : String) : String :=
  (concat (Outline.lead (Node.kind node) (before.map (slotAt o depth node)) slot)).text

theorem atDepth_holds_split (hd : depth < o.maxDepth) {before after : List String} {slot : String}
    {child : α} (hsplit : shownSlots o node = before ++ slot :: after)
    (hchild : Node.input node slot = some child) : ∃ hidden, Holds (atDepth o depth node)
      (atDepth o (depth + 1) child) [slot] (leadAt o depth node before slot)
      (concat (Outline.trail (after.map (slotAt o depth node)) hidden)).text := by
  obtain ⟨hnil, _⟩ | ⟨hidden, hdraw⟩ := atDepth_cases hd node
  · rw [hsplit] at hnil
    simp at hnil
  · have hnodup : (before ++ slot :: after).Pairwise SlotBefore := hsplit ▸ pairwise_shownSlots o node
    obtain ⟨_, hslot, hcross⟩ := List.pairwise_append.mp hnodup
    have hbefore : ¬ Outline.Connected (before.map (slotAt o depth node)) slot := by
      intro hc
      exact (hcross slot (mem_of_connected hc).1 slot List.mem_cons_self).irrefl
    have hafter : ¬ Outline.Connected (after.map (slotAt o depth node)) slot := by
      intro hc
      exact ((List.pairwise_cons.mp hslot).1 slot (mem_of_connected hc).1).irrefl
    rw [hdraw, hsplit, List.map_append, List.map_cons, slotAt_of_input hchild, atDepth_eq]
    exact ⟨hidden, Outline.holds_slot (Node.kind node) _ hidden hbefore hafter⟩

theorem atDepth_holds (hd : depth < o.maxDepth) {slot : String} {child : α}
    (hslot : slot ∈ shownSlots o node) (hchild : Node.input node slot = some child) :
    ∃ before after, Holds (atDepth o depth node) (atDepth o (depth + 1) child) [slot] before after := by
  obtain ⟨_, _, hsplit⟩ := List.append_of_mem hslot
  obtain ⟨_, hholds⟩ := atDepth_holds_split hd hsplit hchild
  exact ⟨_, _, hholds⟩

/-- What is in a later slot begins after the end of what is in an earlier one. -/
theorem atDepth_order (hd : depth < o.maxDepth) {s t : String} {child child' : α}
    (hs : s ∈ shownSlots o node) (ht : t ∈ shownSlots o node) (hst : SlotBefore s t)
    (hchild : Node.input node s = some child) (hchild' : Node.input node t = some child') :
    ∃ before after before' after',
      Holds (atDepth o depth node) (atDepth o (depth + 1) child) [s] before after ∧
      Holds (atDepth o depth node) (atDepth o (depth + 1) child') [t] before' after' ∧
      before.utf8ByteSize + (atDepth o (depth + 1) child).size < before'.utf8ByteSize := by
  obtain ⟨l, m, r, hsplit⟩ := split_of_slotBefore (pairwise_shownSlots o node) hs ht hst
  have hsplit' : shownSlots o node = (l ++ s :: m) ++ t :: r := by simp [hsplit]
  obtain ⟨_, hholds⟩ := atDepth_holds_split hd hsplit hchild
  obtain ⟨_, hholds'⟩ := atDepth_holds_split hd hsplit' hchild'
  refine ⟨_, _, _, _, hholds, hholds', ?_⟩
  have hlt := Outline.size_lead_lt (Node.kind node) (l.map (slotAt o depth node))
    (m.map (slotAt o depth node)) s t (Outline.ofNode o (o.maxDepth - (depth + 1)) child)
  rw [← atDepth_eq, ← slotAt_of_input hchild, ← List.map_cons, ← List.map_append] at hlt
  exact hlt

theorem atDepth_spanOf_eq_none {slot : String} (h : depth < o.maxDepth → slot ∈ shownSlots o node →
    Node.input node slot = none) (path : Path) : (atDepth o depth node).spanOf (slot :: path) = none := by
  by_cases hd : depth < o.maxDepth
  · obtain ⟨_, text, hdraw⟩ | ⟨hidden, hdraw⟩ := atDepth_cases hd node
    · rw [hdraw]
      rfl
    · rw [hdraw]
      refine Outline.spanOf_operation_eq_none _ hidden ?_ path
      intro hc
      obtain ⟨hslot, hinput⟩ := mem_of_connected hc
      exact hinput (h hd hslot)
  · rw [atDepth_of_le (Nat.not_lt.mp hd)]
    rfl

theorem atDepth_spanOf_root (o : Options) (depth : Nat) (node : α) :
    (atDepth o depth node).spanOf [] = some ⟨0, (atDepth o depth node).size⟩ := by
  rw [atDepth_eq]
  exact Outline.spanOf_root _

/-! ## Whole trees -/

theorem holds_of_shows {path : Path} {block : α} (h : Shows o depth node path block) :
    ∃ before after, Holds (atDepth o depth node) (atDepth o (depth + path.length) block) path
      before after := by
  induction h with
  | root => exact ⟨"", "", .refl _⟩
  | @slot depth node child block slot path hd hslot hchild _ ih =>
    obtain ⟨before, after, hholds⟩ := atDepth_holds hd hslot hchild
    obtain ⟨before', after', ih⟩ := ih
    rw [← depth_cons depth slot path] at ih
    exact ⟨_, _, hholds.trans ih⟩

theorem shows_of_spanOf {path : Path} {span : Span} (h : (atDepth o depth node).spanOf path = some span) :
    ∃ block, Shows o depth node path block := by
  induction path generalizing depth node span with
  | nil => exact ⟨node, .root⟩
  | cons slot path ih =>
    by_cases hshown : depth < o.maxDepth ∧ slot ∈ shownSlots o node ∧ Node.input node slot ≠ none
    · obtain ⟨hd, hslot, hinput⟩ := hshown
      obtain ⟨child, hchild⟩ := Option.ne_none_iff_exists'.mp hinput
      obtain ⟨before, after, hholds⟩ := atDepth_holds hd hslot hchild
      have hbelow := hholds.spanOf path
      rw [List.singleton_append, h] at hbelow
      obtain ⟨span', hspan', _⟩ := Option.map_eq_some_iff.mp hbelow.symm
      obtain ⟨block, hblock⟩ := ih hspan'
      exact ⟨block, .slot hd hslot hchild hblock⟩
    · have hnone : (atDepth o depth node).spanOf (slot :: path) = none := by
        refine atDepth_spanOf_eq_none ?_ path
        intro hd hslot
        by_contra hinput
        exact hshown ⟨hd, hslot, hinput⟩
      rw [hnone] at h
      cases h

theorem Holds.span {outer : Sketch} {path : Path} {before after : String} {block : α}
    (h : Holds outer (atDepth o depth block) path before after) :
    outer.spanOf path =
      some ⟨before.utf8ByteSize, before.utf8ByteSize + (atDepth o depth block).size⟩ := by
  have hspan := h.spanOf []
  rw [List.append_nil, atDepth_spanOf_root] at hspan
  exact hspan

theorem holds_of_spanOf {path : Path} {span : Span} (h : (atDepth o depth node).spanOf path = some span) :
    ∃ (block : α) (before after : String),
      Holds (atDepth o depth node) (atDepth o (depth + path.length) block) path before after ∧
      span.start = before.utf8ByteSize ∧
      span.stop = before.utf8ByteSize + (atDepth o (depth + path.length) block).size := by
  obtain ⟨block, hshows⟩ := shows_of_spanOf h
  obtain ⟨before, after, hholds⟩ := holds_of_shows hshows
  obtain rfl := Option.some.inj (hholds.span.symm.trans h)
  exact ⟨block, before, after, hholds, rfl, rfl⟩

/-- Every span is in the text, and strictly inside if it is not that of the whole. -/
theorem spanOf_bounds {path : Path} {span : Span} (h : (atDepth o depth node).spanOf path = some span) :
    span.start ≤ span.stop ∧ span.stop ≤ (atDepth o depth node).size ∧
      (path ≠ [] → 0 < span.start ∧ span.stop < (atDepth o depth node).size) := by
  obtain ⟨block, before, after, hholds, hstart, hstop⟩ := holds_of_spanOf h
  have hsize := hholds.size
  refine ⟨by omega, by omega, ?_⟩
  intro hpath
  have := hholds.inside hpath
  omega

theorem spanOf_nested {p q : Path} {sp sq : Span} (hp : (atDepth o depth node).spanOf p = some sp)
    (hq : (atDepth o depth node).spanOf (p ++ q) = some sq) (hne : q ≠ []) :
    sp.start < sq.start ∧ sq.stop < sp.stop := by
  obtain ⟨block, before, after, hholds, hstart, hstop⟩ := holds_of_spanOf hp
  rw [hholds.spanOf] at hq
  obtain ⟨span, hspan, rfl⟩ := Option.map_eq_some_iff.mp hq
  obtain ⟨_, _, hinside⟩ := spanOf_bounds hspan
  have := hinside hne
  simp only [Span.shift]
  omega

/-- Of two blocks in different slots one comes first, and it ends before the other begins. -/
theorem spanOf_apart {common p q : Path} {s t : String} {sp sq : Span} (hst : s ≠ t)
    (hp : (atDepth o depth node).spanOf (common ++ s :: p) = some sp)
    (hq : (atDepth o depth node).spanOf (common ++ t :: q) = some sq) :
    (SlotBefore s t ∨ SlotBefore t s) ∧ (SlotBefore s t → sp.stop < sq.start) := by
  obtain ⟨_, hshows⟩ := shows_of_spanOf hp
  obtain ⟨middle, hcommon, hs⟩ := hshows.split
  obtain ⟨before, after, hholds⟩ := holds_of_shows hcommon
  -- from here on both are in the block where the paths part
  rw [hholds.spanOf] at hp hq
  obtain ⟨sp', hp', rfl⟩ := Option.map_eq_some_iff.mp hp
  obtain ⟨sq', hq', rfl⟩ := Option.map_eq_some_iff.mp hq
  obtain ⟨_, ht⟩ := shows_of_spanOf hq'
  cases hs with
  | slot hd hs hc _ =>
    cases ht with
    | slot _ ht hc' _ =>
      refine ⟨slotBefore_or_of_mem (pairwise_shownSlots o middle) hs ht hst, ?_⟩
      intro hst
      obtain ⟨_, _, _, _, hleft, hright, hlt⟩ := atDepth_order hd hs ht hst hc hc'
      rw [← List.singleton_append, hleft.spanOf] at hp'
      rw [← List.singleton_append, hright.spanOf] at hq'
      obtain ⟨span, hspan, rfl⟩ := Option.map_eq_some_iff.mp hp'
      obtain ⟨span', _, rfl⟩ := Option.map_eq_some_iff.mp hq'
      have := (spanOf_bounds hspan).2.1
      simp only [Span.shift]
      omega

theorem ancestors_eq_cons (path : Path) : ∃ above, ancestors path = path :: above := by
  induction path with
  | nil => exact ⟨[], rfl⟩
  | cons slot path ih =>
    obtain ⟨above, habove⟩ := ih
    exact ⟨above.map (slot :: ·) ++ [[]], by rw [ancestors, habove]; rfl⟩

theorem nearestSpan_of_spanOf {x : Sketch} {path : Path} {span : Span} (h : x.spanOf path = some span) :
    x.nearestSpan path = span := by
  obtain ⟨above, habove⟩ := ancestors_eq_cons path
  rw [nearestSpan, habove, List.findSome?_cons, h]
  rfl

theorem spanOf_inj {p q : Path} {span : Span} (hp : (atDepth o depth node).spanOf p = some span)
    (hq : (atDepth o depth node).spanOf q = some span) : p = q := by
  by_cases hpq : p <+: q
  · obtain ⟨r, rfl⟩ := hpq
    by_contra hne
    have := (spanOf_nested hp hq (by simpa using hne)).1
    omega
  · by_cases hqp : q <+: p
    · obtain ⟨r, rfl⟩ := hqp
      by_contra hne
      have := (spanOf_nested hq hp (by simpa using hne)).1
      omega
    · obtain ⟨common, s, t, p', q', rfl, rfl, hst⟩ := Path.fork_of_not_prefix hpq hqp
      have hle := (spanOf_bounds hp).1
      obtain ⟨hst' | hts, hlt⟩ := spanOf_apart hst hp hq
      · have := hlt hst'
        omega
      · have := (spanOf_apart hst.symm hq hp).2 hts
        omega

/-- The spans of a sketch are an exact map of its text: they belong to the blocks that are
shown, have the sketches of those blocks as their texts, and lie in each other or one after
the other as the blocks do. -/
theorem spanOf_ofNode (o : Options) (node : α) :
    (∀ p, (∃ span, (ofNode o node).spanOf p = some span) ↔ ∃ block, Shows o 0 node p block) ∧
    (ofNode o node).spanOf [] = some ⟨0, (ofNode o node).size⟩ ∧
    (∀ p block, Shows o 0 node p block → ∃ span, (ofNode o node).spanOf p = some span ∧
      String.Pos.Raw.IsValid (ofNode o node).text ⟨span.start⟩ ∧
      String.Pos.Raw.IsValid (ofNode o node).text ⟨span.stop⟩ ∧
      (ofNode o node).textAt span = (atDepth o p.length block).text ∧
      ∀ q, (ofNode o node).spanOf (p ++ q) =
        ((atDepth o p.length block).spanOf q).map (Span.shift span.start)) ∧
    ∀ p q sp sq, (ofNode o node).spanOf p = some sp → (ofNode o node).spanOf q = some sq →
      (p <+: q → p ≠ q → sp.start < sq.start ∧ sq.stop < sp.stop) ∧
      (¬ p <+: q → ¬ q <+: p →
        (p.Before q ∨ q.Before p) ∧ (p.Before q → sp.stop < sq.start)) := by
  have hroot : ofNode o node = atDepth o 0 node := rfl
  rw [hroot]
  refine ⟨?_, atDepth_spanOf_root o 0 node, ?_, ?_⟩
  · intro p
    constructor
    · intro h
      obtain ⟨span, hspan⟩ := h
      exact shows_of_spanOf hspan
    · intro h
      obtain ⟨block, hshows⟩ := h
      obtain ⟨_, _, hholds⟩ := holds_of_shows hshows
      exact ⟨_, hholds.span⟩
  · intro p block hshows
    obtain ⟨before, after, hholds⟩ := holds_of_shows hshows
    rw [Nat.zero_add] at hholds
    exact ⟨_, hholds.span, hholds.isValid.1, hholds.isValid.2, hholds.textAt, hholds.spanOf⟩
  · intro p q sp sq hp hq
    constructor
    · intro hprefix hne
      obtain ⟨r, rfl⟩ := hprefix
      refine spanOf_nested hp hq ?_
      intro hr
      exact hne (by rw [hr, List.append_nil])
    · intro hpq hqp
      obtain ⟨common, s, t, p', q', rfl, rfl, hst⟩ := Path.fork_of_not_prefix hpq hqp
      rw [Path.before_fork_iff hst, Path.before_fork_iff hst.symm]
      exact spanOf_apart hst hp hq

/-- A sum of three items: a power of the sum itself, a number that no instruction pushes, and
once more the sum. -/
def circularSum : Graph where
  cells := #[
    ⟨.list .add, [], [("NUM0", 1), ("NUM1", 2), ("NUM2", 0)], some 3⟩,
    ⟨.binary .power, [], [("A", 0)], none⟩,
    ⟨.number, [(numberField, "½")], [], none⟩]

/-- `math_add(NUM0: math_power(A: …, B: _), NUM1: ½, …1 more)` -/
def circularSumSketch : Sketch :=
  ofNode { maxDepth := 2, maxListItems := some 2 } (⟨0, by decide⟩ : circularSum.Ref)

theorem spanOf_ofNode_circularSum :
    circularSumSketch.spanOf ["NUM0"] = some ⟨15, 39⟩ ∧
    circularSumSketch.spanOf ["NUM0", "A"] = some ⟨29, 32⟩ ∧
    circularSumSketch.spanOf ["NUM1"] = some ⟨47, 49⟩ ∧ circularSumSketch.spanOf ["NUM2"] = none ∧
    String.Pos.Raw.IsValid circularSumSketch.text ⟨29⟩ ∧
    String.Pos.Raw.IsValid circularSumSketch.text ⟨32⟩ ∧
    circularSumSketch.textAt ⟨29, 32⟩ = "…" ∧ (15 < 29 ∧ 32 < 39) ∧ 39 < 47 := by
  have hpower : circularSumSketch.spanOf ["NUM0"] = some ⟨15, 39⟩ := by decide +kernel
  have hcut : circularSumSketch.spanOf ["NUM0", "A"] = some ⟨29, 32⟩ := by decide +kernel
  have hnumber : circularSumSketch.spanOf ["NUM1"] = some ⟨47, 49⟩ := by decide +kernel
  obtain ⟨_, _, hshows, horder⟩ := spanOf_ofNode { maxDepth := 2, maxListItems := some 2 }
    (⟨0, by decide⟩ : circularSum.Ref)
  obtain ⟨span, hspan, hstart, hstop, htext, _⟩ := hshows ["NUM0", "A"] ⟨0, by decide⟩
    (.slot (by decide) (by decide) rfl (.slot (by decide) (by decide) rfl .root))
  obtain rfl := Option.some.inj (hspan.symm.trans hcut)
  refine ⟨hpower, hcut, hnumber, by decide +kernel, hstart, hstop, htext, ?_, ?_⟩
  · exact (horder _ _ _ _ hpower hcut).1 (by decide) (by decide)
  · refine ((horder _ _ _ _ hpower hnumber).2 (by decide) (by decide)).2 (.slot ?_)
    exact .inr ⟨0, 1, by decide, rfl, rfl⟩

end Sketch

end BlockCode
