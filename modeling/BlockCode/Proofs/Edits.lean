import Mathlib
import BlockCode.Block
import BlockCode.Compile
import BlockCode.Sketch

/- Blocks and the edits that made them. An edit writes a field, connects or disconnects a slot, or
   sets the number of items. `edited_extensional` says that of all edits a block keeps what was
   last done to each field, to each slot and to the number of items, and that nothing else of its
   history shows: blocks are equal exactly if every look-up agrees, whatever the order in which they
   were put together.

   What one edit does is said by `field_apply`, `input_apply` and their like; the statements about
   whole histories go by induction from the last edit back. That equal look-ups make equal blocks
   rests on the order of the tables, which every edit keeps (`Tidy.apply`). -/
namespace BlockCode

namespace Block

/-! ## Edits -/

inductive Edit where
  | write (name text : String)
  | connect (slot : String) (child : Block)
  | setCount (count : Nat)
  | take (slot : String)

namespace Edit

def apply (b : Block) : Edit → Block
  | write name text => b.withField name text
  | connect slot child => b.withInput slot child
  | setCount count => b.withItemCount count
  | take slot => (b.takeInput slot).2

def text? (name : String) : Edit → Option String
  | write key text => if name = key then some text else none
  | _ => none

/-- The block that the edit connects to a slot. -/
def child? (slot : String) : Edit → Option Block
  | connect key child => if slot = key then some child else none
  | _ => none

def count? : Edit → Option Nat
  | setCount count => some count
  | _ => none

def takes (slot : String) : Edit → Bool
  | take key => slot = key
  | _ => false

end Edit

/-- The block after the edits, the first of them first. -/
def edited (b : Block) (edits : List Edit) : Block := edits.foldl Edit.apply b

def lastText (name : String) (edits : List Edit) : Option String :=
  (edits.filterMap (Edit.text? name)).getLast?

/-- The edits since a slot was last disconnected. -/
def sinceTaken (slot : String) (edits : List Edit) : List Edit :=
  edits.rtakeWhile fun e => !e.takes slot

/-- The block last connected to a slot since it was last disconnected. -/
def lastConnected (slot : String) (edits : List Edit) : Option Block :=
  ((sinceTaken slot edits).filterMap (Edit.child? slot)).getLast?

def lastCount (edits : List Edit) : Option Nat := (edits.filterMap Edit.count?).getLast?

inductive Fresh : Block → Prop where
  | ofKind (kind : Kind) : Fresh (ofKind kind)
  | ofBlockType {name : String} {b : Block} : ofBlockType name = .ok b → Fresh b

theorem Fresh.eq_ofKind {b : Block} (h : Fresh b) : b = Block.ofKind b.kind := by
  cases h with
  | ofKind kind => rfl
  | @ofBlockType name b h =>
    unfold Block.ofBlockType at h
    cases hkind : Kind.ofBlockType name with
    | error e => rw [hkind] at h; cases h
    | ok kind => rw [hkind] at h; cases h; rfl

/-! ## What one edit does -/

section
variable (b : Block) (e : Edit) (name slot : String)

theorem kind_apply : (e.apply b).kind = b.kind := by cases e <;> rfl

theorem field_apply : (e.apply b).field name = (e.text? name).or (b.field name) := by
  cases e with
  | write key text =>
    rw [Edit.apply, field_withField, Edit.text?]
    split <;> rfl
  | connect | setCount | take => rfl

theorem input_apply :
    (e.apply b).input slot = if e.takes slot then none else (e.child? slot).or (b.input slot) := by
  cases e with
  | connect key child =>
    simp only [Edit.apply, input_withInput, Edit.takes, Edit.child?]
    split <;> rfl
  | take key => simp [Edit.apply, input_takeInput, Edit.takes, Edit.child?]
  | write | setCount => rfl

theorem itemCount_apply : (e.apply b).itemCount = e.count?.or b.itemCount := by cases e <;> rfl

end

theorem takeInput_spec (b : Block) (slot : String) :
    (b.takeInput slot).1 = b.input slot ∧ (b.takeInput slot).2.input slot = none ∧
      (∀ other, other ≠ slot → (b.takeInput slot).2.input other = b.input other) ∧
      (∀ name, (b.takeInput slot).2.field name = b.field name) ∧
      (b.takeInput slot).2.kind = b.kind ∧ (b.takeInput slot).2.itemCount = b.itemCount := by
  refine ⟨rfl, ?_, ?_, fun _ => rfl, rfl, rfl⟩
  · rw [input_takeInput, if_pos rfl]
  · intro other hother
    rw [input_takeInput, if_neg hother]

/-! ## What a history leaves -/

theorem edited_concat (b : Block) (edits : List Edit) (e : Edit) :
    b.edited (edits ++ [e]) = e.apply (b.edited edits) := List.foldl_concat ..

/-- The last value that a row of edits gives is that of the last edit, if it gives one. -/
theorem getLast?_filterMap_concat {β : Type*} (f : Edit → Option β) (edits : List Edit) (e : Edit) :
    ((edits ++ [e]).filterMap f).getLast? = (f e).or (edits.filterMap f).getLast? := by
  rw [List.filterMap_append, List.getLast?_append]
  cases h : f e <;> simp [h]

theorem kind_edited (b : Block) (edits : List Edit) : (b.edited edits).kind = b.kind := by
  induction edits using List.reverseRecOn with
  | nil => rfl
  | append_singleton edits e ih => rw [edited_concat, kind_apply, ih]

section
variable {start : Block} (hstart : Fresh start) (edits : List Edit)
include hstart

theorem field_edited (name : String) : (start.edited edits).field name = lastText name edits := by
  induction edits using List.reverseRecOn with
  | nil => rw [hstart.eq_ofKind]; rfl
  | append_singleton edits e ih =>
    rw [edited_concat, field_apply, ih, lastText, lastText, getLast?_filterMap_concat]

theorem input_edited (slot : String) : (start.edited edits).input slot = lastConnected slot edits := by
  induction edits using List.reverseRecOn with
  | nil => rw [hstart.eq_ofKind]; rfl
  | append_singleton edits e ih =>
    rw [edited_concat, input_apply, ih]
    unfold lastConnected sinceTaken
    rw [List.rtakeWhile_concat]
    cases e.takes slot with
    | true => rfl
    | false => exact (getLast?_filterMap_concat _ _ _).symm

theorem itemCount_edited : (start.edited edits).itemCount = lastCount edits := by
  induction edits using List.reverseRecOn with
  | nil => rw [hstart.eq_ofKind]; rfl
  | append_singleton edits e ih =>
    rw [edited_concat, itemCount_apply, ih, lastCount, lastCount, getLast?_filterMap_concat]

end

/-! ## Equality -/

/-- The tables of the block are in order. -/
structure Tidy (b : Block) : Prop where
  fields : Table.Ordered b.fields
  inputs : Table.Ordered b.inputs

theorem Tidy.apply {b : Block} (h : Tidy b) (e : Edit) : Tidy (e.apply b) := by
  cases e with
  | write name text => exact ⟨Table.ordered_insert h.fields name text, h.inputs⟩
  | connect slot child => exact ⟨h.fields, Table.ordered_insert h.inputs slot child⟩
  | setCount count => exact ⟨h.fields, h.inputs⟩
  | take slot => exact ⟨h.fields, Table.ordered_erase h.inputs slot⟩

theorem tidy_edited {start : Block} (hstart : Fresh start) (edits : List Edit) :
    Tidy (start.edited edits) := by
  induction edits using List.reverseRecOn with
  | nil =>
    rw [hstart.eq_ofKind]
    exact ⟨Table.ordered_nil, Table.ordered_nil⟩
  | append_singleton edits e ih =>
    rw [edited_concat]
    exact ih.apply e

/-- Two blocks agree in everything that can be looked up but their slots. -/
structure SameFace (b c : Block) : Prop where
  kind : b.kind = c.kind
  itemCount : b.itemCount = c.itemCount
  field : ∀ name, b.field name = c.field name

theorem SameFace.refl (b : Block) : SameFace b b := ⟨rfl, rfl, fun _ => rfl⟩

/-- Two blocks agree in everything that can be looked up, and what is in their slots compares equal. -/
structure SameParts (b c : Block) : Prop extends SameFace b c where
  input : ∀ slot, Option.Rel (fun x y => x == y) (b.input slot) (c.input slot)

theorem optionRel_refl {r : Block → Block → Prop} (h : ∀ b, r b b) (x : Option Block) :
    Option.Rel r x x := by
  cases x with
  | none => exact .none
  | some b => exact .some (h b)

/-- Blocks with tables in order compare equal exactly if every look-up agrees. -/
theorem beq_iff_sameParts {b c : Block} (hb : Tidy b) (hc : Tidy c) : b == c ↔ SameParts b c := by
  constructor
  · intro h
    obtain rfl := beq_iff_eq.mp h
    exact ⟨.refl b, fun slot => optionRel_refl (fun _ => BEq.rfl) (b.input slot)⟩
  · intro h
    have hinput (slot : String) : b.input slot = c.input slot := by
      have hrel := h.input slot
      generalize b.input slot = x at hrel
      generalize c.input slot = y at hrel
      cases hrel with
      | none => rfl
      | some hxy => rw [beq_iff_eq.mp hxy]
    have hfields : b.fields = c.fields := Table.eq_of_get? hb.fields hc.fields h.field
    have hinputs : b.inputs = c.inputs := Table.eq_of_get? hb.inputs hc.inputs hinput
    obtain ⟨kind, fields, inputs, count⟩ := b
    obtain ⟨kind', fields', inputs', count'⟩ := c
    obtain rfl : kind = kind' := h.kind
    obtain rfl : count = count' := h.itemCount
    obtain rfl : fields = fields' := hfields
    obtain rfl : inputs = inputs' := hinputs
    exact BEq.rfl

/-! ## Equality at every level -/

/-- Blocks that come from blocks with nothing in them by edits, and so do all blocks in them. -/
inductive Built : Block → Prop where
  | edited {start : Block} {edits : List Edit} : Fresh start →
    (∀ slot child, .connect slot child ∈ edits → Built child) → Built (start.edited edits)

theorem connect_mem_of_lastConnected {slot : String} {edits : List Edit} {child : Block}
    (h : lastConnected slot edits = some child) : .connect slot child ∈ edits := by
  obtain ⟨e, he, hchild⟩ := List.mem_filterMap.mp (List.mem_of_getLast? h)
  have hmem : e ∈ edits := (List.rtakeWhile_suffix _ edits).subset he
  cases e with
  | connect key child' =>
    rw [Edit.child?] at hchild
    split at hchild
    · next hkey =>
      cases hchild
      rwa [hkey]
    · cases hchild
  | write | setCount | take => cases hchild

theorem Built.input {b child : Block} {slot : String} (h : Built b) (hchild : b.input slot = some child) :
    Built child := by
  cases h with
  | edited hstart hchildren =>
    rw [input_edited hstart] at hchild
    exact hchildren slot child (connect_mem_of_lastConnected hchild)

theorem Built.tidy {b : Block} (h : Built b) : Tidy b := by
  cases h with
  | edited hstart _ => exact tidy_edited hstart _

/-! All the ways to make a block make blocks that were built. -/

theorem built_ofKind (kind : Kind) : Built (ofKind kind) := by
  have hnone : ∀ slot child, Edit.connect slot child ∈ [] → Built child := by simp
  exact .edited (.ofKind kind) hnone

theorem Built.apply {b : Block} {e : Edit} (hb : Built b)
    (he : ∀ slot child, e = .connect slot child → Built child) : Built (e.apply b) := by
  cases hb with
  | edited hstart hchildren =>
    rw [← edited_concat]
    refine .edited hstart ?_
    intro slot child hmem
    obtain hmem | hmem := List.mem_append.mp hmem
    · exact hchildren slot child hmem
    · exact he slot child (List.mem_singleton.mp hmem).symm

theorem Built.withInput {b child : Block} (hb : Built b) (slot : String) (hchild : Built child) :
    Built (b.withInput slot child) := by
  refine hb.apply (e := .connect slot child) ?_
  intro slot' child' h
  cases h
  exact hchild

theorem Built.withInput? {b : Block} {child : Option Block} (hb : Built b) (slot : String)
    (hchild : ∀ c ∈ child, Built c) : Built (b.withInput? slot child) := by
  cases child with
  | none => exact hb
  | some child => exact hb.withInput slot (hchild child rfl)

theorem built_number (text : String) : Built (number text) := by
  refine (built_ofKind .number).apply (e := .write numberField text) ?_
  intro slot child h
  cases h

theorem built_binary (op : BinaryOp) {a b : Option Block} (ha : ∀ c ∈ a, Built c) (hb : ∀ c ∈ b, Built c) :
    Built (binary op a b) :=
  ((built_ofKind _).withInput? slotA ha).withInput? slotB hb

theorem Built.withItems {b : Block} {items : List (Option Block)} (hb : Built b) (i : Nat)
    (hitems : ∀ item ∈ items, ∀ c ∈ item, Built c) : Built (b.withItems i items) := by
  induction items generalizing b i with
  | nil => exact hb
  | cons item rest ih =>
    obtain ⟨hitem, hrest⟩ := List.forall_mem_cons.mp hitems
    exact ih (hb.withInput? (listSlot i) hitem) (i + 1) hrest

theorem built_list (op : ListOp) {items : List (Option Block)}
    (hitems : ∀ item ∈ items, ∀ c ∈ item, Built c) : Built (list op items) := by
  refine ((built_ofKind (.list op)).withItems 0 hitems).apply (e := .setCount items.length) ?_
  intro slot child h
  cases h

/-- The block to which a path leads. -/
def descend (b : Block) : Path → Option Block
  | [] => some b
  | slot :: path => (b.input slot).bind fun child => child.descend path

/-- Blocks that were built compare equal exactly if every path leads to blocks that agree, or to none in
either of them. -/
theorem Built.beq_iff_descend {b c : Block} (hb : Built b) (hc : Built c) :
    b == c ↔ ∀ path, Option.Rel SameFace (b.descend path) (c.descend path) := by
  constructor
  · intro h path
    obtain rfl := beq_iff_eq.mp h
    exact optionRel_refl SameFace.refl (b.descend path)
  · intro h
    induction hb generalizing c with
    | @edited start edits hstart _ ih =>
      have hface := Option.rel_some_some.mp (h [])
      refine (beq_iff_sameParts (tidy_edited hstart edits) hc.tidy).mpr ⟨hface, ?_⟩
      intro slot
      have hbelow (path : Path) := h (slot :: path)
      simp only [descend] at hbelow
      cases hx : (start.edited edits).input slot with
      | none =>
        cases hy : c.input slot with
        | none => exact .none
        | some y =>
          have hroot := hbelow []
          rw [hx, hy] at hroot
          cases hroot
      | some x =>
        cases hy : c.input slot with
        | none =>
          have hroot := hbelow []
          rw [hx, hy] at hroot
          cases hroot
        | some y =>
          simp only [hx, hy, Option.bind_some] at hbelow
          have hmem := connect_mem_of_lastConnected ((input_edited hstart edits slot).symm.trans hx)
          exact .some (ih slot x hmem (hc.input hy) hbelow)

/-! ## Histories -/

/-- A block keeps of its history what was last done to each field, to each slot and to the number of
items. Taking a block out of a slot gives what was there and changes nothing else. Blocks are equal
exactly if every look-up agrees, and so if every path leads to blocks that agree; and equal blocks
compile and are drawn alike, within any limits. -/
theorem edited_extensional {start start' b c : Block} {edits edits' : List Edit} (hstart : Fresh start)
    (hb : b = start.edited edits) (hstart' : Fresh start') (hc : c = start'.edited edits') :
    (b.kind = start.kind ∧ (∀ name, b.field name = lastText name edits) ∧
      (∀ slot, b.input slot = lastConnected slot edits) ∧ b.itemCount = lastCount edits) ∧
    (∀ slot, (b.takeInput slot).1 = b.input slot ∧ (b.takeInput slot).2.input slot = none ∧
      (∀ other, other ≠ slot → (b.takeInput slot).2.input other = b.input other) ∧
      (∀ name, (b.takeInput slot).2.field name = b.field name) ∧
      (b.takeInput slot).2.kind = b.kind ∧ (b.takeInput slot).2.itemCount = b.itemCount) ∧
    (b == c ↔ SameParts b c) ∧
    (Built b → Built c →
      (b == c ↔ ∀ path, Option.Rel SameFace (b.descend path) (c.descend path))) ∧
    (b == c → ∀ o, compile o b = compile o c ∧ Sketch.ofNode o b = Sketch.ofNode o c) := by
  subst hb hc
  refine ⟨⟨kind_edited start edits, field_edited hstart edits, input_edited hstart edits,
    itemCount_edited hstart edits⟩, takeInput_spec _,
    beq_iff_sameParts (tidy_edited hstart edits) (tidy_edited hstart' edits'),
    Built.beq_iff_descend, ?_⟩
  intro h o
  rw [beq_iff_eq.mp h]
  exact ⟨rfl, rfl⟩

/-- A difference whose operands are connected in order. -/
def plainOperands : Block := .binary .subtract (some (.number "5")) (some (.number "2"))

/-- The same difference: the second operand comes first, and another block was in the first slot. -/
def lateOperands : Block :=
  (((ofKind (.binary .subtract)).withInput "B" (.number "2")).withInput "A" .compare).withInput "A"
    (.number "5")

def straightEdits : List Edit :=
  [.setCount 2, .connect "NUM0" (.list .multiply []), .connect "NUM1" plainOperands, .write "MODE" "int"]

/-- Edits that come to the same, with things done over and undone. -/
def windingEdits : List Edit :=
  [.write "MODE" "float", .connect "NUM1" .compare, .setCount 7, .connect "A" (.number "9"), .take "A",
    .connect "NUM1" lateOperands, .connect "NUM0" (.number "4"), .take "NUM0", .take "B",
    .connect "NUM0" (.list .multiply []), .write "MODE" "int", .setCount 2]

def straightSum : Block := (ofKind (.list .add)).edited straightEdits

def windingSum : Block := (ofKind (.list .add)).edited windingEdits

theorem built_straightSum : Built straightSum := by
  have hplain : Built plainOperands := built_binary _ (by simp [built_number]) (by simp [built_number])
  refine .edited (.ofKind _) ?_
  intro slot child hmem
  obtain ⟨_, rfl⟩ | ⟨_, rfl⟩ := by simpa [straightEdits] using hmem
  · exact built_list _ (by simp)
  · exact hplain

theorem built_windingSum : Built windingSum := by
  have hlate : Built lateOperands :=
    (((built_ofKind _).withInput "B" (built_number "2")).withInput "A" (built_ofKind _)).withInput "A"
      (built_number "5")
  refine .edited (.ofKind _) ?_
  intro slot child hmem
  obtain ⟨_, rfl⟩ | ⟨_, rfl⟩ | ⟨_, rfl⟩ | ⟨_, rfl⟩ | ⟨_, rfl⟩ := by simpa [windingEdits] using hmem
  · exact built_ofKind _
  · exact built_number _
  · exact hlate
  · exact built_number _
  · exact built_list _ (by simp)

theorem edited_extensional_windingSum :
    (ofBlockType "math_add" = .ok (ofKind (.list .add)) ∧ Built windingSum ∧ Built straightSum) ∧
    (windingSum.field "MODE" = some "int" ∧ windingSum.input "NUM1" = some lateOperands ∧
      windingSum.input "A" = none ∧ windingSum.itemCount = some 2) ∧
    ((windingSum.takeInput "NUM1").1 = some lateOperands ∧
      (windingSum.takeInput "NUM1").2.input "NUM0" = some (.list .multiply [])) ∧
    windingSum == straightSum ∧ SameParts windingSum straightSum ∧
    (∀ path, Option.Rel SameFace (windingSum.descend path) (straightSum.descend path)) ∧
    ∀ o, compile o windingSum = compile o straightSum ∧
      Sketch.ofNode o windingSum = Sketch.ofNode o straightSum := by
  have htype : ofBlockType "math_add" = .ok (ofKind (.list .add)) := by rfl
  have hequal : windingSum == straightSum := by decide
  obtain ⟨⟨_, hfield, hinput, hcount⟩, htake, hparts, hlevels, hsame⟩ :=
    edited_extensional (.ofBlockType htype) (Eq.refl windingSum) (.ofKind (.list .add)) (Eq.refl straightSum)
  obtain ⟨htaken, _, hother, _⟩ := htake "NUM1"
  refine ⟨⟨htype, built_windingSum, built_straightSum⟩, ⟨hfield "MODE", hinput "NUM1", hinput "A", hcount⟩,
    ⟨htaken.trans (hinput "NUM1"), (hother "NUM0" (by decide)).trans (hinput "NUM0")⟩, hequal,
    hparts.mp hequal, (hlevels built_windingSum built_straightSum).mp hequal, hsame hequal⟩

end Block

end BlockCode
