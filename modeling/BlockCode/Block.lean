import BlockCode.Node
import BlockCode.Table

/- Blocks that own their operands. A block has a kind, text fields, blocks
   connected to its slots and, for a list, a number of items. Fields and slots
   that its kind does not read are kept all the same and count for equality.
   `field_withField`, `input_withInput` and `input_takeInput` say what a look-up
   finds after a change; blocks that compare equal are equal (`eq_of_beq`). -/
namespace BlockCode

/-- A block with everything below it. -/
structure Block where
  kind : Kind
  fields : List (String × String)
  inputs : List (String × Block)
  itemCount : Option Nat

namespace Block

/-! Building blocks. -/

def ofKind (kind : Kind) : Block := ⟨kind, [], [], none⟩

def ofBlockType (name : String) : Except UnknownBlockType Block :=
  (Kind.ofBlockType name).map ofKind

/-- Writes a field, in place of what was there. -/
def withField (b : Block) (name text : String) : Block :=
  { b with fields := Table.insert name text b.fields }

/-- Connects a block to a slot, in place of what was there. -/
def withInput (b : Block) (slot : String) (child : Block) : Block :=
  { b with inputs := Table.insert slot child b.inputs }

/-- Connects a block to a slot, if one is given. -/
def withInput? (b : Block) (slot : String) (child : Option Block) : Block :=
  match child with
  | some child => b.withInput slot child
  | none => b

def withItemCount (b : Block) (count : Nat) : Block := { b with itemCount := some count }

def field (b : Block) (name : String) : Option String := Table.get? b.fields name

def input (b : Block) (slot : String) : Option Block := Table.get? b.inputs slot

/-- Disconnects a slot: the block that was there, and the block without it. -/
def takeInput (b : Block) (slot : String) : Option Block × Block :=
  (b.input slot, { b with inputs := Table.erase slot b.inputs })

def number (text : String) : Block := (ofKind .number).withField numberField text

/-- A block with two operands, each of which may be missing. -/
def binary (op : BinaryOp) (a b : Option Block) : Block :=
  ((ofKind (.binary op)).withInput? slotA a).withInput? slotB b

/-- Connects operands to the item slots from `i` on; a missing operand leaves
its slot empty. -/
def withItems (b : Block) (i : Nat) : List (Option Block) → Block
  | [] => b
  | item :: rest => (b.withInput? (listSlot i) item).withItems (i + 1) rest

/-- A list block with its operands, each of which may be missing. -/
def list (op : ListOp) (items : List (Option Block)) : Block :=
  ((ofKind (.list op)).withItems 0 items).withItemCount items.length

def compare : Block := ofKind .compare

instance : Node Block where
  kind := kind
  field := field
  input := input
  itemCount := itemCount

/-! What a look-up finds after a change. -/

theorem field_withField (b : Block) (key text name : String) :
    (b.withField key text).field name = if name = key then some text else b.field name :=
  Table.get?_insert b.fields key name text

theorem input_withInput (b : Block) (slot name : String) (child : Block) :
    (b.withInput slot child).input name = if name = slot then some child else b.input name :=
  Table.get?_insert b.inputs slot name child

theorem input_withInput? (b : Block) (slot name : String) (child : Option Block) :
    (b.withInput? slot child).input name = if name = slot then child.or (b.input name) else b.input name := by
  cases child with
  | none => simp [withInput?]
  | some child => simp [withInput?, input_withInput]

theorem input_takeInput (b : Block) (slot name : String) :
    (b.takeInput slot).2.input name = if name = slot then none else b.input name :=
  Table.get?_erase b.inputs slot name

/-! Equality. The tables are in order, so blocks are compared entry by entry. -/

mutual

/-- Whether two blocks agree in kind, fields, inputs and item count. -/
def beq : Block → Block → Bool
  | ⟨kind, fields, inputs, count⟩, ⟨kind', fields', inputs', count'⟩ =>
    kind == kind' && fields == fields' && beqInputs inputs inputs' && count == count'

def beqInputs : List (String × Block) → List (String × Block) → Bool
  | [], [] => true
  | (slot, b) :: rest, (slot', b') :: rest' => slot == slot' && beq b b' && beqInputs rest rest'
  | _, _ => false

end

instance : BEq Block := ⟨beq⟩

mutual

theorem eq_of_beq : {b c : Block} → beq b c = true → b = c
  | ⟨kind, fields, inputs, count⟩, ⟨kind', fields', inputs', count'⟩, h => by
    simp only [beq, Bool.and_eq_true, beq_iff_eq] at h
    obtain ⟨⟨⟨hkind, hfields⟩, hinputs⟩, hcount⟩ := h
    rw [hkind, hfields, eq_of_beqInputs hinputs, hcount]

theorem eq_of_beqInputs : {s t : List (String × Block)} → beqInputs s t = true → s = t
  | [], [], _ => rfl
  | (slot, b) :: rest, (slot', b') :: rest', h => by
    simp only [beqInputs, Bool.and_eq_true, beq_iff_eq] at h
    obtain ⟨⟨hslot, hb⟩, hrest⟩ := h
    rw [hslot, eq_of_beq hb, eq_of_beqInputs hrest]
  | [], _ :: _, h | _ :: _, [], h => by simp [beqInputs] at h

end

mutual

theorem beq_self : (b : Block) → beq b b = true
  | ⟨kind, fields, inputs, count⟩ => by simp [beq, beqInputs_self inputs]

theorem beqInputs_self : (s : List (String × Block)) → beqInputs s s = true
  | [] => by simp [beqInputs]
  | (slot, b) :: rest => by simp [beqInputs, beq_self b, beqInputs_self rest]

end

instance : LawfulBEq Block where
  eq_of_beq := eq_of_beq
  rfl := beq_self _

end Block

end BlockCode
