import BlockCode.Operator

/- Blocks as they are read: the kinds of block with their slots and fields, what may
   be asked of a block, and the limits that its readers keep to.

   The compiler and the sketch never build or change blocks, and they do not care how
   blocks are stored: a tree, the nodes of a graph that share operands or run in
   circles, or an editor's own objects. A kind is known by its block type:
   `ofBlockType?_blockType` and `blockType_of_ofBlockType?` say that the block type
   determines the kind.

   Correspondence (compiler ↔ here): `NodeKind` ↔ `Kind`, `ExprNode` ↔ `Node`,
   `CompilationOptions` ↔ `Options`. -/
namespace BlockCode
universe u

/-! Kinds. -/

/-- What a block computes, and so which of its slots and fields are read. -/
inductive Kind where
  | number
  | binary (op : BinaryOp)
  | list (op : ListOp)
  | compare
  deriving DecidableEq, Repr

namespace Kind

instance : Enumerated Kind where
  values := [number, list .add, binary .subtract, list .multiply, binary .divide, binary .power, compare]
  complete
    | number | compare => by decide
    | binary op => by cases op <;> decide
    | list op => by cases op <;> decide
  nodup := by decide

def blockType : Kind → String
  | number => "math_number"
  | list .add => "math_add"
  | binary .subtract => "math_subtract"
  | list .multiply => "math_multiply"
  | binary .divide => "math_divide"
  | binary .power => "math_power"
  | compare => "math_compare"

def ofBlockType? (s : String) : Option Kind :=
  (Enumerated.values : List Kind).find? (fun k => k.blockType == s)

def operator? : Kind → Option Operator
  | binary op => some op.operator
  | list op => some op.operator
  | number | compare => none

/-- The shape of a kind, without its operator. -/
def form : Kind → String
  | number => "Number"
  | binary _ => "Binary"
  | list _ => "List"
  | compare => "Compare"

theorem ofBlockType?_blockType : (k : Kind) → ofBlockType? k.blockType = some k
  | number | compare => by decide
  | binary op => by cases op <;> decide
  | list op => by cases op <;> decide

theorem blockType_of_ofBlockType? {s : String} {k : Kind} (h : ofBlockType? s = some k) :
    k.blockType = s := by
  simpa using List.find?_some h

end Kind

structure UnknownBlockType where
  name : String
  deriving DecidableEq

def UnknownBlockType.message (e : UnknownBlockType) : String :=
  "Unknown block type `" ++ e.name ++ "`"

def Kind.ofBlockType (s : String) : Except UnknownBlockType Kind :=
  match ofBlockType? s with
  | some k => .ok k
  | none => .error ⟨s⟩

/-! Slots and fields. -/

/-- The field of a number block that holds its literal. -/
def numberField : String := "NUM"

/-- The slot of the first operand of a two-operand block. -/
def slotA : String := "A"

/-- The slot of the second operand of a two-operand block. -/
def slotB : String := "B"

def listSlot (i : Nat) : String := "NUM" ++ toString i

/-! Blocks. -/

/-- A type whose values can be read as blocks. A host that keeps no item counts
leaves `itemCount` out. -/
class Node (α : Type u) where
  kind : α → Kind
  field : α → String → Option String
  input : α → String → Option α
  itemCount : α → Option Nat := fun _ => none

/-- Blocks of `α`, read without their item counts. -/
structure Uncounted (α : Type u) where
  node : α

instance {α : Type u} [Node α] : Node (Uncounted α) where
  kind n := Node.kind n.node
  field n name := Node.field n.node name
  input n slot := (Node.input n.node slot).map Uncounted.mk

/-! Limits. -/

/-- How deep blocks may nest and how many items a list may have. Without a
number of its own the list limit is no limit. -/
structure Options where
  maxDepth : Nat := 128
  maxListItems : Option Nat := none
  deriving DecidableEq

/-- How many of `count` items are within the limit. -/
def Options.shown (o : Options) (count : Nat) : Nat :=
  o.maxListItems.elim count (min count)

end BlockCode
