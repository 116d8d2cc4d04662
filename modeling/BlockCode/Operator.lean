import BlockCode.Device.Instruction
import BlockCode.Precedence

/- The operators a block can ask for, and what the device has for them. Four of
   the five are one instruction each; raising to a power has no instruction.
   Blocks with two operands and blocks with a list of operands offer different
   operators, so each has its own type (`BinaryOp`, `ListOp`).

   Correspondence (compiler ↔ here): `ArithmeticOp` ↔ `Operator`, `OperatorSpec` ↔
   `Encoding`, `spec` ↔ `Operator.encoding?`. -/
namespace BlockCode

/-- An arithmetic operator, as a block names it. -/
inductive Operator where
  | add | subtract | multiply | divide | power
  deriving DecidableEq, Repr

/-- What the device runs for an operator, and how tightly the result binds. -/
structure Encoding where
  instruction : Instruction
  precedence : Precedence
  deriving DecidableEq

namespace Operator

instance : Enumerated Operator where
  values := [add, subtract, multiply, divide, power]
  complete op := by cases op <;> decide
  nodup := by decide

def name : Operator → String
  | add => "Add"
  | subtract => "Subtract"
  | multiply => "Multiply"
  | divide => "Divide"
  | power => "Power"

/-- The operator in capitals, as messages show it. -/
def label : Operator → String
  | add => "ADD"
  | subtract => "SUBTRACT"
  | multiply => "MULTIPLY"
  | divide => "DIVIDE"
  | power => "POWER"

def ofLabel? (s : String) : Option Operator :=
  (Enumerated.values : List Operator).find? (fun op => op.label == s)

/-- The device operation that computes the operator; the device has no power. -/
def arith? : Operator → Option Arith
  | add => some .add
  | subtract => some .subtract
  | multiply => some .multiply
  | divide => some .divide
  | power => none

/-- The encoding of an operator. Code in postfix order needs no grouping, so
every result is atomic. -/
def encoding? (op : Operator) : Option Encoding :=
  op.arith?.map fun a => ⟨.apply a, .atomic⟩

def noEncodingMessage (op : Operator) : String :=
  "Operator " ++ op.label ++ " has no device encoding"

end Operator

/-- The operators of a block with two operands. -/
inductive BinaryOp where
  | subtract | divide | power
  deriving DecidableEq, Repr

def BinaryOp.operator : BinaryOp → Operator
  | subtract => .subtract
  | divide => .divide
  | power => .power

/-- The operators of a block with a list of operands. -/
inductive ListOp where
  | add | multiply
  deriving DecidableEq, Repr

def ListOp.operator : ListOp → Operator
  | add => .add
  | multiply => .multiply

end BlockCode
