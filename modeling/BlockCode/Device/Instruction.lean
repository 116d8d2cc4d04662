import BlockCode.Enumerated
import BlockCode.Text

/- The instructions of the device. It is a stack machine with two kinds of
   instruction: push one of ten built-in constants, or apply one of four
   arithmetic operations to the two values on top. Every instruction is one
   byte long; `ofByte?_toByte` and `toByte_of_ofByte?` say that the byte and
   the instruction determine each other. -/
namespace BlockCode

/-- The constants the device can push: the integers -1 to 5 and the floats
0.0, 1.0 and 2.0. There are no others. -/
inductive Constant where
  | minusOne | zero | one | two | three | four | five
  | floatZero | floatOne | floatTwo
  deriving DecidableEq, Repr

namespace Constant

def isFloat : Constant → Bool
  | floatZero | floatOne | floatTwo => true
  | _ => false

def value : Constant → Int
  | minusOne => -1
  | zero | floatZero => 0
  | one | floatOne => 1
  | two | floatTwo => 2
  | three => 3
  | four => 4
  | five => 5

/-- The number as listings show it; floats keep their point. -/
def numeral : Constant → String
  | minusOne => "-1"
  | zero => "0"
  | one => "1"
  | two => "2"
  | three => "3"
  | four => "4"
  | five => "5"
  | floatZero => "0.0"
  | floatOne => "1.0"
  | floatTwo => "2.0"

/-- The constant in words, without its type. -/
def word : Constant → String
  | minusOne => "MinusOne"
  | zero | floatZero => "Zero"
  | one | floatOne => "One"
  | two | floatTwo => "Two"
  | three => "Three"
  | four => "Four"
  | five => "Five"

def toByte : Constant → UInt8
  | minusOne => 0x02
  | zero => 0x03
  | one => 0x04
  | two => 0x05
  | three => 0x06
  | four => 0x07
  | five => 0x08
  | floatZero => 0x0B
  | floatOne => 0x0C
  | floatTwo => 0x0D

instance : Enumerated Constant where
  values := [minusOne, zero, one, two, three, four, five, floatZero, floatOne, floatTwo]
  complete c := by cases c <;> decide
  nodup := by decide

end Constant

/-- The arithmetic of the device. -/
inductive Arith where
  | add | subtract | multiply | divide
  deriving DecidableEq, Repr

namespace Arith

def name : Arith → String
  | add => "Add"
  | subtract => "Subtract"
  | multiply => "Multiply"
  | divide => "Divide"

def mnemonic : Arith → String
  | add => "ADD"
  | subtract => "SUB"
  | multiply => "MUL"
  | divide => "DIV"

def toByte : Arith → UInt8
  | add => 0x60
  | subtract => 0x64
  | multiply => 0x68
  | divide => 0x6C

end Arith

inductive Instruction where
  | push (c : Constant)
  | apply (op : Arith)
  deriving DecidableEq, Repr

namespace Instruction

/-- The instructions stand in the order of their bytes. -/
instance : Enumerated Instruction where
  values :=
    [push .minusOne, push .zero, push .one, push .two, push .three, push .four, push .five,
     push .floatZero, push .floatOne, push .floatTwo,
     apply .add, apply .subtract, apply .multiply, apply .divide]
  complete
    | push c => by cases c <;> decide
    | apply op => by cases op <;> decide
  nodup := by decide

def size : Nat := 1

def toByte : Instruction → UInt8
  | push c => c.toByte
  | apply op => op.toByte

def ofByte? (b : UInt8) : Option Instruction :=
  (Enumerated.values : List Instruction).find? (fun i => i.toByte == b)

def isPush : Instruction → Bool
  | push _ => true
  | apply _ => false

def isBinary (i : Instruction) : Bool := !i.isPush

/-- How many values the instruction takes off the stack; it puts one back. -/
def pops : Instruction → Nat
  | push _ => 0
  | apply _ => 2

/-- By how much the instruction changes the height of the stack. -/
def stackEffect (i : Instruction) : Int := 1 - i.pops

def mnemonic : Instruction → String
  | push c => if c.isFloat then "PUSH_FLOAT" else "PUSH_INT"
  | apply op => op.mnemonic

/-- The constant that listings show after the mnemonic. -/
def operand? : Instruction → Option String
  | push c => some c.numeral
  | apply _ => none

/-- The instruction as one word, such as `PushIntMinusOne`. -/
def name : Instruction → String
  | push c => (if c.isFloat then "PushFloat" else "PushInt") ++ c.word
  | apply op => op.name

/-- The instruction with its constant in digits, such as `PushInt(-1)`. -/
def display : Instruction → String
  | push c => (if c.isFloat then "PushFloat(" else "PushInt(") ++ c.numeral ++ ")"
  | apply op => op.name

theorem ofByte?_toByte : (i : Instruction) → ofByte? i.toByte = some i
  | push c => by cases c <;> decide
  | apply op => by cases op <;> decide

theorem toByte_of_ofByte? {b : UInt8} {i : Instruction} (h : ofByte? b = some i) : i.toByte = b := by
  simpa using List.find?_some h

end Instruction

structure InvalidByte where
  byte : UInt8
  deriving DecidableEq

def InvalidByte.message (e : InvalidByte) : String :=
  "Invalid instruction byte: 0x" ++ String.ofList (Text.Hex.digits e.byte)

def Instruction.ofByte (b : UInt8) : Except InvalidByte Instruction :=
  match ofByte? b with
  | some i => .ok i
  | none => .error ⟨b⟩

end BlockCode
