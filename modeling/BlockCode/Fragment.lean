import BlockCode.Device.Instruction
import BlockCode.Precedence

/- Pieces of device code, their use of the stack and their listing. `Fragment.peak`
   is the greatest height the stack reaches, `Fragment.checkStack` decides whether
   the code runs without taking from an empty stack and leaves at most one value.
   Both look at heights only; the values are a matter of `Machine.run`.

   A listing has a header with the precedence and the greatest height, then one line
   for each instruction with its address, its byte, its mnemonic and, for a push, the
   constant.

   Correspondence (compiler ↔ here):
     `CodeFragment`, its `order`  ↔ `Fragment`, its `precedence`
     `max_stack_depth`            ↔ `Fragment.peak`
     `check_stack`                ↔ `Fragment.checkStack`
     its debug form               ↔ `Fragment.listing` -/
namespace BlockCode

/-- Code together with how tightly its result binds. -/
structure Fragment where
  code : List Instruction
  precedence : Precedence
  deriving DecidableEq

/-- What is wrong with the stack use of a piece of code. -/
inductive StackError where
  | underflow (index needed depth : Nat)
  | unbalanced (depth : Nat)
  deriving DecidableEq

def StackError.message : StackError → String
  | underflow index needed depth =>
    "instruction " ++ toString index ++ " pops " ++ toString needed ++
      " operands but the stack holds " ++ toString depth
  | unbalanced depth =>
    "fragment leaves " ++ toString depth ++ " values on the stack (expected at most 1)"

/-! Heights of the stack. -/

/-- The height after an instruction. An instruction that takes more than there
is leaves the stack empty. -/
def Instruction.heightAfter (i : Instruction) (height : Nat) : Nat :=
  match i with
  | push _ => height + 1
  | apply _ => height - 1

/-- The greatest height while `code` runs on a stack of the given height. -/
def peakFrom (height : Nat) : List Instruction → Nat
  | [] => height
  | i :: rest => max height (peakFrom (i.heightAfter height) rest)

/-- Runs `code`, the first instruction of which has the given index, on heights
alone. The first instruction that finds too little on the stack ends the run. -/
def checkFrom (index height : Nat) : List Instruction → Except StackError Nat
  | [] => if 1 < height then .error (.unbalanced height) else .ok height
  | i :: rest =>
    if height < i.pops then .error (.underflow index i.pops height)
    else checkFrom (index + 1) (height - i.pops + 1) rest

namespace Fragment

def constant (i : Instruction) : Fragment := ⟨[i], .atomic⟩

/-- The fragment whose code has the given bytes; the first byte that is no
instruction is refused. -/
def ofBytes (bytes : List UInt8) (precedence : Precedence) : Except InvalidByte Fragment :=
  (bytes.mapM Instruction.ofByte).map (⟨·, precedence⟩)

def toBytes (f : Fragment) : List UInt8 := f.code.map Instruction.toByte

theorem ofBytes_toBytes (f : Fragment) : ofBytes f.toBytes f.precedence = .ok f := by
  have decode (code : List Instruction) :
      (code.map Instruction.toByte).mapM Instruction.ofByte = .ok code := by
    induction code with
    | nil => rfl
    | cons i code ih =>
      rw [List.map_cons, List.mapM_cons, ih, Instruction.ofByte, Instruction.ofByte?_toByte]
      rfl
  rw [ofBytes, toBytes, decode]
  rfl

def length (f : Fragment) : Nat := f.code.length

def isEmpty (f : Fragment) : Bool := f.code.isEmpty

/-- The greatest height the stack reaches from empty. -/
def peak (f : Fragment) : Nat := peakFrom 0 f.code

/-- Whether the code runs from the empty stack and leaves at most one value;
if it does, how many it leaves. -/
def checkStack (f : Fragment) : Except StackError Nat := checkFrom 0 0 f.code

/-! The listing. -/

/-- An address in decimal, at least four digits long. -/
def address (n : Nat) : String :=
  String.ofList ((Nat.toDigits 10 n).leftpad 4 '0')

/-- The mnemonic in a column of ten, then the constant, if there is one. -/
def instructionText (i : Instruction) : String :=
  match i.operand? with
  | none => i.mnemonic
  | some operand => String.ofList (i.mnemonic.toList.rightpad 10 ' ') ++ " " ++ operand

def listingLine (i : Instruction) (addr : Nat) : String :=
  "    " ++ address addr ++ "  " ++ String.ofList (Text.Hex.digits i.toByte) ++ "  " ++
    instructionText i ++ "\n"

/-- The whole listing, without a line break at its end. -/
def listing (f : Fragment) : String :=
  "CodeFragment \x7b\n" ++
  "  order: " ++ f.precedence.name ++ "\n" ++
  "  max_stack_size: " ++ toString f.peak ++ "\n" ++
  (if f.isEmpty then "  instructions: []\n"
   else "  instructions:\n" ++ String.join (f.code.zipIdx.map fun (i, addr) => listingLine i addr)) ++
  "\x7d"

end Fragment

end BlockCode
