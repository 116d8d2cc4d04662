import BlockCode.Operator

/- Why a compilation fails, and where. A fault is what is wrong with one block; a
   failure is a fault together with the slots that lead from the root to the
   block. The wording of every message is here.

   Correspondence (compiler ↔ here):
     `CompileError`     ↔ `Failure`
     `ErrorKind`        ↔ `Fault`
     `MalformedReason`  ↔ `Flaw`
     `path_display`     ↔ `Path.display`
     `to_diagnostic`    ↔ `Failure.diagnostic` -/
namespace BlockCode

/-- The slots that lead from the root to a block. -/
abbrev Path := List String

def Path.display (path : Path) : String :=
  if path.isEmpty then "<root>" else "/".intercalate path

/-- What can be wrong with the structure of a tree. -/
inductive Flaw where
  | depthExceeded (limit : Nat)
  | missingField (field : String)
  | missingItemCount
  | tooManyItems (count limit : Nat)
  deriving DecidableEq

/-- What can be wrong with a block. -/
inductive Fault where
  | unsupportedLiteral (text : String)
  | unimplementedOperator (op : Operator)
  | unimplemented (blockType : String)
  | malformed (flaw : Flaw)
  deriving DecidableEq

/-- A fault and the path of the block that has it. -/
structure Failure where
  fault : Fault
  path : Path
  deriving DecidableEq

def Flaw.message : Flaw → String
  | depthExceeded limit => "nesting exceeds " ++ toString limit ++ " levels"
  | missingField field => "missing field `" ++ field ++ "`"
  | missingItemCount => "list block has no item count"
  | tooManyItems count limit =>
    "list block has " ++ toString count ++ " items (limit: " ++ toString limit ++ ")"

namespace Fault

def message : Fault → String
  | unsupportedLiteral text => "Unsupported number literal `" ++ text ++ "`"
  | unimplementedOperator op => "Operator " ++ op.label ++ " is not implemented"
  | unimplemented blockType => "Block `" ++ blockType ++ "` is not implemented"
  | malformed flaw => "Malformed block tree: " ++ flaw.message

/-- The number under which the fault is documented. -/
def code : Fault → String
  | unsupportedLiteral _ => "E0001"
  | unimplementedOperator _ => "E0002"
  | unimplemented _ => "E0003"
  | malformed _ => "E0004"

/-- What the user can do about the fault, where there is something to say. -/
def help? : Fault → Option String
  | unsupportedLiteral _ =>
    some "The device can only push the integers -1 to 5 and the floats 0.0, 1.0 and 2.0"
  | unimplementedOperator op => some ("Rewrite the expression without " ++ op.label)
  | unimplemented _ => some "Comparisons cannot run on the device yet"
  | malformed (.depthExceeded _) => some "Check the blocks for a connection cycle"
  | malformed _ => none

end Fault

inductive Severity where
  | error
  deriving DecidableEq

def Severity.name : Severity → String
  | error => "error"

/-- What an editor shows about a block. -/
structure Diagnostic where
  severity : Severity
  message : String
  path : Path
  help : List String
  code : String

def Failure.diagnostic (e : Failure) : Diagnostic where
  severity := .error
  message := e.fault.message
  path := e.path
  help := e.fault.help?.toList
  code := e.fault.code

end BlockCode
