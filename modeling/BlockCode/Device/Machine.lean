import BlockCode.Device.Instruction

/- The device as a machine. What the constants and operations compute is left
   open: an `Interpretation` gives values to the constants and functions to the
   operations, of which no law is assumed. `run` executes code on a stack and
   stops at the first instruction that finds too few values; `run_append` says
   that code runs piece by piece. -/
namespace BlockCode
universe u

/-- Values for the constants and functions for the operations. -/
structure Interpretation (V : Type u) where
  constant : Constant → V
  arith : Arith → V → V → V

namespace Machine
variable {V : Type u}

/-- One instruction on a stack whose top is the head of the list. An operation
takes its right operand first. -/
def step (I : Interpretation V) : Instruction → List V → Option (List V)
  | .push c, stack => some (I.constant c :: stack)
  | .apply op, b :: a :: stack => some (I.arith op a b :: stack)
  | .apply _, _ => none

def run (I : Interpretation V) : List Instruction → List V → Option (List V)
  | [], stack => some stack
  | i :: rest, stack => (step I i stack).bind (run I rest)

theorem run_append (I : Interpretation V) (c d : List Instruction) (stack : List V) :
    run I (c ++ d) stack = (run I c stack).bind (run I d) := by
  induction c generalizing stack with
  | nil => rfl
  | cons i c ih =>
    simp only [List.cons_append, run]
    cases step I i stack with
    | none => rfl
    | some s => exact ih s

end Machine

end BlockCode
