import BlockCode.Enumerated

/- How tightly a piece of code binds. Each precedence has a level, small for
   what binds tightly; the order on precedences is the order of their levels
   and nothing else. `ofLevel?_level` and `level_of_ofLevel?` say that the level
   determines the precedence.

   Correspondence (compiler ↔ here): `Order` ↔ `Precedence`, and its last value `None`
   ↔ `Precedence.loosest`; `from_level` ↔ `Precedence.ofLevel?`. -/
namespace BlockCode

/-- How tightly an expression binds to what stands around it. -/
inductive Precedence where
  | atomic | grouping | unary | multiply | add | shift | comparison | equality
  | bitAnd | bitXor | bitOr | and | or | ternary | assignment | comma | loosest
  deriving DecidableEq, Repr

namespace Precedence

instance : Enumerated Precedence where
  values := [atomic, grouping, unary, multiply, add, shift, comparison, equality,
    bitAnd, bitXor, bitOr, and, or, ternary, assignment, comma, loosest]
  complete p := by cases p <;> decide
  nodup := by decide

/-- The level of a precedence: the lower, the tighter. -/
def level : Precedence → Nat
  | atomic => 0
  | grouping => 1
  | unary => 2
  | multiply => 3
  | add => 4
  | shift => 5
  | comparison => 6
  | equality => 7
  | bitAnd => 8
  | bitXor => 9
  | bitOr => 10
  | and => 11
  | or => 12
  | ternary => 13
  | assignment => 14
  | comma => 15
  | loosest => 99

def ofLevel? (n : Nat) : Option Precedence :=
  (Enumerated.values : List Precedence).find? (fun p => p.level == n)

def name : Precedence → String
  | atomic => "Atomic"
  | grouping => "Grouping"
  | unary => "Unary"
  | multiply => "Multiply"
  | add => "Add"
  | shift => "Shift"
  | comparison => "Comparison"
  | equality => "Equality"
  | bitAnd => "BitAnd"
  | bitXor => "BitXor"
  | bitOr => "BitOr"
  | and => "And"
  | or => "Or"
  | ternary => "Ternary"
  | assignment => "Assignment"
  | comma => "Comma"
  | loosest => "None"

instance : Ord Precedence where
  compare p q := compare p.level q.level

theorem ofLevel?_level (p : Precedence) : ofLevel? p.level = some p := by
  cases p <;> decide

theorem level_of_ofLevel? {n : Nat} {p : Precedence} (h : ofLevel? n = some p) : p.level = n := by
  simpa using List.find?_some h

end Precedence

end BlockCode
