import BlockCode.Node
import BlockCode.Table

/- Blocks that point at each other by number. An operand may be shared by several
   blocks, and a block may be, directly or not, an operand of itself. -/
namespace BlockCode

/-- One block of a graph; its inputs are numbers of blocks. -/
structure Cell where
  kind : Kind
  fields : Table String
  inputs : Table Nat
  itemCount : Option Nat

/-- A graph: its blocks, numbered from zero. -/
structure Graph where
  cells : Array Cell

namespace Graph

structure Ref (g : Graph) where
  number : Fin g.cells.size

def ref? (g : Graph) (n : Nat) : Option g.Ref :=
  if h : n < g.cells.size then some ⟨⟨n, h⟩⟩ else none

def Ref.cell {g : Graph} (r : g.Ref) : Cell := g.cells[r.number]

/-- A number that no block has leaves the slot empty. -/
instance (g : Graph) : Node g.Ref where
  kind r := r.cell.kind
  field r name := r.cell.fields.get? name
  input r slot := (r.cell.inputs.get? slot).bind g.ref?
  itemCount r := r.cell.itemCount

end Graph

end BlockCode
