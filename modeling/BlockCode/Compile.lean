import BlockCode.Decimal
import BlockCode.Fragment
import BlockCode.Node
import BlockCode.Trace

/- From blocks to device code. Operands come before their operator, and a list of
   `n` operands is followed by `n - 1` operators. An empty slot stands for the
   integer zero. The run goes down at most `maxDepth` blocks and looks at a block
   before its operands, so it ends on blocks that run in circles too, and the
   fault it reports is the first one on its way.

   ── PROVED vs ASSUMED ────────────────────────────────────────────────────────
   What is proved of `compile` holds for all blocks and limits, and for blocks that
   are shared or run in circles. Two things are assumed of the machine that compiles;
   they are part of the definitions and appear in no hypothesis:
   * counts and limits are natural numbers, without a greatest one;
   * memory and the native stack do not run out. No room is set aside for a list
     before its items are read. A compiler that reserves room for `2 * count`
     instructions there stops at a declared count of 2^62 or more, unless a limit on
     lists refuses it; one that recurses on blocks needs a stack for `maxDepth` calls.

   Correspondence (compiler ↔ here):
     `compile_node`                    ↔ `Compile.block`, with the levels that are left
     `compile_number`                  ↔ `Compile.number`
     `compile_binary`, `compile_list`  ↔ the cases of `Compile.block`
     `resolve_operand`                 ↔ `Compile.operand`
     `spec`                            ↔ `Compile.encoding` -/
namespace BlockCode
universe u
variable {α : Type u} [Node α]

namespace Compile

/-- The encoding of an operator, which the device may not have. -/
def encoding (op : Operator) : Traced Encoding :=
  match op.encoding? with
  | some e => pure e
  | none => .fail (.unimplementedOperator op)

def number (node : α) : Traced Fragment :=
  match Node.field node numberField with
  | none => .fail (.malformed (.missingField numberField))
  | some text =>
    match Constant.ofLiteral? text with
    | none => .fail (.unsupportedLiteral text)
    | some c => pure (Fragment.constant (.push c))

/-- The number of items of a list block, if it is known and within the limit. -/
def itemCount (o : Options) (node : α) : Traced Nat :=
  match Node.itemCount node with
  | none => .fail (.malformed .missingItemCount)
  | some count =>
    match o.maxListItems with
    | none => pure count
    | some limit =>
      if limit < count then .fail (.malformed (.tooManyItems count limit)) else pure count

/-- The code of what is in a slot, given how to compile a block. The context is how
tightly the operator binds that takes the operand. -/
def operand (context : Precedence) (block : α → Traced Fragment) (node : α) (slot : String) :
    Traced Fragment :=
  match Node.input node slot with
  | none => do
    Traced.log (.substituting slot context)
    pure (Fragment.constant (.push .zero))
  | some child => do
    Traced.log (.resolving slot context)
    Traced.within slot (block child)

/-- The code of `count` items from item `i` on, one after the other. -/
def items (resolve : String → Traced Fragment) (i : Nat) : Nat → Traced (List Instruction)
  | 0 => pure []
  | count + 1 => do
    let first ← resolve (listSlot i)
    (items resolve (i + 1) count).map (first.code ++ ·)

/-- The code of a block, of which at most `levels` levels are read. -/
def block (o : Options) : (levels : Nat) → α → Traced Fragment
  | 0, _ => .fail (.malformed (.depthExceeded o.maxDepth))
  | levels + 1, node =>
    match Node.kind node with
    | .number => number node
    | .compare => .fail (.unimplemented Kind.compare.blockType)
    | .binary op => do
      let e ← encoding op.operator
      let a ← operand e.precedence (block o levels) node slotA
      let b ← operand e.precedence (block o levels) node slotB
      pure ⟨a.code ++ b.code ++ [e.instruction], e.precedence⟩
    | .list op => do
      let e ← encoding op.operator
      let count ← itemCount o node
      let code ← items (operand e.precedence (block o levels) node) 0 count
      pure ⟨code ++ List.replicate (count - 1) e.instruction, e.precedence⟩

end Compile

/-- Compiles a block and everything below it. -/
def compile (o : Options) (node : α) : Traced Fragment := do
  let f ← Compile.block o o.maxDepth node
  Traced.log (.compiled (Node.kind node) f.length f.precedence)
  pure f

end BlockCode
