import BlockCode.Failure
import BlockCode.Node

/- One line of text that shows a block with its operands, and for every block in
   it the place where it stands. What of a block is shown is its outline, a finite
   tree, cut at a depth and shortened at long lists. Reading the outline is all that
   a sketch does with a block; drawing it is a matter of the outline alone.

   A sketch is put together from smaller ones: the spans of a part move by the length
   of what stands before it, and a slot name goes in front of the paths of what it
   holds. Places are counted in bytes of UTF-8.

   Correspondence (compiler ↔ here): `render` ↔ `Outline.ofNode`, which reads, and then
   `Outline.sketch`, which draws; `span_of`, `nearest_span` ↔ `Sketch.spanOf`,
   `Sketch.nearestSpan`. -/
namespace BlockCode
universe u

/-! Outlines. -/

/-- What is shown of a block. -/
inductive Outline where
  /-- A block too deep to be shown. -/
  | cut
  /-- A number block with its literal, if it has one. -/
  | number (text : Option String)
  /-- A comparison. -/
  | compare
  /-- A list block without an item count. -/
  | uncounted (op : ListOp)
  /-- A block with operands: what is in each slot shown, and how many more items
  there are. -/
  | operation (kind : Kind) (slots : List (String × Option Outline)) (hidden : Nat)

namespace Outline
variable {α : Type u} [Node α]

/-- The outline of a block, of which at most `levels` levels are shown. -/
def ofNode (o : Options) : (levels : Nat) → α → Outline
  | 0, _ => cut
  | levels + 1, node =>
    let slot (name : String) := (name, (Node.input node name).map (ofNode o levels))
    match Node.kind node with
    | .number => number (Node.field node numberField)
    | .compare => compare
    | .binary op => operation (.binary op) [slot slotA, slot slotB] 0
    | .list op =>
      match Node.itemCount node with
      | none => uncounted op
      | some count =>
        let shown := o.shown count
        operation (.list op) ((List.range shown).map fun i => slot (listSlot i)) (count - shown)

end Outline

/-! Places and texts. -/

/-- A place in a text, from `start` up to but not including `stop`. -/
structure Span where
  start : Nat
  stop : Nat
  deriving DecidableEq

def Span.shift (n : Nat) (s : Span) : Span := ⟨n + s.start, n + s.stop⟩

/-- A text and where the blocks in it stand, by path. -/
structure Sketch where
  text : String
  spans : List (Path × Span)

namespace Sketch

def plain (text : String) : Sketch := ⟨text, []⟩

def size (x : Sketch) : Nat := x.text.utf8ByteSize

/-- The spans of sketches that stand one after the other from a place on. -/
def spansFrom (start : Nat) : List Sketch → List (Path × Span)
  | [] => []
  | x :: rest =>
    (x.spans.map fun (path, span) => (path, span.shift start)) ++ spansFrom (start + x.size) rest

def concat (parts : List Sketch) : Sketch := ⟨String.join (parts.map text), spansFrom 0 parts⟩

/-- A sketch as what a slot holds. -/
def inSlot (slot : String) (x : Sketch) : Sketch :=
  { x with spans := x.spans.map fun (path, span) => (slot :: path, span) }

/-- A sketch as the whole of a block. -/
def asBlock (x : Sketch) : Sketch :=
  { x with spans := ([], ⟨0, x.size⟩) :: x.spans }

/-- What stands for the items that are not shown. -/
def more (hidden : Nat) : Sketch :=
  if hidden = 0 then plain "" else plain (", …" ++ toString hidden ++ " more")

end Sketch

namespace Outline

mutual

def sketch : Outline → Sketch
  | cut => (Sketch.plain "…").asBlock
  | number text => (Sketch.plain (text.getD "?")).asBlock
  | compare => (Sketch.plain Kind.compare.blockType).asBlock
  | uncounted op => (Sketch.plain ((Kind.list op).blockType ++ "(..)")).asBlock
  | operation kind slots hidden =>
    (Sketch.concat (.plain (kind.blockType ++ "(") :: [.plain ", "].intercalate (slotSketches slots) ++
      [Sketch.more hidden, .plain ")"])).asBlock

/-- Draws the slots of a block, each with its name and then what is in it. -/
def slotSketches : List (String × Option Outline) → List (List Sketch)
  | [] => []
  | (slot, none) :: rest => [.plain (slot ++ ": _")] :: slotSketches rest
  | (slot, some child) :: rest =>
    [.plain (slot ++ ": "), child.sketch.inSlot slot] :: slotSketches rest

end

end Outline

namespace Sketch

/-- The sketch of a block within the limits. -/
def ofNode {α : Type u} [Node α] (o : Options) (node : α) : Sketch :=
  (Outline.ofNode o o.maxDepth node).sketch

/-- Where the block at a path stands, if it is shown. -/
def spanOf (s : Sketch) (path : Path) : Option Span := s.spans.lookup path

/-- The path and every path above it, the longest first. -/
def ancestors : Path → List Path
  | [] => [[]]
  | slot :: rest => (ancestors rest).map (slot :: ·) ++ [[]]

/-- Where the block at a path stands or, if it is not shown, the nearest block
above it that is. -/
def nearestSpan (s : Sketch) (path : Path) : Span :=
  ((ancestors path).findSome? s.spanOf).getD ⟨0, s.size⟩

end Sketch

end BlockCode
