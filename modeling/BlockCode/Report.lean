import BlockCode.Report.Paint
import BlockCode.Sketch
import BlockCode.Text
import BlockCode.Text.Width

/- Reports of failures. A report shows the sketch of the tree on one line and
   underlines the block that failed, with the message hanging from the middle of
   the line; then come a hint, if there is one, and the path of the block. The
   sketch is always made with the limits that hold by default.

   ── ASSUMED ──────────────────────────────────────────────────────────────────
   The sketch has no line separator in it (LF, VT, FF, CR, U+0085, U+2028, U+2029).
   A literal can bring one in; a report then has several lines of text, and that
   layout is not described here.

   Correspondence (compiler ↔ here):
     `render_error_to_writer`            ↔ `Report.ofFailure`
     `render_error_to`                   ↔ `Painted.writeTo`
     `render_error_to_string`            ↔ `Painted.coloured`
     `render_error_to_string_no_color`   ↔ `Painted.plain` -/
namespace BlockCode.Report
universe u

/-! Characters in columns. -/

/-- How many characters of a text start before a byte. -/
def charsBefore : List Char → (byte : Nat) → Nat
  | _, 0 => 0
  | [], _ => 0
  | c :: cs, byte => charsBefore cs (byte - c.utf8Size) + 1

/-- The width of a character that is the `i`th of its text. A tab reaches to the
next multiple of four, counted in characters. -/
def width (c : Char) (i : Nat) : Nat :=
  if c = '\t' then 4 - i % 4
  else if Text.isBlank c then 1
  else Text.charWidth c

/-- The character as it is printed; blanks are spaces. -/
def printed (c : Char) (i : Nat) : List Char :=
  if Text.isBlank c then List.replicate (width c i) ' ' else [c]

/-- The widths of the first `count` characters of a text; past its end every
place is one column wide. -/
def widths (text : List Char) (count : Nat) : List Nat :=
  ((text.zipIdx.map fun (c, i) => width c i).rightpad count 1).take count

/-! The marked line. -/

/-- The characters of a text that a report marks, from `first` up to but not
including `stop`. -/
structure Mark where
  first : Nat
  stop : Nat
  deriving DecidableEq

namespace Mark

def ofSpan (text : List Char) (span : Span) : Mark :=
  ⟨charsBefore text span.start, charsBefore text span.stop⟩

def covers (m : Mark) (i : Nat) : Bool := m.first ≤ i && i < m.stop

/-- The character that the message hangs from. -/
def middle (m : Mark) : Nat := (m.first + m.stop) / 2

/-- How many characters the lines below the text reach: two past the mark. -/
def reach (m : Mark) : Nat := m.stop + 2

/-- A symbol over `width` columns: the first of them, then the others. -/
def stretch (head tail : Char) (width : Nat) : List Char :=
  (List.replicate width tail).set 0 head

def underline (m : Mark) (i width : Nat) : Painted :=
  if i = m.middle then
    if m.covers i then Piece.each (some .marked) (stretch '┬' '─' width)
    else Piece.each (some .marked) (stretch '│' ' ' width)
  else if m.covers i then Piece.each (some .marked) (List.replicate width '─')
  else Piece.each none (List.replicate width ' ')

/-- The line from the middle of the mark to the message, under character `i`. -/
def arrow (m : Mark) (i width : Nat) : Painted :=
  if i = m.middle then Piece.each (some .marked) (stretch '╰' '─' width)
  else if m.middle < i then Piece.each (some .marked) (List.replicate width '─')
  else Piece.each none (List.replicate width ' ')

/-- A row below the text, made column by column. -/
def row (m : Mark) (text : List Char) (symbols : (i width : Nat) → Painted) : Painted :=
  (widths text m.reach).zipIdx.flatMap fun (w, i) => symbols i w

/-- The text itself, what is marked in another colour than the rest. -/
def source (m : Mark) (text : List Char) : Painted :=
  text.zipIdx.flatMap fun (c, i) =>
    Piece.each (some (if m.covers i then .marked else .unmarked)) (printed c i)

end Mark

/-! The layout. -/

/-- A line below the text, behind the margin. -/
def marginLine (content : Painted) : Painted :=
  [.bare " ", .painted .margin "  │", .bare " "] ++ content ++ [.bare "\n"]

/-- A remark at the end of a report, after an empty line. If it has several
lines, the later ones stand below the first, behind the heading. -/
def remark (heading text : String) : Painted :=
  let indent := String.ofList (List.replicate (heading.length + 2) ' ')
  marginLine [] ++
  match Text.lines text.toList with
  | [] => []
  | first :: rest =>
    marginLine [.painted .heading heading, .bare (": " ++ String.ofList first)] ++
      rest.flatMap fun line => marginLine [.bare (indent ++ String.ofList line)]

/-- The report of a failure against a sketch in which the block at a span is marked. It
has one line for the sketch: one without line separators is meant. -/
def marking (sketch : Sketch) (span : Span) (e : Failure) : Painted :=
  let chars := sketch.text.toList
  let mark := Mark.ofSpan chars span
  let text := Text.trimEnd chars
  let message := e.fault.message
  [.painted .severity ("[" ++ e.fault.code ++ "] Error:"), .bare (" " ++ message ++ "\n"),
    .bare "   ", .painted .frame "╭", .painted .frame "─", .painted .frame "[",
    .bare (" <blocks>:1:" ++ toString (mark.first + 1) ++ " "), .painted .frame "]", .bare "\n",
    .bare "   ", .painted .frame "│", .bare "\n",
    .bare " ", .painted .frame "1 │", .bare " "] ++ mark.source text ++ [.bare "\n"] ++
  marginLine (mark.row text mark.underline) ++
  marginLine (mark.row text mark.arrow ++ [.bare (" " ++ message)]) ++
  e.fault.help?.elim [] (remark "Help") ++
  remark "Note" ("block at slot path " ++ e.path.display) ++
  [.painted .frame "───╯", .bare "\n"]

/-- The report of a failure against a sketch. The block that failed is marked or, if it is
not shown, the nearest block above it that is. -/
def ofSketch (sketch : Sketch) (e : Failure) : Painted :=
  marking sketch (sketch.nearestSpan e.path) e

def ofFailure {α : Type u} [Node α] (node : α) (e : Failure) : Painted :=
  ofSketch (Sketch.ofNode {} node) e

end BlockCode.Report
