/- Text in colour. A painted text is a row of pieces, each with a paint or
   without one; the same pieces are read as plain text and as text with the
   escape sequences of a terminal. -/
namespace BlockCode

/-- What a colour is used for. -/
inductive Paint where
  | severity
  | frame
  | margin
  | heading
  | marked
  | unmarked
  deriving DecidableEq

def Paint.code : Paint → String
  | severity => "31"
  | frame => "38;5;246"
  | margin => "38;5;240"
  | heading => "38;5;115"
  | marked => "38;5;155"
  | unmarked => "38;5;249"

/-- A piece of text in one colour, or in none. -/
structure Piece where
  paint : Option Paint
  text : String

namespace Piece

def bare (text : String) : Piece := ⟨none, text⟩

def painted (paint : Paint) (text : String) : Piece := ⟨some paint, text⟩

/-- Characters, each a piece of its own in the same colour. -/
def each (paint : Option Paint) (cs : List Char) : List Piece :=
  cs.map fun c => ⟨paint, c.toString⟩

/-- The piece for a terminal: the colour is set before it and reset after it. -/
def escaped (p : Piece) : String :=
  match p.paint with
  | none => p.text
  | some paint => "\x1b[" ++ paint.code ++ "m" ++ p.text ++ "\x1b[0m"

end Piece

/-- A text in pieces. -/
abbrev Painted := List Piece

def Painted.plain (pieces : Painted) : String := String.join (pieces.map Piece.text)

def Painted.coloured (pieces : Painted) : String := String.join (pieces.map Piece.escaped)

/-- Writes the text with colours, piece by piece, behind the bytes that were written before. -/
def Painted.writeTo (pieces : Painted) (out : ByteArray) : ByteArray :=
  pieces.foldl (fun out piece => out ++ piece.escaped.toUTF8) out

end BlockCode
