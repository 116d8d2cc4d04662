import BlockCode.Fragment
import BlockCode.Operator

/- Fragments as bytes for storage and transport. A value of an enumerated type is
   its position, a number of 32 bits; a fragment is the number of its
   instructions, 64 bits long, then the instructions, then the precedence. A
   decoder reads from left to right and reports the first problem it meets.

   A number is written in bytes of seven bits each, lowest first; every byte but the
   last has its high bit set. A reader knows how many bits the number may have, and
   refuses bytes that go on after that many. Spelling a number with more bytes than
   it needs is allowed. -/
namespace BlockCode.Wire

/-- Why bytes cannot be read. -/
inductive Error where
  | endOfInput
  | badVarint
  | badIndex
  deriving DecidableEq

def Error.message : Error → String
  | endOfInput => "Hit the end of buffer, expected more data"
  | badVarint => "Found a varint that didn't terminate. Is the usize too big for this platform?"
  | badIndex => "Serde Deserialization Error"

/-- Reads a value off the front of the bytes and returns the rest. -/
abbrev Decoder (α : Type) := List UInt8 → Except Error (α × List UInt8)

namespace Varint

/-- The shortest spelling of a number. -/
def encode (n : Nat) : List UInt8 :=
  if n < 128 then [n.toUInt8] else (n % 128 + 128).toUInt8 :: encode (n / 128)
termination_by n
decreasing_by omega

/-- Reads a number of at most `full` bytes and one more; that one is the last
byte and has to be less than `bound`. -/
def decodeUpTo (bound : Nat) : (full : Nat) → Decoder Nat
  | _, [] => .error .endOfInput
  | 0, b :: rest => if b.toNat < bound then .ok (b.toNat, rest) else .error .badVarint
  | full + 1, b :: rest =>
    if b.toNat < 128 then .ok (b.toNat, rest)
    else
      match decodeUpTo bound full rest with
      | .ok (n, rest) => .ok (b.toNat - 128 + 128 * n, rest)
      | .error e => .error e

def decode (bits : Nat) : Decoder Nat := decodeUpTo (Nat.pow 2 (bits % 7)) (bits / 7)

end Varint

/-! Fragments. -/

def encodeIndex {α : Type} [DecidableEq α] [Enumerated α] (a : α) : List UInt8 :=
  Varint.encode (Enumerated.index a)

def decodeIndex {α : Type} [Enumerated α] : Decoder α := fun bytes =>
  match Varint.decode 32 bytes with
  | .error e => .error e
  | .ok (n, rest) =>
    match Enumerated.ofIndex? n with
    | some a => .ok (a, rest)
    | none => .error .badIndex

/-- Reads `count` values, one after the other. -/
def decodeMany {α : Type} (decode : Decoder α) : (count : Nat) → Decoder (List α)
  | 0, bytes => .ok ([], bytes)
  | count + 1, bytes =>
    match decode bytes with
    | .error e => .error e
    | .ok (a, rest) =>
      match decodeMany decode count rest with
      | .error e => .error e
      | .ok (as, rest) => .ok (a :: as, rest)

def encodeFragment (f : Fragment) : List UInt8 :=
  Varint.encode f.length ++ f.code.flatMap encodeIndex ++ encodeIndex f.precedence

def decodeFragment : Decoder Fragment := fun bytes =>
  match Varint.decode 64 bytes with
  | .error e => .error e
  | .ok (count, rest) =>
    match decodeMany decodeIndex count rest with
    | .error e => .error e
    | .ok (code, rest) =>
      match decodeIndex rest with
      | .error e => .error e
      | .ok (precedence, rest) => .ok (⟨code, precedence⟩, rest)

end BlockCode.Wire
