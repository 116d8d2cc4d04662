import BlockCode.Device.Instruction
import BlockCode.Text

/- Number literals: how a decimal is read, which double it is rounded to, and which
   constant of the device that selects.

   `Decimal.parse?` reads the whole of a text or nothing:

     number   = [sign] (digits [. [digits]] | . digits) [exponent]
     exponent = (e | E) [sign] digits
     sign     = + | -

   Digits are the ASCII digits. The value is kept as it was written, so no digit
   and no exponent is too long.

   `Decimal.roundsTo` decides whether the nearest double is a given integer. Nothing
   is rounded: the doubles next to an integer `n` are known, a number goes to `n` if
   it lies between the midpoints to them, and both midpoints go to `n` as well
   because its last bit is even. For `n` from 1 to below 2^52 the distances to the
   midpoints are whole multiples of 2^-54; for zero the midpoint is 2^-1075, half of
   the least positive double.

   A literal selects the constant of its rounded value, if the device has one. A
   literal with a point asks for a float, any other for an integer. -/
namespace BlockCode

/-- A number as it was written. The magnitude is the digits of `whole` and
`fraction` taken together, times ten to the power `scale`. -/
structure Decimal where
  negative : Bool
  whole : List Char
  fraction : List Char
  exponent : Int

namespace Decimal

def ofDigits (ds : List Char) : Nat :=
  ds.foldl (fun n c => 10 * n + (c.toNat - '0'.toNat)) 0

def digits (d : Decimal) : List Char := d.whole ++ d.fraction

/-- The digits read as one number, the point left out. -/
def significand (d : Decimal) : Nat := ofDigits d.digits

/-- The power of ten that the significand is multiplied with. -/
def scale (d : Decimal) : Int := d.exponent - d.fraction.length

/-- Takes a sign off the front; a missing sign is a plus. The first component
says whether it was a minus. -/
def takeSign : List Char → Bool × List Char
  | '-' :: cs => (true, cs)
  | '+' :: cs => (false, cs)
  | cs => (false, cs)

def takeDigits (cs : List Char) : List Char × List Char :=
  (cs.takeWhile Char.isDigit, cs.dropWhile Char.isDigit)

/-- Takes a point and the digits after it off the front. -/
def takeFraction : List Char → List Char × List Char
  | '.' :: cs => takeDigits cs
  | cs => ([], cs)

/-- Reads the end of a number: nothing, or an exponent. -/
def parseExponent? : List Char → Option Int
  | [] => some 0
  | c :: cs =>
    if c = 'e' ∨ c = 'E' then
      let (negative, cs) := takeSign cs
      if !cs.isEmpty && cs.all Char.isDigit then
        some (if negative then -(ofDigits cs) else ofDigits cs)
      else none
    else none

/-- Reads a whole text as a number. At least one digit has to stand before the
exponent. -/
def parse? (cs : List Char) : Option Decimal :=
  let (negative, cs) := takeSign cs
  let (whole, cs) := takeDigits cs
  let (fraction, cs) := takeFraction cs
  if whole.isEmpty && fraction.isEmpty then none
  else (parseExponent? cs).map fun exponent => ⟨negative, whole, fraction, exponent⟩

/-! Rounding. -/

/-- From `n` up to the midpoint to the next double, in units of 2^-54. -/
def reachAbove (n : Nat) : Nat := Nat.pow 2 (n.log2 + 1)

/-- From `n` down to the midpoint to the double before it, in units of 2^-54.
Below a power of two the doubles stand twice as close. -/
def reachBelow (n : Nat) : Nat :=
  if Nat.pow 2 n.log2 = n then Nat.pow 2 n.log2 else Nat.pow 2 (n.log2 + 1)

/-- Whether the nearest double of `num / den` is `n`. -/
def quotientRoundsTo (num den n : Nat) : Bool :=
  if n = 0 then num * Nat.pow 2 1075 ≤ den
  else (n * Nat.pow 2 54 - reachBelow n) * den ≤ num * Nat.pow 2 54 &&
    num * Nat.pow 2 54 ≤ (n * Nat.pow 2 54 + reachAbove n) * den

/-- Whether the nearest double of the magnitude is `n`. An exponent may be far
too long to raise ten to it, so two cases are decided before: a magnitude of at
least 10^(n+1) is too large for `n`, and one below 10^-324 goes to zero. -/
def magnitudeRoundsTo (d : Decimal) (n : Nat) : Bool :=
  if d.significand = 0 then n = 0
  else
    match d.scale with
    | .ofNat k => k ≤ n && quotientRoundsTo (d.significand * Nat.pow 10 k) 1 n
    | .negSucc k =>
      if d.digits.length + 324 ≤ k + 1 then n = 0
      else quotientRoundsTo d.significand (Nat.pow 10 (k + 1)) n

/-- Whether the nearest double is the integer `v`. A zero may have either sign. -/
def roundsTo (d : Decimal) (v : Int) : Bool :=
  (v = 0 || d.negative == (v < 0)) && d.magnitudeRoundsTo v.natAbs

end Decimal

/-! Literals. -/

/-- The constant that a trimmed literal selects, if there is one. -/
def Constant.ofNumeral? (cs : List Char) : Option Constant :=
  (Decimal.parse? cs).bind fun d =>
    (Enumerated.values : List Constant).find? fun c => c.isFloat == cs.contains '.' && d.roundsTo c.value

/-- The constant that a literal selects, if there is one. Blanks around the
literal do not count. -/
def Constant.ofLiteral? (text : String) : Option Constant :=
  ofNumeral? (Text.trim text.toList)

end BlockCode
