/- Characters and texts.

   * A set of characters is a row of increasing ranges of code points. A look-up
     stops at the first range that starts past the character; `contains_iff` says
     that on increasing ranges this finds every range there is.
   * Blank characters are those that the Unicode property White_Space lists.
   * A line ends at a line feed or at a carriage return with a line feed after it; a
     carriage return alone is part of its line. What follows the last line feed is a
     line unless it is empty.
   * A byte is written as two upper-case hexadecimal digits. -/
namespace BlockCode.Text

/-! Sets of characters. -/

/-- Ranges of code points, each from its first to its last. -/
abbrev Ranges := List (Nat × Nat)

namespace Ranges

def contains : Ranges → Nat → Bool
  | [], _ => false
  | (first, last) :: rest, n => if n < first then false else n ≤ last || contains rest n

/-- Whether each range starts at `bound` or later and after the end of the one
before it. -/
def increasingFrom (bound : Nat) : Ranges → Bool
  | [] => true
  | (first, last) :: rest => bound ≤ first && first ≤ last && increasingFrom (last + 1) rest

theorem le_of_mem {bound : Nat} {ranges : Ranges} (h : ranges.increasingFrom bound)
    {range : Nat × Nat} (hm : range ∈ ranges) : bound ≤ range.1 := by
  induction ranges generalizing bound with
  | nil => cases hm
  | cons head rest ih =>
    obtain ⟨first, last⟩ := head
    simp only [increasingFrom, Bool.and_eq_true, decide_eq_true_eq] at h
    rcases List.mem_cons.mp hm with rfl | hm
    · exact h.1.1
    · have := ih h.2 hm
      omega

theorem contains_iff {bound : Nat} {ranges : Ranges} (h : ranges.increasingFrom bound) (n : Nat) :
    ranges.contains n ↔ ∃ range ∈ ranges, range.1 ≤ n ∧ n ≤ range.2 := by
  induction ranges generalizing bound with
  | nil => simp [contains]
  | cons head rest ih =>
    obtain ⟨first, last⟩ := head
    simp only [increasingFrom, Bool.and_eq_true, decide_eq_true_eq] at h
    have later := ih h.2
    rw [contains]
    split
    · next hlt =>
      -- every range starts past `n`
      constructor
      · intro found
        cases found
      · rintro ⟨range, hm, hle, _⟩
        rcases List.mem_cons.mp hm with rfl | hm
        · omega
        · have := le_of_mem h.2 hm
          omega
    · next hge =>
      simp only [Bool.or_eq_true, decide_eq_true_eq, later, List.mem_cons, exists_eq_or_imp]
      refine or_congr ⟨fun hle => ⟨by omega, hle⟩, fun hle => hle.2⟩ Iff.rfl

end Ranges

/-! Blanks. -/

def blanks : Ranges :=
  [(0x0009, 0x000D), (0x0020, 0x0020), (0x0085, 0x0085), (0x00A0, 0x00A0), (0x1680, 0x1680),
   (0x2000, 0x200A), (0x2028, 0x2029), (0x202F, 0x202F), (0x205F, 0x205F), (0x3000, 0x3000)]

def isBlank (c : Char) : Bool := blanks.contains c.toNat

def trimEnd (cs : List Char) : List Char := (cs.reverse.dropWhile isBlank).reverse

def trim (cs : List Char) : List Char := trimEnd (cs.dropWhile isBlank)

/-! Lines. -/

/-- The lines of a text, without what ends them. -/
def lines : List Char → List (List Char)
  | [] => []
  | '\n' :: cs => [] :: lines cs
  | '\r' :: '\n' :: cs => [] :: lines cs
  | c :: cs =>
    match lines cs with
    | [] => [[c]]
    | line :: rest => (c :: line) :: rest

/-! Bytes. -/

namespace Hex

def digit (n : Fin 16) : Char := (Nat.digitChar n.val).toUpper

/-- A byte as its high and its low hexadecimal digit. -/
def digits (b : UInt8) : List Char :=
  [digit (Fin.ofNat 16 (b.toNat / 16)), digit (Fin.ofNat 16 b.toNat)]

end Hex

end BlockCode.Text
