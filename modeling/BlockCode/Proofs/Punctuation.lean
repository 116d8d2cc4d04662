import Mathlib
import BlockCode.Proofs.Drawing
import BlockCode.Proofs.Numeral

/- How a drawing can be read off a text. A drawing is a word, which ends at the first comma or
   parenthesis, and for most blocks arguments in parentheses after it. Between the parentheses
   there are slots, each with its name, with separators between them; after the last one
   may stand a sign for the items that are not shown.

   `trailChars_append_inj` says that slots can be read one after the other: after each of them a
   text goes on with a separator and a name, with a separator and the sign for hidden items, or
   with the end of the block, and no two of these can be taken for each other. It assumes that
   what is in a slot can be read off a text (`ReadApart`); that is for an induction to show. -/
namespace BlockCode

open Decimal (Stops)

/-! ## Texts that end where another kind of character begins -/

theorem append_inj_of_stops {P : Char → Bool} {a b r r' : List Char} (ha : ∀ c ∈ a, P c)
    (hb : ∀ c ∈ b, P c) (hr : Stops (fun c => P c) r) (hr' : Stops (fun c => P c) r')
    (h : a ++ r = b ++ r') : a = b ∧ r = r' := by
  have htake {a r : List Char} (ha : ∀ c ∈ a, P c) (hr : Stops (fun c => P c) r) :
      (a ++ r).takeWhile P = a := by
    rw [List.takeWhile_append_of_pos ha]
    cases r with
    | nil => simp
    | cons c r => simp [List.takeWhile_cons_of_neg ((Decimal.stops_cons _ c r).mp hr)]
  have hab : a = b := by rw [← htake ha hr, h, htake hb hr']
  subst hab
  exact ⟨rfl, List.append_cancel_left h⟩

namespace Outline

/-! ## Words and arguments -/

def chars (x : Outline) : List Char := x.sketch.text.toList

def contentChars (x : Option Outline) : List Char := x.elim ['_'] chars

def slotChars (s : String × Option Outline) : List Char :=
  s.1.toList ++ ':' :: ' ' :: contentChars s.2

/-- The characters of a block after one of its slots. -/
def trailChars (slots : List (String × Option Outline)) (hidden : Nat) : List Char :=
  (Sketch.concat (trail slots hidden)).text.toList

/-- The characters of a block between its parentheses, with the one that closes them. -/
def bodyChars : List (String × Option Outline) → Nat → List Char
  | [], hidden => trailChars [] hidden
  | s :: slots, hidden => slotChars s ++ trailChars slots hidden

theorem toList_text_entry (s : String × Option Outline) :
    (Sketch.concat (entry s)).text.toList = slotChars s := by
  obtain ⟨slot, _ | child⟩ := s
  · simp [entry, Sketch.concat, Sketch.plain, slotChars, contentChars]
  · simp [entry, Sketch.concat, Sketch.plain, slotChars, contentChars, Sketch.inSlot, chars]

theorem trailChars_nil (hidden : Nat) :
    trailChars [] hidden = (Sketch.more hidden).text.toList ++ [')'] := by
  simp [trailChars, trail, Sketch.concat, Sketch.plain]

theorem trailChars_cons (s : String × Option Outline) (slots : List (String × Option Outline))
    (hidden : Nat) :
    trailChars (s :: slots) hidden = ',' :: ' ' :: (slotChars s ++ trailChars slots hidden) := by
  have htrail : trail (s :: slots) hidden = .plain ", " :: (entry s ++ trail slots hidden) := by
    simp [trail]
  rw [trailChars, htrail, Sketch.text_concat_cons, Sketch.text_concat_append, String.toList_append,
    String.toList_append, toList_text_entry]
  rfl

theorem chars_operation (kind : Kind) (slots : List (String × Option Outline)) (hidden : Nat) :
    (operation kind slots hidden).chars = kind.blockType.toList ++ '(' :: bodyChars slots hidden := by
  rw [chars, sketch, slotSketches_eq_map, Sketch.asBlock]
  cases slots with
  | nil => simp [bodyChars, trailChars, trail, Sketch.concat, Sketch.plain]
  | cons s slots =>
    have hparts : [Sketch.plain ", "].intercalate ((s :: slots).map entry) ++
        [Sketch.more hidden, .plain ")"] = entry s ++ trail slots hidden := by
      rw [List.map_cons, ← List.nil_append (entry s :: _), intercalate_split]
      simp [trail, List.flatMap_map]
    rw [List.cons_append, hparts, Sketch.text_concat_cons, Sketch.text_concat_append]
    simp [bodyChars, trailChars, Sketch.plain, toList_text_entry]

def word : Outline → String
  | cut => "…"
  | number text => text.getD "?"
  | compare => Kind.compare.blockType
  | uncounted op => (Kind.list op).blockType
  | operation kind _ _ => kind.blockType

/-- What follows the word. -/
def arguments : Outline → List Char
  | cut | number _ | compare => []
  | uncounted _ => "(..)".toList
  | operation _ slots hidden => '(' :: bodyChars slots hidden

theorem chars_eq (x : Outline) : x.chars = x.word.toList ++ x.arguments := by
  cases x with
  | operation kind slots hidden => exact chars_operation kind slots hidden
  | _ => simp [chars, sketch, Sketch.asBlock, Sketch.plain, word, arguments]

/-- The character ends a word. -/
def isDelimiter (c : Char) : Bool := c = ',' || c = '(' || c = ')'

/-- The text is empty or begins with a delimiter. -/
def Delimited (cs : List Char) : Prop := ∀ c ∈ cs.head?, isDelimiter c

def IsWord (w : String) : Prop := ∀ c ∈ w.toList, ¬ isDelimiter c

theorem delimited_arguments (x : Outline) {r : List Char} (hr : Delimited r) :
    Delimited (x.arguments ++ r) := by
  cases x with
  | cut | number | compare => exact hr
  | uncounted | operation => simp [arguments, Delimited, isDelimiter]

theorem word_append_inj {v w : String} {r r' : List Char} (hv : IsWord v) (hw : IsWord w)
    (hr : Delimited r) (hr' : Delimited r') (h : v.toList ++ r = w.toList ++ r') : v = w ∧ r = r' := by
  have hstops {r : List Char} (hr : Delimited r) : Stops (fun c => !isDelimiter c) r := by
    intro c hc
    simp [hr c hc]
  obtain ⟨hvw, hrest⟩ := append_inj_of_stops (P := fun c => !isDelimiter c)
    (by simpa [IsWord] using hv) (by simpa [IsWord] using hw) (hstops hr) (hstops hr') h
  exact ⟨String.toList_inj.mp hvw, hrest⟩

theorem isWord_blockType (kind : Kind) : IsWord kind.blockType := by
  cases kind with
  | number | compare => simp [IsWord, Kind.blockType, isDelimiter]
  | binary op | list op => cases op <;> simp [IsWord, Kind.blockType, isDelimiter]

/-! ## Slots one after the other -/

/-- Of two things in slots: where texts begin with them and end or go on with a delimiter, they are the same
and so is what follows. -/
def ReadApart (x y : Option Outline) : Prop :=
  ∀ r r', Delimited r → Delimited r' → contentChars x ++ r = contentChars y ++ r' → x = y ∧ r = r'

/-- The name begins with a letter. -/
def IsName (slot : String) : Prop := ∃ c cs, slot.toList = c :: cs ∧ c.isAlpha

theorem toList_more_zero : (Sketch.more 0).text.toList = [] := by
  simp [Sketch.more, Sketch.plain]

theorem toList_more_of_ne_zero {hidden : Nat} (h : hidden ≠ 0) :
    (Sketch.more hidden).text.toList = ',' :: ' ' :: '…' :: (hidden.repr.toList ++ " more".toList) := by
  simp [Sketch.text_more, h]

theorem more_append_inj {hidden hidden' : Nat} {r r' : List Char}
    (h : (Sketch.more hidden).text.toList ++ ')' :: r = (Sketch.more hidden').text.toList ++ ')' :: r') :
    hidden = hidden' ∧ r = r' := by
  by_cases h0 : hidden = 0 <;> by_cases h0' : hidden' = 0
  · rw [h0, h0'] at h ⊢
    simpa [toList_more_zero] using h
  · rw [h0, toList_more_zero, toList_more_of_ne_zero h0'] at h
    simp at h
  · rw [h0', toList_more_zero, toList_more_of_ne_zero h0] at h
    simp at h
  · rw [toList_more_of_ne_zero h0, toList_more_of_ne_zero h0'] at h
    simp only [List.cons_append, List.append_assoc, List.cons.injEq, true_and] at h
    have hdigits (n : Nat) : ∀ c ∈ n.repr.toList, c.isDigit := by
      intro c hc
      rw [Nat.toList_repr] at hc
      exact Nat.isDigit_of_mem_toDigits (by decide) (by decide) hc
    obtain ⟨hrepr, hrest⟩ := append_inj_of_stops (hdigits hidden) (hdigits hidden') (by simp) (by simp) h
    exact ⟨Nat.repr_injective (String.toList_inj.mp hrepr), by simpa using hrest⟩

theorem delimited_trailChars (slots : List (String × Option Outline)) (hidden : Nat) (r : List Char) :
    Delimited (trailChars slots hidden ++ r) := by
  cases slots with
  | nil =>
    rw [trailChars_nil]
    by_cases h0 : hidden = 0
    · simp [h0, toList_more_zero, Delimited, isDelimiter]
    · simp [toList_more_of_ne_zero h0, Delimited, isDelimiter]
  | cons s slots => simp [trailChars_cons, Delimited, isDelimiter]

/-- After a slot, the name of another slot cannot be taken for the end of the block. -/
theorem trailChars_nil_ne_cons {s : String × Option Outline} (hs : IsName s.1)
    (slots : List (String × Option Outline)) (hidden hidden' : Nat) (r r' : List Char) :
    trailChars [] hidden ++ r ≠ trailChars (s :: slots) hidden' ++ r' := by
  obtain ⟨c, cs, hc, halpha⟩ := hs
  rw [trailChars_nil, trailChars_cons, slotChars, hc]
  by_cases h0 : hidden = 0
  · simp [h0, toList_more_zero]
  · rw [toList_more_of_ne_zero h0]
    simp only [List.cons_append, ne_eq, List.cons.injEq, true_and, not_and]
    rintro rfl
    exact absurd halpha (by decide)

/-- Slots whose names agree as far as there are some can be read one by one. -/
theorem trailChars_append_inj {xs ys : List (String × Option Outline)} {hidden hidden' : Nat}
    {r r' : List Char} (hxs : ∀ s ∈ xs, IsName s.1) (hys : ∀ s ∈ ys, IsName s.1)
    (hnames : xs.map Prod.fst <+: ys.map Prod.fst ∨ ys.map Prod.fst <+: xs.map Prod.fst)
    (hread : ∀ s ∈ xs, ∀ t ∈ ys, s.1 = t.1 → ReadApart s.2 t.2)
    (h : trailChars xs hidden ++ r = trailChars ys hidden' ++ r') :
    xs = ys ∧ hidden = hidden' ∧ r = r' := by
  induction xs generalizing ys with
  | nil =>
    cases ys with
    | nil =>
      rw [trailChars_nil, trailChars_nil, List.append_assoc, List.append_assoc] at h
      exact ⟨rfl, more_append_inj h⟩
    | cons t ys => exact absurd h (trailChars_nil_ne_cons (hys t List.mem_cons_self) ys _ _ _ _)
  | cons s xs ih =>
    cases ys with
    | nil => exact absurd h.symm (trailChars_nil_ne_cons (hxs s List.mem_cons_self) xs _ _ _ _)
    | cons t ys =>
      obtain ⟨hst, htails⟩ : s.1 = t.1 ∧ (xs.map Prod.fst <+: ys.map Prod.fst ∨
          ys.map Prod.fst <+: xs.map Prod.fst) := by
        simp only [List.map_cons, List.cons_prefix_cons] at hnames
        obtain ⟨hst, hnames⟩ | ⟨hts, hnames⟩ := hnames
        · exact ⟨hst, .inl hnames⟩
        · exact ⟨hts.symm, .inr hnames⟩
      rw [trailChars_cons, trailChars_cons, slotChars, slotChars, hst] at h
      simp only [List.cons_append, List.append_assoc, List.cons.injEq, true_and,
        List.append_cancel_left_eq] at h
      obtain ⟨hcontent, hrest⟩ := hread s List.mem_cons_self t List.mem_cons_self hst _ _
        (delimited_trailChars xs hidden r) (delimited_trailChars ys hidden' r') h
      obtain ⟨rfl, hhidden⟩ := ih (fun s hs => hxs s (List.mem_cons_of_mem _ hs))
        (fun s hs => hys s (List.mem_cons_of_mem _ hs)) htails
        (fun s hs t ht => hread s (List.mem_cons_of_mem _ hs) t (List.mem_cons_of_mem _ ht)) hrest
      exact ⟨by rw [Prod.ext hst hcontent], hhidden⟩

theorem bodyChars_nil_ne_cons {s : String × Option Outline} (hs : IsName s.1)
    (slots : List (String × Option Outline)) (hidden hidden' : Nat) (r r' : List Char) :
    bodyChars [] hidden ++ r ≠ bodyChars (s :: slots) hidden' ++ r' := by
  obtain ⟨c, cs, hc, halpha⟩ := hs
  intro h
  have hdelimited : Delimited (bodyChars [] hidden ++ r) := delimited_trailChars [] hidden r
  rw [h, bodyChars, slotChars, hc] at hdelimited
  have hdelimiter : isDelimiter c := hdelimited c rfl
  simp only [isDelimiter, Bool.or_eq_true, decide_eq_true_eq] at hdelimiter
  obtain (rfl | rfl) | rfl := hdelimiter <;> exact absurd halpha (by decide)

theorem bodyChars_append_inj {xs ys : List (String × Option Outline)} {hidden hidden' : Nat}
    {r r' : List Char} (hxs : ∀ s ∈ xs, IsName s.1) (hys : ∀ s ∈ ys, IsName s.1)
    (hnames : xs.map Prod.fst <+: ys.map Prod.fst ∨ ys.map Prod.fst <+: xs.map Prod.fst)
    (hread : ∀ s ∈ xs, ∀ t ∈ ys, s.1 = t.1 → ReadApart s.2 t.2)
    (h : bodyChars xs hidden ++ r = bodyChars ys hidden' ++ r') :
    xs = ys ∧ hidden = hidden' ∧ r = r' := by
  refine trailChars_append_inj hxs hys hnames hread ?_
  -- with a separator in front, the first slot is like the others
  cases xs with
  | nil =>
    cases ys with
    | nil => exact h
    | cons t ys => exact absurd h (bodyChars_nil_ne_cons (hys t List.mem_cons_self) ys _ _ _ _)
  | cons s xs =>
    cases ys with
    | nil => exact absurd h.symm (bodyChars_nil_ne_cons (hxs s List.mem_cons_self) xs _ _ _ _)
    | cons t ys =>
      rw [trailChars_cons, trailChars_cons]
      exact congrArg (',' :: ' ' :: ·) h

end Outline

end BlockCode
