import Mathlib
import BlockCode.Block
import BlockCode.Report
import BlockCode.Proofs.Drawing

/- Reports with colours and without. A report is made of pieces, and both its forms are read off
   them, so the question is what a reader can get back who has the form with colours only.
   `Text.withoutEscapes` deletes the escape sequences from any text, without knowing the pieces. Where
   a piece has an escape character in its own text, that deletes too much; where no piece has one, it
   gives back the form without colours (`Painted.withoutEscapes_coloured`).

   Only three parts of a report come from outside, the sketch, the message and the path
   (`Report.unescaped_ofFailure`); all the others are fixed texts, digits and lines. -/
namespace BlockCode
universe u
variable {α : Type u} [Node α]

namespace Text

/-! ## Escape sequences -/

def isParameter (c : Char) : Bool := c.isDigit || c = ';'

/-- What follows the escape sequence for a colour at the beginning of a text, if there is one: an
escape character, a bracket, digits and semicolons, and the letter m. -/
def afterEscape? : List Char → Option (List Char)
  | c :: '[' :: rest =>
    if c = '\x1b' then
      match rest.dropWhile isParameter with
      | 'm' :: rest => some rest
      | _ => none
    else none
  | _ => none

theorem length_afterEscape? {cs rest : List Char} (h : afterEscape? cs = some rest) :
    rest.length < cs.length := by
  unfold afterEscape? at h
  split at h
  · next c after =>
    split at h
    · have hle := (List.dropWhile_suffix isParameter (l := after)).length_le
      split at h
      · next rest' hdrop =>
        rw [hdrop, List.length_cons] at hle
        obtain rfl := Option.some.inj h
        simp only [List.length_cons]
        omega
      · cases h
    · cases h
  · cases h

/-- The text without the escape sequences for colours in it. -/
def withoutEscapes (cs : List Char) : List Char :=
  match cs with
  | [] => []
  | c :: cs =>
    match _h : afterEscape? (c :: cs) with
    | some rest => withoutEscapes rest
    | none => c :: withoutEscapes cs
termination_by cs.length
decreasing_by
  · exact length_afterEscape? _h
  · simp

theorem withoutEscapes_cons_of_ne {c : Char} (h : c ≠ '\x1b') (cs : List Char) :
    withoutEscapes (c :: cs) = c :: withoutEscapes cs := by
  have hnone : afterEscape? (c :: cs) = none := by
    unfold afterEscape?
    split
    · next heq =>
      obtain ⟨rfl, _⟩ := List.cons.inj heq
      rw [if_neg h]
    · rfl
  rw [withoutEscapes]
  split
  · next heq =>
    rw [hnone] at heq
    cases heq
  · rfl

theorem withoutEscapes_append {xs : List Char} (h : '\x1b' ∉ xs) (ys : List Char) :
    withoutEscapes (xs ++ ys) = xs ++ withoutEscapes ys := by
  induction xs with
  | nil => rfl
  | cons c xs ih =>
    rw [List.mem_cons, not_or] at h
    rw [List.cons_append, withoutEscapes_cons_of_ne (Ne.symm h.1), ih h.2, List.cons_append]

theorem withoutEscapes_sequence {parameters : List Char} (h : ∀ c ∈ parameters, isParameter c)
    (rest : List Char) :
    withoutEscapes ('\x1b' :: '[' :: (parameters ++ 'm' :: rest)) = withoutEscapes rest := by
  have hsome : afterEscape? ('\x1b' :: '[' :: (parameters ++ 'm' :: rest)) = some rest := by
    have hm : (parameters ++ 'm' :: rest).dropWhile isParameter = 'm' :: rest := by
      rw [List.dropWhile_append_of_pos h, List.dropWhile_cons_of_neg (by decide)]
    simp only [afterEscape?, hm, if_true]
  rw [withoutEscapes]
  split
  · next heq =>
    rw [hsome] at heq
    rw [Option.some.inj heq]
  · next heq =>
    rw [hsome] at heq
    cases heq

end Text

/-! ## Painted texts -/

theorem Paint.isParameter_code (paint : Paint) : ∀ c ∈ paint.code.toList, Text.isParameter c := by
  cases paint <;> simp [Paint.code, Text.isParameter, Char.isDigit]

theorem Piece.withoutEscapes_escaped {p : Piece} (h : '\x1b' ∉ p.text.toList) (rest : List Char) :
    Text.withoutEscapes (p.escaped.toList ++ rest) = p.text.toList ++ Text.withoutEscapes rest := by
  obtain ⟨_ | paint, text⟩ := p
  · exact Text.withoutEscapes_append h rest
  · have hzero : ∀ c ∈ ['0'], Text.isParameter c := by simp [Text.isParameter, Char.isDigit]
    have hreset : Text.withoutEscapes ("\x1b[0m".toList ++ rest) = Text.withoutEscapes rest :=
      Text.withoutEscapes_sequence hzero rest
    have hchars : (Piece.escaped ⟨some paint, text⟩).toList ++ rest =
        '\x1b' :: '[' :: (paint.code.toList ++ 'm' :: (text.toList ++ ("\x1b[0m".toList ++ rest))) := by
      simp [Piece.escaped]
    rw [hchars, Text.withoutEscapes_sequence paint.isParameter_code,
      Text.withoutEscapes_append h, hreset]

namespace Painted

/-- There is no escape character in the text of the pieces. -/
def Unescaped (pieces : Painted) : Prop := ∀ p ∈ pieces, '\x1b' ∉ p.text.toList

/-- Without the escape sequences, a text with colours is the text without colours. -/
theorem withoutEscapes_coloured {pieces : Painted} (h : pieces.Unescaped) :
    Text.withoutEscapes pieces.coloured.toList = pieces.plain.toList := by
  induction pieces with
  | nil => simp [coloured, plain, Text.withoutEscapes]
  | cons p pieces ih =>
    obtain ⟨hp, hpieces⟩ := List.forall_mem_cons.mp h
    rw [coloured, List.map_cons, String.join_cons, String.toList_append,
      Piece.withoutEscapes_escaped hp, ← coloured, ih hpieces, plain, plain, List.map_cons,
      String.join_cons, String.toList_append]

theorem writeTo_eq (pieces : Painted) (out : ByteArray) :
    pieces.writeTo out = out ++ pieces.coloured.toUTF8 := by
  induction pieces generalizing out with
  | nil => simp [writeTo, coloured]
  | cons p pieces ih =>
    rw [writeTo, List.foldl_cons, ← writeTo, ih, coloured, coloured, List.map_cons, String.join_cons]
    simp [String.toUTF8, ByteArray.append_assoc]

section
variable {xs ys : Painted}

@[simp] theorem unescaped_nil : Unescaped [] := by simp [Unescaped]

@[simp] theorem unescaped_cons {p : Piece} :
    Unescaped (p :: xs) ↔ '\x1b' ∉ p.text.toList ∧ xs.Unescaped := List.forall_mem_cons

@[simp] theorem unescaped_append : Unescaped (xs ++ ys) ↔ xs.Unescaped ∧ ys.Unescaped :=
  List.forall_mem_append

theorem unescaped_each {paint : Option Paint} {cs : List Char} (h : '\x1b' ∉ cs) :
    Unescaped (Piece.each paint cs) := by
  intro p hp
  obtain ⟨c, hc, rfl⟩ := List.mem_map.mp hp
  have hne : '\x1b' ≠ c := by
    rintro rfl
    exact h hc
  simpa using hne

theorem unescaped_flatMap {ι : Type*} {l : List ι} {f : ι → Painted} (h : ∀ i ∈ l, (f i).Unescaped) :
    Unescaped (l.flatMap f) := by
  intro p hp
  obtain ⟨i, hi, hp⟩ := List.mem_flatMap.mp hp
  exact h i hi p hp

end

end Painted

/-! ## Reports -/

theorem Text.mem_of_mem_lines {cs line : List Char} (hline : line ∈ Text.lines cs) :
    ∀ c ∈ line, c ∈ cs := by
  fun_induction Text.lines cs generalizing line with
  | case1 => cases hline
  | case2 cs ih | case3 cs ih =>
    obtain rfl | hline := List.mem_cons.mp hline
    · intro c hc
      cases hc
    · intro c hc
      simp [ih hline c hc]
  | case4 c cs _ _ hlines ih =>
    rw [List.mem_singleton.mp hline]
    intro c' hc'
    exact List.mem_cons.mpr (.inl (List.mem_singleton.mp hc'))
  | case5 c cs _ _ first rest hlines ih =>
    rw [hlines] at ih
    intro c' hc'
    obtain rfl | hline := List.mem_cons.mp hline
    · obtain rfl | hc' := List.mem_cons.mp hc'
      · exact List.mem_cons_self
      · exact List.mem_cons_of_mem c (ih List.mem_cons_self c' hc')
    · exact List.mem_cons_of_mem c (ih (List.mem_cons_of_mem first hline) c' hc')

namespace Report
open Painted

theorem escape_not_mem_stretch {head tail : Char} (hhead : '\x1b' ≠ head)
    (htail : '\x1b' ≠ tail) (w : Nat) : '\x1b' ∉ Mark.stretch head tail w := by
  intro h
  obtain h | h := List.mem_or_eq_of_mem_set h
  · exact htail (List.eq_of_mem_replicate h)
  · exact hhead h

theorem escape_not_mem_replicate {c : Char} (h : '\x1b' ≠ c) (w : Nat) :
    '\x1b' ∉ List.replicate w c :=
  fun hmem => h (List.eq_of_mem_replicate hmem)

theorem unescaped_underline (m : Mark) (i w : Nat) : (m.underline i w).Unescaped := by
  unfold Mark.underline
  split
  · split
    · exact unescaped_each (escape_not_mem_stretch (by decide) (by decide) w)
    · exact unescaped_each (escape_not_mem_stretch (by decide) (by decide) w)
  · split
    · exact unescaped_each (escape_not_mem_replicate (by decide) w)
    · exact unescaped_each (escape_not_mem_replicate (by decide) w)

theorem unescaped_arrow (m : Mark) (i w : Nat) : (m.arrow i w).Unescaped := by
  unfold Mark.arrow
  split
  · exact unescaped_each (escape_not_mem_stretch (by decide) (by decide) w)
  · split
    · exact unescaped_each (escape_not_mem_replicate (by decide) w)
    · exact unescaped_each (escape_not_mem_replicate (by decide) w)

theorem unescaped_row {symbols : Nat → Nat → Painted} (h : ∀ i w, (symbols i w).Unescaped) (m : Mark)
    (text : List Char) : (m.row text symbols).Unescaped :=
  unescaped_flatMap fun p _ => h p.2 p.1

theorem unescaped_source (m : Mark) {text : List Char} (h : '\x1b' ∉ text) :
    (m.source text).Unescaped := by
  refine unescaped_flatMap ?_
  rintro ⟨c, i⟩ hc
  refine unescaped_each ?_
  have hmem : c ∈ text := (List.mem_zipIdx hc).2.2 ▸ List.getElem_mem _
  unfold printed
  split
  · exact escape_not_mem_replicate (by decide) _
  · rw [List.mem_singleton]
    rintro rfl
    exact h hmem

theorem unescaped_marginLine {content : Painted} (h : content.Unescaped) :
    (marginLine content).Unescaped := by
  simp [marginLine, Piece.bare, Piece.painted, h]

theorem unescaped_remark {heading text : String} (hheading : '\x1b' ∉ heading.toList)
    (htext : '\x1b' ∉ text.toList) : (remark heading text).Unescaped := by
  have hline {line : List Char} (h : line ∈ Text.lines text.toList) : '\x1b' ∉ line :=
    fun hmem => htext (Text.mem_of_mem_lines h _ hmem)
  unfold remark
  refine unescaped_append.mpr ⟨unescaped_marginLine unescaped_nil, ?_⟩
  cases hlines : Text.lines text.toList with
  | nil => exact unescaped_nil
  | cons first rest =>
    refine unescaped_append.mpr ⟨unescaped_marginLine ?_, unescaped_flatMap fun line hmem =>
      unescaped_marginLine ?_⟩
    · have hfirst := hline (hlines ▸ List.mem_cons_self)
      simp [Piece.bare, Piece.painted, hheading, hfirst]
    · have hrest := hline (hlines ▸ List.mem_cons_of_mem first hmem)
      simp [Piece.bare, hrest]

theorem escape_not_mem_help {fault : Fault} {help : String} (h : fault.help? = some help) :
    '\x1b' ∉ help.toList := by
  cases fault with
  | unsupportedLiteral text =>
    obtain rfl := Option.some.inj h
    simp
  | unimplementedOperator op =>
    obtain rfl := Option.some.inj h
    cases op <;> simp [Operator.label]
  | unimplemented blockType =>
    obtain rfl := Option.some.inj h
    simp
  | malformed flaw =>
    cases flaw with
    | depthExceeded limit =>
      obtain rfl := Option.some.inj h
      simp
    | missingField | missingItemCount | tooManyItems => cases h

theorem escape_not_mem_display {path : Path} (h : ∀ slot ∈ path, '\x1b' ∉ slot.toList) :
    '\x1b' ∉ path.display.toList := by
  unfold Path.display
  split
  · simp
  · rw [String.toList_intercalate]
    intro hmem
    obtain heq | ⟨slot, hslot, hmem⟩ := Outline.mem_intercalate hmem
    · exact absurd heq (by decide)
    · obtain ⟨name, hname, rfl⟩ := List.mem_map.mp hslot
      exact h name hname hmem

/-- There is no escape character in a report if there is none in the sketch, in the message and in the
path. -/
theorem unescaped_ofFailure {node : α} {e : Failure}
    (hsketch : '\x1b' ∉ (Sketch.ofNode {} node).text.toList)
    (hmessage : '\x1b' ∉ e.fault.message.toList)
    (hpath : ∀ slot ∈ e.path, '\x1b' ∉ slot.toList) : (ofFailure node e).Unescaped := by
  have htext : '\x1b' ∉ Text.trimEnd (Sketch.ofNode {} node).text.toList :=
    fun hmem => hsketch ((List.rdropWhile_prefix _ _).subset hmem)
  have hcode : '\x1b' ∉ e.fault.code.toList := by
    cases e.fault <;> simp [Fault.code]
  have hhelp : Unescaped (e.fault.help?.elim [] (remark "Help")) := by
    cases h : e.fault.help? with
    | none => exact unescaped_nil
    | some help => exact unescaped_remark (by simp) (escape_not_mem_help h)
  have hnote : Unescaped (remark "Note" ("block at slot path " ++ e.path.display)) := by
    refine unescaped_remark (by simp) ?_
    simp [escape_not_mem_display hpath]
  have hnumber (n : Nat) : '\x1b' ∉ Nat.toDigits 10 n := fun hmem =>
    absurd (Nat.isDigit_of_mem_toDigits (by decide) (by decide) hmem) (by decide)
  rw [ofFailure, ofSketch, marking]
  simp [Piece.bare, Piece.painted, hhelp, hnote, hcode, hmessage, unescaped_source _ htext,
    unescaped_marginLine, unescaped_row, unescaped_underline, unescaped_arrow, hnumber]

/-- Without the escape sequences, a report with colours is the report without colours, and the report
that is written is the one with colours. -/
theorem ofFailure_uncoloured {node : α} {e : Failure}
    (hsketch : '\x1b' ∉ (Sketch.ofNode {} node).text.toList)
    (hmessage : '\x1b' ∉ e.fault.message.toList) (hpath : ∀ slot ∈ e.path, '\x1b' ∉ slot.toList) :
    String.ofList (Text.withoutEscapes (ofFailure node e).coloured.toList) = (ofFailure node e).plain ∧
    ∀ out, (ofFailure node e).writeTo out = out ++ (ofFailure node e).coloured.toUTF8 := by
  refine ⟨?_, writeTo_eq _⟩
  rw [withoutEscapes_coloured (unescaped_ofFailure hsketch hmessage hpath), String.ofList_toList]

/-- A quotient of a literal that is not a decimal. -/
def halved : Block := .binary .divide (some (.number "½")) none

def halvedFailure : Failure := ⟨.unsupportedLiteral "½", ["A"]⟩

theorem ofFailure_uncoloured_halved :
    ('\x1b' ∉ (Sketch.ofNode {} halved).text.toList ∧ '\x1b' ∉ halvedFailure.fault.message.toList ∧
      ∀ slot ∈ halvedFailure.path, '\x1b' ∉ slot.toList) ∧
    (ofFailure halved halvedFailure).coloured ≠ (ofFailure halved halvedFailure).plain ∧
    String.ofList (Text.withoutEscapes (ofFailure halved halvedFailure).coloured.toList) =
      (ofFailure halved halvedFailure).plain ∧
    (ofFailure halved halvedFailure).writeTo "½\n".toUTF8 =
      "½\n".toUTF8 ++ (ofFailure halved halvedFailure).coloured.toUTF8 := by
  have hsketch : '\x1b' ∉ (Sketch.ofNode {} halved).text.toList := by decide +kernel
  have hmessage : '\x1b' ∉ halvedFailure.fault.message.toList := by decide +kernel
  have hpath : ∀ slot ∈ halvedFailure.path, '\x1b' ∉ slot.toList := by decide +kernel
  obtain ⟨hplain, hwritten⟩ := ofFailure_uncoloured hsketch hmessage hpath
  exact ⟨⟨hsketch, hmessage, hpath⟩, by decide +kernel, hplain, hwritten _⟩

end Report

end BlockCode
