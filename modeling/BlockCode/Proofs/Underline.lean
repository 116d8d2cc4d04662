import Mathlib
import BlockCode.Report
import BlockCode.Proofs.NearestBlock
import BlockCode.Proofs.Punctuation

/- What a report underlines. Places are counted in three ways: spans are in bytes, marks in
   characters, and the rows of a report in columns of the terminal. `Report.ofFailure_underlines` says
   that the three agree, for every tree and every failure:

   * a block stands in the text of its sketch as a whole, so its span begins and ends between
     characters, and the mark is on the same characters (`markOf_eq`);
   * the row below is made place by place, each as wide as the character above it
     (`Mark.underlinesColumns_row`), and the characters are printed as wide as they are counted
     (`column_eq`). The text is cut at its blank end, and from there on every place is one column wide;
   * after a block the sketch ends or a delimiter follows (`Sketch.holds_delimited`), and both take a
     column. So an empty literal, which has no column of its own, can be pointed at.

   The layout has one line for the sketch, so a sketch without line separators is meant. Nothing else
   is asked of literals: blanks, wide characters and characters without a width may stand in them. -/
namespace BlockCode
universe u
variable {α : Type u} [Node α]

namespace Report

/-! ## Bytes and characters -/

theorem charsBefore_append (before after : List Char) :
    charsBefore (before ++ after) (String.utf8Len before) = before.length := by
  induction before with
  | nil => simp [charsBefore]
  | cons c before ih =>
    have hpos := c.utf8Size_pos
    rw [List.cons_append, String.utf8Len_cons, List.length_cons, charsBefore, Nat.add_sub_cancel, ih]
    omega

theorem ofSpan_append (before inner after : List Char) :
    Mark.ofSpan (before ++ inner ++ after)
        ⟨String.utf8Len before, String.utf8Len before + String.utf8Len inner⟩ =
      ⟨before.length, before.length + inner.length⟩ := by
  have hstop := charsBefore_append (before ++ inner) after
  rw [String.utf8Len_append, List.length_append] at hstop
  have hstart := charsBefore_append before (inner ++ after)
  rw [← List.append_assoc] at hstart
  rw [Mark.ofSpan, hstart, hstop]

/-! ## Characters and columns -/

def widthAt (text : List Char) (i : Nat) : Nat := text[i]?.elim 1 fun c => width c i

/-- The column at which the `i`th place of a text begins. -/
def column (text : List Char) (i : Nat) : Nat := (widths text i).sum

theorem widths_eq (text : List Char) (count : Nat) :
    widths text count = (List.range count).map (widthAt text) := by
  refine List.ext_getElem? fun i => ?_
  by_cases hi : i < count
  · have hright : ((List.range count).map (widthAt text))[i]? = some (widthAt text i) := by simp [hi]
    rw [hright, widths, List.getElem?_take_of_lt hi, List.rightpad, List.getElem?_append, widthAt,
      List.length_map, List.length_zipIdx]
    by_cases hlt : i < text.length
    · rw [if_pos hlt, List.getElem?_map, List.getElem?_zipIdx, List.getElem?_eq_getElem hlt]
      simp
    · rw [if_neg hlt, List.getElem?_replicate_of_lt (by omega), List.getElem?_eq_none (by omega)]
      rfl
  · rw [List.getElem?_eq_none, List.getElem?_eq_none]
    · simpa using hi
    · simp only [widths, List.length_take]
      omega

theorem column_succ (text : List Char) (i : Nat) :
    column text (i + 1) = column text i + widthAt text i := by
  simp [column, widths_eq, List.range_succ]

theorem row_eq (m : Mark) (text : List Char) (symbols : Nat → Nat → Painted) :
    m.row text symbols = (List.range m.reach).flatMap fun i => symbols i (widthAt text i) := by
  have hzip (n : Nat) (f : Nat → Nat) :
      ((List.range n).map f).zipIdx = (List.range n).map fun i => (f i, i) := by
    refine List.ext_getElem? fun i => ?_
    by_cases hi : i < n <;> simp [hi]
  rw [Mark.row, widths_eq, hzip, List.flatMap_map]

end Report

/-! ## Painted characters -/

namespace Painted

@[simp] theorem plain_nil : plain [] = "" := rfl

@[simp] theorem plain_cons (p : Piece) (pieces : Painted) :
    plain (p :: pieces) = p.text ++ pieces.plain := by
  simp [plain, String.join_cons]

@[simp] theorem plain_append (xs ys : Painted) : (xs ++ ys).plain = xs.plain ++ ys.plain := by
  simp [plain, String.join_append]

end Painted

namespace Report

def chars (pieces : Painted) : List Char := pieces.plain.toList

@[simp] theorem chars_append (xs ys : Painted) : chars (xs ++ ys) = chars xs ++ chars ys := by
  simp [chars]

@[simp] theorem chars_each (paint : Option Paint) (cs : List Char) : chars (Piece.each paint cs) = cs := by
  simp [chars, Painted.plain, Piece.each, Function.comp_def, List.flatMap_map]

theorem chars_flatMap {ι : Type*} (l : List ι) (f : ι → Painted) :
    chars (l.flatMap f) = l.flatMap fun i => chars (f i) := by
  induction l with
  | nil => rfl
  | cons i l ih => rw [List.flatMap_cons, chars_append, ih, List.flatMap_cons]

/-! ## The underline -/

/-- In the row, line symbols stand in the columns from `start` up to but not including `stop`, and
nothing else. -/
def UnderlinesColumns (row : List Char) (start stop : Nat) : Prop :=
  ∃ marks after, row = List.replicate start ' ' ++ marks ++ List.replicate after ' ' ∧
    start + marks.length = stop ∧ ∀ c ∈ marks, c = '─' ∨ c = '┬'

/-- In the row, one upright stands at the column, and nothing else. -/
def PointsAt (row : List Char) (column : Nat) : Prop :=
  ∃ after, row = List.replicate column ' ' ++ '│' :: List.replicate after ' '

theorem flatMap_blanks {l : List Nat} {f : Nat → List Char} {w : Nat → Nat}
    (h : ∀ i ∈ l, f i = List.replicate (w i) ' ') : l.flatMap f = List.replicate (l.map w).sum ' ' := by
  induction l with
  | nil => rfl
  | cons i l ih =>
    obtain ⟨hi, hl⟩ := List.forall_mem_cons.mp h
    rw [List.flatMap_cons, hi, ih hl, List.replicate_append_replicate, List.map_cons, List.sum_cons]

namespace Mark
variable {m : Mark} {i : Nat}

theorem chars_underline_blank (hmiddle : i ≠ m.middle) (hcovers : m.covers i = false) (w : Nat) :
    chars (m.underline i w) = List.replicate w ' ' := by
  rw [underline, if_neg hmiddle, hcovers, if_neg (by decide), chars_each]

theorem chars_underline_covered (hcovers : m.covers i) (w : Nat) :
    (chars (m.underline i w)).length = w ∧ ∀ c ∈ chars (m.underline i w), c = '─' ∨ c = '┬' := by
  by_cases hmiddle : i = m.middle
  · rw [underline, if_pos hmiddle, if_pos hcovers, chars_each, stretch]
    refine ⟨by simp, ?_⟩
    intro c hc
    obtain hc | rfl := List.mem_or_eq_of_mem_set hc
    · exact .inl (List.eq_of_mem_replicate hc)
    · exact .inr rfl
  · rw [underline, if_neg hmiddle, if_pos hcovers, chars_each]
    refine ⟨by simp, ?_⟩
    intro c hc
    exact .inl (List.eq_of_mem_replicate hc)

theorem chars_underline_upright (hmiddle : i = m.middle) (hcovers : m.covers i = false) {w : Nat}
    (hw : 0 < w) : chars (m.underline i w) = '│' :: List.replicate (w - 1) ' ' := by
  obtain ⟨w, rfl⟩ := Nat.exists_eq_add_of_lt hw
  rw [underline, if_pos hmiddle, hcovers, if_neg (by decide), chars_each, stretch, Nat.zero_add,
    Nat.add_sub_cancel, List.replicate_succ, List.set_cons_zero]

theorem covers_eq_false (h : i < m.first ∨ m.stop ≤ i) : m.covers i = false := by
  rw [covers, Bool.and_eq_false_iff, decide_eq_false_iff_not, decide_eq_false_iff_not]
  omega

theorem range_reach (h : m.first ≤ m.stop) : List.range m.reach = List.range m.first ++
    (List.range (m.stop - m.first)).map (m.first + ·) ++ (List.range 2).map (m.stop + ·) := by
  rw [← List.range_add, Nat.add_sub_cancel' h, ← List.range_add, reach]

theorem column_middle (h : m.first ≤ m.stop) (text : List Char) : column text m.first +
    (((List.range (m.stop - m.first)).map (m.first + ·)).map (widthAt text)).sum =
      column text m.stop := by
  have hsum := congrArg (fun l => (l.map (widthAt text)).sum)
    (List.range_add (n := m.first) (m := m.stop - m.first))
  simp only [List.map_append, List.sum_append, Nat.add_sub_cancel' h] at hsum
  rw [column, column, widths_eq, widths_eq, hsum]

theorem chars_underline_before (h : m.first ≤ m.stop) (text : List Char) :
    ((List.range m.first).flatMap fun i => chars (m.underline i (widthAt text i))) =
      List.replicate (column text m.first) ' ' := by
  rw [column, widths_eq]
  refine flatMap_blanks fun i hi => ?_
  have hi := List.mem_range.mp hi
  have hmiddle : i ≠ m.middle := by
    unfold middle
    omega
  exact chars_underline_blank hmiddle (covers_eq_false (.inl hi)) _

/-- Exactly the columns of the marked places are underlined. -/
theorem underlinesColumns_row (h : m.first < m.stop) (text : List Char) :
    UnderlinesColumns (chars (m.row text m.underline)) (column text m.first) (column text m.stop) := by
  have hmiddle : m.middle < m.stop := by
    unfold middle
    omega
  have hafter : ∀ i ∈ (List.range 2).map (m.stop + ·),
      chars (m.underline i (widthAt text i)) = List.replicate (widthAt text i) ' ' := by
    intro i hi
    obtain ⟨j, _, rfl⟩ := List.mem_map.mp hi
    exact chars_underline_blank (by omega) (covers_eq_false (.inr (by omega))) _
  have hmarked : ∀ i ∈ (List.range (m.stop - m.first)).map (m.first + ·), m.covers i := by
    intro i hi
    obtain ⟨j, hj, rfl⟩ := List.mem_map.mp hi
    have hj := List.mem_range.mp hj
    rw [covers, Bool.and_eq_true, decide_eq_true_eq, decide_eq_true_eq]
    omega
  rw [row_eq, chars_flatMap, range_reach h.le, List.flatMap_append, List.flatMap_append,
    chars_underline_before h.le, flatMap_blanks hafter]
  refine ⟨_, _, rfl, ?_, ?_⟩
  · rw [List.length_flatMap, ← column_middle h.le]
    congr 2
    exact List.map_congr_left fun i hi => (chars_underline_covered (hmarked i hi) _).1
  · intro c hc
    obtain ⟨i, hi, hc⟩ := List.mem_flatMap.mp hc
    exact (chars_underline_covered (hmarked i hi) _).2 c hc

/-- An empty mark is shown by one upright, if the place after it is not without width. -/
theorem pointsAt_row (h : m.first = m.stop) {text : List Char} (hw : 0 < widthAt text m.first) :
    PointsAt (chars (m.row text m.underline)) (column text m.first) := by
  have hmiddle : m.middle = m.first := by
    unfold middle
    omega
  have hupright : chars (m.underline m.first (widthAt text m.first)) =
      '│' :: List.replicate (widthAt text m.first - 1) ' ' :=
    chars_underline_upright hmiddle.symm (covers_eq_false (.inr h.ge)) hw
  have hnext : chars (m.underline (m.first + 1) (widthAt text (m.first + 1))) =
      List.replicate (widthAt text (m.first + 1)) ' ' :=
    chars_underline_blank (by omega) (covers_eq_false (.inr (by omega))) _
  have hrange : List.range m.reach = List.range m.first ++ [m.first, m.first + 1] := by
    rw [range_reach h.le, ← h, Nat.sub_self, List.range_zero, List.map_nil, List.append_nil]
    rfl
  rw [row_eq, chars_flatMap, hrange, List.flatMap_append, chars_underline_before h.le]
  refine ⟨widthAt text m.first - 1 + widthAt text (m.first + 1), ?_⟩
  rw [List.flatMap_cons, List.flatMap_cons, List.flatMap_nil, List.append_nil, hupright, hnext,
    List.cons_append, List.replicate_append_replicate]

end Mark

/-! ## The text itself -/

/-- What is printed for the characters of a text, of which the first is the one at `first`. -/
def glyphs (text : List Char) (first : Nat) : List Char :=
  (text.zipIdx first).flatMap fun (c, i) => printed c i

/-- How many columns of a terminal a row takes. -/
def columns (row : List Char) : Nat := (row.map Text.charWidth).sum

theorem columns_append (xs ys : List Char) : columns (xs ++ ys) = columns xs + columns ys := by
  simp [columns]

theorem glyphs_append (xs ys : List Char) (first : Nat) :
    glyphs (xs ++ ys) first = glyphs xs first ++ glyphs ys (first + xs.length) := by
  simp [glyphs, List.zipIdx_append]

theorem chars_source (m : Mark) (text : List Char) : chars (m.source text) = glyphs text 0 := by
  rw [Mark.source, chars_flatMap, glyphs]
  simp only [chars_each]

theorem columns_printed (c : Char) (i : Nat) : columns (printed c i) = width c i := by
  unfold printed
  split
  · have hspace : Text.charWidth ' ' = 1 := by decide
    rw [columns, List.map_replicate, hspace, List.sum_replicate, smul_eq_mul, Nat.mul_one]
  · next hblank =>
    have htab : c ≠ '\t' := by
      rintro rfl
      exact hblank (by decide)
    rw [width, if_neg htab, if_neg hblank]
    simp [columns]

/-- The columns of the places of a text are those in which its characters are printed; past the
end of the text every place takes one column. -/
theorem column_eq (text : List Char) (i : Nat) :
    column text i = columns (glyphs (text.take i) 0) + (i - text.length) := by
  induction i with
  | zero => simp [column, widths, columns, glyphs]
  | succ i ih =>
    rw [column_succ, ih, widthAt]
    by_cases hi : i < text.length
    · have hglyph : glyphs [text[i]] (0 + (text.take i).length) = printed text[i] i := by
        simp [glyphs, hi.le]
      rw [List.take_succ_eq_append_getElem hi, glyphs_append, columns_append, hglyph, columns_printed,
        List.getElem?_eq_getElem hi, Option.elim_some]
      omega
    · rw [List.take_of_length_le (by omega), List.take_of_length_le (by omega),
        List.getElem?_eq_none (by omega), Option.elim_none]
      omega

theorem glyphs_take_drop (text : List Char) (first n : Nat) :
    glyphs text first = glyphs (text.take n) first ++ glyphs (text.drop n) (first + n) := by
  by_cases hn : n ≤ text.length
  · have happend := glyphs_append (text.take n) (text.drop n) first
    rwa [List.take_append_drop, List.length_take_of_le hn] at happend
  · rw [List.take_of_length_le (by omega), List.drop_of_length_le (by omega)]
    simp [glyphs]

theorem glyphs_split (text : List Char) {first stop : Nat} (h : first ≤ stop) :
    glyphs text 0 = glyphs (text.take first) 0 ++ glyphs ((text.take stop).drop first) first ++
      glyphs (text.drop stop) stop := by
  have hstop := glyphs_take_drop text 0 stop
  have hfirst := glyphs_take_drop (text.take stop) 0 first
  rw [List.take_take, Nat.min_eq_left h, Nat.zero_add] at hfirst
  rw [hstop, hfirst, Nat.zero_add]

end Report

/-! ## What follows a block in a sketch -/

namespace Sketch
variable {o : Options} {depth : Nat} {node : α}

theorem delimited_append {xs ys : List Char} (hxs : Outline.Delimited xs) (hys : Outline.Delimited ys) :
    Outline.Delimited (xs ++ ys) := by
  cases xs with
  | nil => exact hys
  | cons c xs => exact hxs

/-- After a block a sketch ends or goes on with a delimiter. -/
theorem holds_delimited {path : Path} {block : α} (h : Shows o depth node path block) :
    ∃ before after, Holds (atDepth o depth node) (atDepth o (depth + path.length) block) path
      before after ∧ Outline.Delimited after.toList := by
  induction h with
  | root => exact ⟨"", "", .refl _, by simp [Outline.Delimited]⟩
  | @slot depth node child block slot path hd hslot hchild _ ih =>
    obtain ⟨_, rest, hsplit⟩ := List.append_of_mem hslot
    obtain ⟨hidden, hholds⟩ := atDepth_holds_split hd hsplit hchild
    have htrail := Outline.delimited_trailChars (rest.map (slotAt o depth node)) hidden []
    rw [List.append_nil] at htrail
    obtain ⟨before, after, ih, hafter⟩ := ih
    rw [← depth_cons depth slot path] at ih
    refine ⟨_, _, hholds.trans ih, ?_⟩
    rw [String.toList_append]
    exact delimited_append hafter htrail

/-- The nearest block to a path stands in the sketch, and its span is the one that is found. -/
theorem holds_nearest (o : Options) (node : α) (path : Path) :
    ∃ (inner : Sketch) (nearest : Path) (before after : String),
      Holds (ofNode o node) inner nearest before after ∧ Outline.Delimited after.toList ∧
      (ofNode o node).nearestSpan path =
        ⟨before.utf8ByteSize, before.utf8ByteSize + inner.size⟩ := by
  obtain ⟨nearest, hnearest⟩ := exists_nearestShown (spanOf_root o node) path
  have hspan := spanOf_nearestShown hnearest
  obtain ⟨block, hshows⟩ : ∃ block, Shows o 0 node nearest block := shows_of_spanOf hspan
  obtain ⟨before, after, hholds, hafter⟩ := holds_delimited hshows
  refine ⟨_, nearest, before, after, hholds, hafter, ?_⟩
  exact Option.some.inj (hspan.symm.trans hholds.span)

end Sketch

namespace Report

theorem width_delimiter {c : Char} (h : Outline.isDelimiter c) (i : Nat) : width c i = 1 := by
  simp only [Outline.isDelimiter, Bool.or_eq_true, decide_eq_true_eq] at h
  obtain (rfl | rfl) | rfl := h
  all_goals rw [width, if_neg (by decide), if_neg (by decide)]; decide

def markOf (node : α) (e : Failure) : Mark :=
  .ofSpan (Sketch.ofNode {} node).text.toList ((Sketch.ofNode {} node).nearestSpan e.path)

def shownText (node : α) : List Char := Text.trimEnd (Sketch.ofNode {} node).text.toList

/-- The report up to the underline and what follows it. -/
theorem plain_ofFailure (node : α) (e : Failure) : ∃ rest, (ofFailure node e).plain =
    "[" ++ e.fault.code ++ "] Error: " ++ e.fault.message ++ "\n" ++
    "   ╭─[ <blocks>:1:" ++ toString ((markOf node e).first + 1) ++ " ]\n" ++
    "   │\n" ++
    " 1 │ " ++ String.ofList (glyphs (shownText node) 0) ++ "\n" ++
    "   │ " ++ String.ofList (chars ((markOf node e).row (shownText node) (markOf node e).underline)) ++
    "\n" ++ rest := by
  rw [← chars_source (markOf node e), chars, chars, String.ofList_toList, String.ofList_toList]
  refine ⟨Painted.plain (marginLine ((markOf node e).row (shownText node) (markOf node e).arrow ++
    [.bare (" " ++ e.fault.message)]) ++ e.fault.help?.elim [] (remark "Help") ++
    remark "Note" ("block at slot path " ++ e.path.display) ++
    [.painted .frame "───╯", .bare "\n"]), ?_⟩
  rw [ofFailure, ofSketch, marking, ← markOf, ← shownText]
  simp only [List.append_assoc, List.cons_append, List.nil_append, Painted.plain_append,
    Painted.plain_cons, marginLine, Piece.bare, Piece.painted, Painted.plain_nil]
  rw [← String.toList_inj]
  simp

section
variable {node : α} {e : Failure} {inner : Sketch} {nearest : Path} {before after : String}

theorem markOf_eq (h : Sketch.Holds (Sketch.ofNode {} node) inner nearest before after)
    (hspan : (Sketch.ofNode {} node).nearestSpan e.path =
      ⟨before.utf8ByteSize, before.utf8ByteSize + inner.size⟩) :
    markOf node e = ⟨before.length, before.length + inner.text.length⟩ := by
  have hofSpan := ofSpan_append before.toList inner.text.toList after.toList
  simp only [String.utf8Len_toList, String.length_toList] at hofSpan
  rw [markOf, hspan, h.text, String.toList_append, String.toList_append]
  exact hofSpan

theorem take_markOf (h : Sketch.Holds (Sketch.ofNode {} node) inner nearest before after)
    (hmark : markOf node e = ⟨before.length, before.length + inner.text.length⟩) :
    (Sketch.ofNode {} node).text.toList.take (markOf node e).first = before.toList ∧
    (Sketch.ofNode {} node).text.toList.take (markOf node e).stop =
      before.toList ++ inner.text.toList := by
  rw [hmark, h.text, String.toList_append, String.toList_append]
  constructor
  · rw [List.append_assoc, ← String.length_toList, List.take_left]
  · rw [← String.length_toList, ← String.length_toList, ← List.length_append, List.take_left]

end

/-- The place after an empty mark has a width: there is nothing, or a delimiter. -/
theorem widthAt_pos_of_empty {text before after : List Char} (htext : text <+: before ++ after)
    (hafter : Outline.Delimited after) : 0 < widthAt text before.length := by
  unfold widthAt
  cases hc : text[before.length]? with
  | none => exact Nat.one_pos
  | some c =>
    obtain ⟨rest, hrest⟩ := htext
    have hhead : after.head? = some c := by
      have hnext : (before ++ after)[before.length]? = after[0]? := by
        rw [List.getElem?_append_right (Nat.le_refl _), Nat.sub_self]
      rw [← hrest, List.getElem?_append_left (List.getElem?_eq_some_iff.mp hc).1, hc] at hnext
      rw [List.head?_eq_getElem?, ← hnext]
    rw [Option.elim_some, width_delimiter (hafter c hhead)]
    exact Nat.one_pos

theorem pointsAt_of_empty {node : α} {e : Failure} (h : (markOf node e).first = (markOf node e).stop) :
    PointsAt (chars ((markOf node e).row (shownText node) (markOf node e).underline))
      (column (shownText node) (markOf node e).first) := by
  obtain ⟨inner, nearest, before, after, hholds, hafter, hspan⟩ := Sketch.holds_nearest {} node e.path
  have hmark := markOf_eq hholds hspan
  have hempty : inner.text.toList = [] := by
    have hlength : before.length = before.length + inner.text.length := by
      rw [hmark] at h
      exact h
    rw [← List.length_eq_zero_iff, String.length_toList]
    omega
  have hchars : (Sketch.ofNode {} node).text.toList = before.toList ++ after.toList := by
    rw [hholds.text, String.toList_append, String.toList_append, hempty, List.append_nil]
  have hshown : shownText node <+: before.toList ++ after.toList := by
    rw [← hchars]
    exact List.rdropWhile_prefix _ _
  refine Mark.pointsAt_row h ?_
  rw [hmark, ← String.length_toList]
  exact widthAt_pos_of_empty hshown hafter

theorem UnderlinesColumns.charWidth {row : List Char} {start stop : Nat}
    (h : UnderlinesColumns row start stop) : ∀ c ∈ row, Text.charWidth c = 1 := by
  obtain ⟨marks, after, rfl, _, hmarks⟩ := h
  intro c hc
  simp only [List.mem_append, List.mem_replicate] at hc
  obtain (⟨_, rfl⟩ | hc) | ⟨_, rfl⟩ := hc
  · decide
  · obtain rfl | rfl := hmarks c hc <;> decide +kernel
  · decide

theorem PointsAt.charWidth {row : List Char} {column : Nat} (h : PointsAt row column) :
    ∀ c ∈ row, Text.charWidth c = 1 := by
  obtain ⟨after, rfl⟩ := h
  intro c hc
  simp only [List.mem_append, List.mem_cons, List.mem_replicate] at hc
  obtain ⟨_, rfl⟩ | rfl | ⟨_, rfl⟩ := hc <;> decide +kernel

/-- A report marks exactly the block that was found, in bytes, in characters and in columns.

The span is one of whole characters, and the marked characters spell it. The line under the text
reaches from the column of the first marked character to the column after the last one, and
these are the columns in which the characters are printed; where there is nothing to mark, one
upright shows the place. -/
theorem ofFailure_underlines (node : α) (e : Failure) :
    (String.Pos.Raw.IsValid (Sketch.ofNode {} node).text
        ⟨((Sketch.ofNode {} node).nearestSpan e.path).start⟩ ∧
      String.Pos.Raw.IsValid (Sketch.ofNode {} node).text
        ⟨((Sketch.ofNode {} node).nearestSpan e.path).stop⟩) ∧
    (String.utf8Len ((Sketch.ofNode {} node).text.toList.take (markOf node e).first) =
        ((Sketch.ofNode {} node).nearestSpan e.path).start ∧
      String.utf8Len ((Sketch.ofNode {} node).text.toList.take (markOf node e).stop) =
        ((Sketch.ofNode {} node).nearestSpan e.path).stop ∧
      ((Sketch.ofNode {} node).text.toList.take (markOf node e).stop).drop (markOf node e).first =
        ((Sketch.ofNode {} node).textAt ((Sketch.ofNode {} node).nearestSpan e.path)).toList) ∧
    (∃ under rest, (ofFailure node e).plain =
        "[" ++ e.fault.code ++ "] Error: " ++ e.fault.message ++ "\n" ++
        "   ╭─[ <blocks>:1:" ++ toString ((markOf node e).first + 1) ++ " ]\n" ++
        "   │\n" ++
        " 1 │ " ++ String.ofList (glyphs (shownText node) 0) ++ "\n" ++
        "   │ " ++ String.ofList under ++ "\n" ++ rest ∧
      (∀ c ∈ under, Text.charWidth c = 1) ∧
      ((markOf node e).first < (markOf node e).stop → UnderlinesColumns under
        (column (shownText node) (markOf node e).first) (column (shownText node) (markOf node e).stop)) ∧
      ((markOf node e).first = (markOf node e).stop →
        PointsAt under (column (shownText node) (markOf node e).first))) ∧
    glyphs (shownText node) 0 = glyphs ((shownText node).take (markOf node e).first) 0 ++
      glyphs (((shownText node).take (markOf node e).stop).drop (markOf node e).first)
        (markOf node e).first ++
      glyphs ((shownText node).drop (markOf node e).stop) (markOf node e).stop ∧
    ∀ i, column (shownText node) i =
      columns (glyphs ((shownText node).take i) 0) + (i - (shownText node).length) := by
  obtain ⟨inner, nearest, before, after, hholds, hafter, hspan⟩ := Sketch.holds_nearest {} node e.path
  have hmark := markOf_eq hholds hspan
  obtain ⟨hfirst, hstop⟩ := take_markOf hholds hmark
  have hle : (markOf node e).first ≤ (markOf node e).stop := by
    rw [hmark]
    exact Nat.le_add_right _ _
  obtain ⟨rest, hplain⟩ := plain_ofFailure node e
  refine ⟨?_, ⟨?_, ?_, ?_⟩, ⟨_, rest, hplain, ?_, fun h => Mark.underlinesColumns_row h _,
    pointsAt_of_empty⟩, glyphs_split _ hle, column_eq _⟩
  · rw [hspan]
    exact hholds.isValid
  · rw [hfirst, hspan, String.utf8Len_toList]
  · rw [hstop, hspan, String.utf8Len_append, String.utf8Len_toList, String.utf8Len_toList]
    rfl
  · rw [hstop, hspan, hmark, ← String.length_toList, List.drop_left, hholds.textAt]
  · obtain hlt | heq := hle.lt_or_eq
    · exact (Mark.underlinesColumns_row hlt _).charWidth
    · exact (pointsAt_of_empty heq).charWidth

end Report

end BlockCode
