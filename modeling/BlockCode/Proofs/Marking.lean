import Mathlib
import BlockCode.Report
import BlockCode.Proofs.Alike
import BlockCode.Proofs.Limits
import BlockCode.Proofs.NearestBlock
import BlockCode.Proofs.Visit

/- Which block a report marks. A report is always drawn with the limits that hold by
   default, whatever the limits of the compilation were, so the path of a failure is
   looked up in a sketch that may be cut where the compilation went on, and that may go
   on where the compilation was cut. Three facts decide what is found there:

   * a sketch without a list limit shows every slot that any sketch shows, so of a path
     only what is too deep is missing (`Shows.unlimited`);
   * no block is shown below the depth limit (`Shows.length_le`);
   * where nothing further down a path is shown, the nearest block is the last one that
     is (`Sketch.nearestSpan_append`).

   `Report.ofFailure_marks` puts them together: the block at the first 128 slots of the
   path is marked, and that is the block with the fault if the path is shorter. -/
namespace BlockCode
universe u
variable {α : Type u} [Node α] {o o' : Options} {depth : Nat} {node block : α} {path : Path}

/-! ## Two sketches of one tree -/

theorem mem_shownSlots_unlimited (hno : o'.maxListItems = none) {slot : String}
    (h : slot ∈ shownSlots o node) : slot ∈ shownSlots o' node := by
  unfold shownSlots at h ⊢
  cases hk : Node.kind node with
  | number | compare => rw [hk] at h; cases h
  | binary op => simpa only [hk] using h
  | list op =>
    cases hc : Node.itemCount node with
    | none => rw [hk, hc] at h; cases h
    | some count =>
      simp only [hk, hc, Option.elim_some, itemSlots, List.mem_map, List.mem_range] at h ⊢
      obtain ⟨i, hi, hslot⟩ := h
      refine ⟨i, ?_, hslot⟩
      rw [Options.shown, hno]
      exact Nat.lt_of_lt_of_le hi (o.shown_le count)

theorem Shows.unlimited (hno : o'.maxListItems = none) (h : Shows o depth node path block)
    (hd : depth + path.length ≤ o'.maxDepth) : Shows o' depth node path block := by
  induction h with
  | root => exact .root
  | @slot depth node child block slot path _ hslot hchild _ ih =>
    rw [depth_cons] at hd
    exact .slot (by omega) (mem_shownSlots_unlimited hno hslot) hchild (ih hd)

theorem Shows.length_le (h : Shows o depth node path block) (hd : depth ≤ o.maxDepth) :
    depth + path.length ≤ o.maxDepth := by
  induction h with
  | root => exact hd
  | @slot depth node child block slot path hlt _ _ _ ih =>
    rw [depth_cons]
    exact ih hlt

theorem Reading.atDepth_unlimited (hno : o'.maxListItems = none) (hd : depth < o'.maxDepth)
    {fault : Fault} (h : atDepth o depth node = .fault fault) (hlimit : ¬ fault.IsLimit) :
    atDepth o' depth node = .fault fault := by
  rw [atDepth_of_lt hd]
  by_cases hdeep : o.maxDepth ≤ depth
  · rw [atDepth, if_pos hdeep] at h
    cases h
    exact absurd trivial hlimit
  · rw [atDepth_of_lt (Nat.not_le.mp hdeep)] at h
    have hwithin : Options.Within { o with maxDepth := 0 } o' := ⟨Nat.zero_le _, by simp [hno]⟩
    obtain hsame | ⟨fault', hfault', hlimit'⟩ := Compile.reading_of_within hwithin node
    · exact hsame.trans h
    · obtain rfl : fault = fault' := Reading.fault.inj (h.symm.trans hfault')
      exact absurd hlimit' hlimit

/-! ## The nearest block -/

namespace Sketch

/-- No block is shown further down a path than the depth limit, so a block that is shown there
is the nearest one to all that is below it. -/
theorem nearestSpan_of_spanOf_take {span : Span}
    (h : (ofNode o node).spanOf (path.take o.maxDepth) = some span) :
    (ofNode o node).nearestSpan path = span := by
  have hbelow (r : Path) (hr : r <+: path.drop o.maxDepth) (hne : r ≠ []) :
      (ofNode o node).spanOf (path.take o.maxDepth ++ r) = none := by
    by_contra hshown
    obtain ⟨span', hspan'⟩ := Option.ne_none_iff_exists'.mp hshown
    obtain ⟨block, hshows⟩ : ∃ block, Shows o 0 node _ block := shows_of_spanOf hspan'
    have hle := hshows.length_le (Nat.zero_le _)
    have hpos := List.length_pos_iff.mpr hne
    have hrest := hr.length_le
    rw [List.length_append, List.length_take] at hle
    rw [List.length_drop] at hrest
    omega
  have hnearest := nearestSpan_append h hbelow
  rwa [List.take_append_drop] at hnearest

end Sketch

/-! ## The marked block -/

/-- A report marks the block at the first 128 slots of the path of a failure, whatever the
limits of the compilation were. If the path is shorter, this is the block with the fault, and
it is shown as a block with that fault is; if it is not, the mark of what is not shown stands
there. -/
theorem Report.ofFailure_marks {o : Options} {node : α} {e : Failure}
    (h : (compile o node).result = .error e) :
    ∃ span, (Sketch.ofNode {} node).spanOf (e.path.take 128) = some span ∧
      (Sketch.ofNode {} node).nearestSpan e.path = span ∧
      Report.ofFailure node e = Report.marking (Sketch.ofNode {} node) span e ∧
      (e.path.length < 128 → ∃ block, Visits o o.maxDepth node e.path block ∧
        Reading.atDepth o e.path.length block = .fault e.fault ∧
        (Sketch.ofNode {} node).textAt span = (Sketch.atDepth {} e.path.length block).text ∧
        (¬ e.fault.IsLimit → e.fault.ShownAs (Node.kind block) ((Sketch.ofNode {} node).textAt span))) ∧
      (128 ≤ e.path.length → (Sketch.ofNode {} node).textAt span = "…" ∧
        ∃ block, Shows {} 0 node (e.path.take 128) block) := by
  have hd : 0 + o.maxDepth = o.maxDepth := Nat.zero_add _
  rw [result_compile] at h
  obtain ⟨block, hvisits, hfault⟩ := visits_of_error hd h
  rw [Nat.zero_add] at hfault
  have hshows := (hvisits.reaches hd).shows
  rw [← List.take_append_drop 128 e.path] at hshows
  obtain ⟨top, htop, hbelow⟩ := hshows.split
  replace htop : Shows {} 0 node (e.path.take 128) top := htop.unlimited rfl (by simp)
  obtain ⟨before, after, hholds⟩ : ∃ before after, Sketch.Holds (Sketch.ofNode {} node)
      (Sketch.atDepth {} (e.path.take 128).length top) (e.path.take 128) before after := by
    rw [← Nat.zero_add (e.path.take 128).length]
    exact Sketch.holds_of_shows htop
  have hnearest := Sketch.nearestSpan_of_spanOf_take hholds.span
  refine ⟨_, hholds.span, hnearest, ?_, ?_, ?_⟩
  · rw [Report.ofFailure, Report.ofSketch, hnearest]
  · intro hlt
    -- nothing of the path is left out, so the block that is marked is the one with the fault
    rw [List.drop_of_length_le hlt.le] at hbelow
    cases hbelow
    rw [hholds.textAt, List.take_of_length_le hlt.le]
    refine ⟨block, hvisits, hfault, rfl, ?_⟩
    intro hlimit
    exact shownAs_of_fault (Reading.atDepth_unlimited rfl hlt hfault hlimit)
  · intro hle
    refine ⟨?_, top, htop⟩
    rw [hholds.textAt, Sketch.atDepth_of_le]
    · rfl
    · rw [List.length_take, Nat.min_eq_left hle]

/-- The sketch ends two levels before the compilation of the difference fails; the comparison in
a sum is shown where it stands. -/
theorem Report.ofFailure_marks_circularDifference :
    (compile { maxDepth := 130 } (⟨0, by decide⟩ : circularDifference.Ref)).result =
      .error ⟨.malformed (.depthExceeded 130), List.replicate 130 "A"⟩ ∧
    (∃ span, (Sketch.ofNode {} (⟨0, by decide⟩ : circularDifference.Ref)).spanOf
        (List.replicate 128 "A") = some span ∧
      (Sketch.ofNode {} (⟨0, by decide⟩ : circularDifference.Ref)).nearestSpan
        (List.replicate 130 "A") = span ∧
      (Sketch.ofNode {} (⟨0, by decide⟩ : circularDifference.Ref)).textAt span = "…") ∧
    (compile { maxDepth := 4 } nestedDifference).result =
      .error ⟨.unimplemented "math_compare", ["NUM1"]⟩ ∧
    ∃ span, (Sketch.ofNode {} nestedDifference).spanOf ["NUM1"] = some span ∧
      (Sketch.ofNode {} nestedDifference).textAt span = "math_compare" := by
  have hdeep : (compile { maxDepth := 130 } (⟨0, by decide⟩ : circularDifference.Ref)).result =
      .error ⟨.malformed (.depthExceeded 130), List.replicate 130 "A"⟩ := by decide +kernel
  have hcompare : (compile { maxDepth := 4 } nestedDifference).result =
      .error ⟨.unimplemented "math_compare", ["NUM1"]⟩ := by decide +kernel
  obtain ⟨span, hspan, hnearest, _, _, hcut⟩ := Report.ofFailure_marks hdeep
  rw [List.take_replicate] at hspan
  obtain ⟨span', hspan', _, _, hshown, _⟩ := Report.ofFailure_marks hcompare
  obtain ⟨_, _, _, _, htext⟩ := hshown (by decide)
  exact ⟨hdeep, ⟨span, hspan, hnearest, (hcut (by simp)).1⟩, hcompare, span', hspan', htext id⟩

end BlockCode
