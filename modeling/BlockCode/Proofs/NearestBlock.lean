import Mathlib
import BlockCode.Proofs.Spans

/- The nearest block that a sketch shows. A path that is looked up may be any list of names; the search
   goes up from its end until it comes to a path with a span. `NearestShown` says where it should
   end: at the longest beginning of the path that is shown. `nearestSpan_deepest` says that it does.
   What is shown is closed under going up and has the root in it, so there always is such a
   beginning, and one only; and on the way down a path the spans that are found lie in each other.

   That the search finds the nearest block holds of every sketch (`findSome?_ancestors`). That there
   is one, and that spans shrink, comes from how the sketch of a tree is drawn. -/
namespace BlockCode
universe u

namespace Sketch

/-! ## The search -/

theorem ancestors_concat (path : Path) (slot : String) :
    ancestors (path ++ [slot]) = (path ++ [slot]) :: ancestors path := by
  induction path with
  | nil => rfl
  | cons s path ih => simp [ancestors, ih]

/-- Of all blocks on the way down a path, the last one that is shown is at the other path. -/
structure NearestShown (x : Sketch) (path nearest : Path) : Prop where
  above : nearest <+: path
  shown : ∃ span, x.spanOf nearest = some span
  longest : ∀ q, q <+: path → (∃ span, x.spanOf q = some span) → q.length ≤ nearest.length

variable {x : Sketch} {path nearest : Path}

theorem NearestShown.unique {nearest' : Path} (h : NearestShown x path nearest)
    (h' : NearestShown x path nearest') : nearest = nearest' := by
  have hle := h'.longest nearest h.above h.shown
  have hge := h.longest nearest' h'.above h'.shown
  exact (List.prefix_of_prefix_length_le h.above h'.above hle).eq_of_length (by omega)

/-- If a path is not shown, the nearest block to it is the nearest one to the path above it. -/
theorem NearestShown.of_concat {slot : String} (h : NearestShown x (path ++ [slot]) nearest)
    (hnone : x.spanOf (path ++ [slot]) = none) : NearestShown x path nearest where
  above := by
    obtain heq | habove := List.prefix_concat_iff.mp h.above
    · obtain ⟨span, hspan⟩ := h.shown
      rw [heq, hnone] at hspan
      cases hspan
    · exact habove
  shown := h.shown
  longest q hq := h.longest q (hq.trans (List.prefix_append path [slot]))

theorem findSome?_ancestors (h : NearestShown x path nearest) :
    (ancestors path).findSome? x.spanOf = x.spanOf nearest := by
  induction path using List.reverseRecOn with
  | nil =>
    obtain rfl := List.prefix_nil.mp h.above
    simp [ancestors]
  | append_singleton path slot ih =>
    rw [ancestors_concat, List.findSome?_cons]
    cases hspan : x.spanOf (path ++ [slot]) with
    | none => exact ih (h.of_concat hspan)
    | some span =>
      have hle := h.longest _ (List.prefix_refl _) ⟨span, hspan⟩
      rw [h.above.eq_of_length_le hle, hspan]

theorem spanOf_nearestShown (h : NearestShown x path nearest) :
    x.spanOf nearest = some (x.nearestSpan path) := by
  obtain ⟨span, hspan⟩ := h.shown
  rw [nearestSpan, findSome?_ancestors h, hspan]
  rfl

theorem exists_nearestShown (hroot : ∃ span, x.spanOf [] = some span) (path : Path) :
    ∃ nearest, NearestShown x path nearest := by
  induction path using List.reverseRecOn with
  | nil =>
    refine ⟨[], List.prefix_refl _, hroot, ?_⟩
    intro q hq _
    exact hq.length_le
  | append_singleton path slot ih =>
    cases hspan : x.spanOf (path ++ [slot]) with
    | some span => exact ⟨_, List.prefix_refl _, ⟨span, hspan⟩, fun q hq _ => hq.length_le⟩
    | none =>
      obtain ⟨nearest, h⟩ := ih
      refine ⟨nearest, h.above.trans (List.prefix_append path [slot]), h.shown, ?_⟩
      rintro q hq ⟨span, hq'⟩
      obtain rfl | hq := List.prefix_concat_iff.mp hq
      · rw [hspan] at hq'
        cases hq'
      · exact h.longest q hq ⟨span, hq'⟩

/-- Where nothing is shown on the way from a block down, that block is the nearest one. -/
theorem nearestSpan_append {p q : Path} {span : Span} (hp : x.spanOf p = some span)
    (hq : ∀ r, r <+: q → r ≠ [] → x.spanOf (p ++ r) = none) : x.nearestSpan (p ++ q) = span := by
  have h : NearestShown x (p ++ q) p := by
    refine ⟨List.prefix_append p q, ⟨span, hp⟩, ?_⟩
    rintro r hr ⟨span', hr'⟩
    by_contra hlong
    obtain ⟨r, rfl⟩ := List.prefix_of_prefix_length_le (List.prefix_append p q) hr (by omega)
    have hnone := hq r ((List.prefix_append_right_inj p).mp hr) (by rintro rfl; simp at hlong)
    rw [hnone] at hr'
    cases hr'
  exact Option.some.inj ((spanOf_nearestShown h).symm.trans hp)

/-! ## Sketches of trees -/

variable {α : Type u} [Node α]

theorem spanOf_above {o : Options} {node : α} {p q : Path} {span : Span}
    (h : (ofNode o node).spanOf p = some span) (hq : q <+: p) :
    ∃ span, (ofNode o node).spanOf q = some span := by
  obtain ⟨r, rfl⟩ := hq
  obtain ⟨_, hshows⟩ : ∃ block, Shows o 0 node (q ++ r) block := shows_of_spanOf h
  obtain ⟨_, hq, _⟩ := hshows.split
  obtain ⟨_, _, hholds⟩ := holds_of_shows hq
  exact ⟨_, hholds.span⟩

theorem spanOf_root (o : Options) (node : α) : ∃ span, (ofNode o node).spanOf [] = some span :=
  ⟨_, atDepth_spanOf_root o 0 node⟩

theorem nearestSpan_shrinks (o : Options) (node : α) {p q : Path} (h : p <+: q) :
    ((ofNode o node).nearestSpan p).start ≤ ((ofNode o node).nearestSpan q).start ∧
      ((ofNode o node).nearestSpan q).stop ≤ ((ofNode o node).nearestSpan p).stop := by
  obtain ⟨p', hp⟩ := exists_nearestShown (spanOf_root o node) p
  obtain ⟨q', hq⟩ := exists_nearestShown (spanOf_root o node) q
  -- what is shown on the way down `p` is shown on the way down `q`, so `q'` is at or below `p'`
  have hle := hq.longest p' (hp.above.trans h) hp.shown
  obtain ⟨r, rfl⟩ := List.prefix_of_prefix_length_le (hp.above.trans h) hq.above hle
  have hspan := spanOf_nearestShown hp
  have hspan' := spanOf_nearestShown hq
  have hroot : ofNode o node = atDepth o 0 node := rfl
  rw [hroot] at hspan hspan' ⊢
  by_cases hr : r = []
  · rw [hr, List.append_nil, hspan] at hspan'
    rw [Option.some.inj hspan']
    exact ⟨Nat.le_refl _, Nat.le_refl _⟩
  · obtain ⟨hstart, hstop⟩ := spanOf_nested hspan hspan' hr
    exact ⟨hstart.le, hstop.le⟩

/-- The search for the nearest block that is shown always finds one: the last one on the way down
the path. The further a path leads down, the smaller is the span that is found. -/
theorem nearestSpan_deepest (o : Options) (node : α) :
    (∀ p q, (∃ span, (ofNode o node).spanOf p = some span) → q <+: p →
      ∃ span, (ofNode o node).spanOf q = some span) ∧
    (∃ span, (ofNode o node).spanOf [] = some span) ∧
    (∀ p, (ancestors p).findSome? (ofNode o node).spanOf = some ((ofNode o node).nearestSpan p)) ∧
    (∀ p, ∃! q, NearestShown (ofNode o node) p q) ∧
    (∀ p q, NearestShown (ofNode o node) p q →
      (ofNode o node).spanOf q = some ((ofNode o node).nearestSpan p)) ∧
    ∀ p q, p <+: q →
      ((ofNode o node).nearestSpan p).start ≤ ((ofNode o node).nearestSpan q).start ∧
      ((ofNode o node).nearestSpan q).stop ≤ ((ofNode o node).nearestSpan p).stop := by
  have hnearest := exists_nearestShown (spanOf_root o node)
  refine ⟨?_, spanOf_root o node, ?_, ?_, fun p q => spanOf_nearestShown,
    fun p q => nearestSpan_shrinks o node⟩
  · rintro p q ⟨span, hspan⟩ hq
    exact spanOf_above hspan hq
  · intro p
    obtain ⟨q, hq⟩ := hnearest p
    rw [findSome?_ancestors hq, spanOf_nearestShown hq]
  · intro p
    obtain ⟨q, hq⟩ := hnearest p
    exact ⟨q, hq, fun q' hq' => hq'.unique hq⟩

/-- Below the mark of what is cut off the sum nothing has a span, and the mark is the nearest block;
it stands inside the power above it. -/
theorem nearestSpan_deepest_circularSum :
    circularSumSketch.spanOf ["NUM0", "A", "NUM1"] = none ∧
    NearestShown circularSumSketch ["NUM0", "A", "NUM1"] ["NUM0", "A"] ∧
    circularSumSketch.spanOf ["NUM0", "A"] =
      some (circularSumSketch.nearestSpan ["NUM0", "A", "NUM1"]) ∧
    (circularSumSketch.nearestSpan ["NUM0"]).start ≤
      (circularSumSketch.nearestSpan ["NUM0", "A", "NUM1"]).start ∧
    (circularSumSketch.nearestSpan ["NUM0", "A", "NUM1"]).stop ≤
      (circularSumSketch.nearestSpan ["NUM0"]).stop := by
  have hnone : circularSumSketch.spanOf ["NUM0", "A", "NUM1"] = none := by decide +kernel
  have hmark : circularSumSketch.spanOf ["NUM0", "A"] = some ⟨29, 32⟩ := by decide +kernel
  have hnearest : NearestShown circularSumSketch ["NUM0", "A", "NUM1"] ["NUM0", "A"] := by
    refine ⟨by decide, ⟨_, hmark⟩, ?_⟩
    rintro q hq ⟨span, hspan⟩
    obtain rfl | hq := (List.prefix_concat_iff : q <+: ["NUM0", "A"] ++ ["NUM1"] ↔ _).mp hq
    · rw [List.cons_append, List.cons_append, List.nil_append, hnone] at hspan
      cases hspan
    · exact hq.length_le
  obtain ⟨_, _, _, _, hspan, hshrinks⟩ := nearestSpan_deepest { maxDepth := 2, maxListItems := some 2 }
    (⟨0, by decide⟩ : circularSum.Ref)
  exact ⟨hnone, hnearest, hspan _ _ hnearest, hshrinks _ _ (by decide)⟩

end Sketch

end BlockCode
