import Mathlib
import BlockCode.Sketch

/- Sketches in sketches. `Sketch.Holds` says that one sketch stands in another under a
   path: the text of the one is a part of the text of the other, and the spans below the
   path are its spans, moved to where the part begins. It is reflexive and transitive,
   and `Outline.holds_slot` is one step of it, from a block to what is in one of its
   slots. The block has text of its own on both sides of what is in a slot, so a step
   leads strictly inside. -/
namespace BlockCode

namespace Sketch

/-! ## Sketches one after the other -/

@[simp] theorem spans_plain (text : String) : (plain text).spans = [] := rfl

@[simp] theorem size_plain (text : String) : (plain text).size = text.utf8ByteSize := rfl

@[simp] theorem size_inSlot (slot : String) (x : Sketch) : (x.inSlot slot).size = x.size := rfl

theorem text_concat_append (xs ys : List Sketch) :
    (concat (xs ++ ys)).text = (concat xs).text ++ (concat ys).text := by
  simp [concat, String.join_append]

theorem text_concat_cons (x : Sketch) (xs : List Sketch) :
    (concat (x :: xs)).text = x.text ++ (concat xs).text := by
  simp [concat, String.join_cons]

theorem size_concat_append (xs ys : List Sketch) :
    (concat (xs ++ ys)).size = (concat xs).size + (concat ys).size := by
  simp only [size, text_concat_append, String.utf8ByteSize_append]

theorem size_concat_cons (x : Sketch) (xs : List Sketch) :
    (concat (x :: xs)).size = x.size + (concat xs).size := by
  simp only [size, text_concat_cons, String.utf8ByteSize_append]

theorem spansFrom_append (start : Nat) (xs ys : List Sketch) :
    spansFrom start (xs ++ ys) = spansFrom start xs ++ spansFrom (start + (concat xs).size) ys := by
  induction xs generalizing start with
  | nil => rfl
  | cons x xs ih =>
    simp only [List.cons_append, spansFrom, ih, size_concat_cons, List.append_assoc, Nat.add_assoc]

theorem text_more (hidden : Nat) :
    (more hidden).text = if hidden = 0 then "" else ", " ++ ("…" ++ toString hidden ++ " more") := by
  unfold more
  split
  · rfl
  · rw [← String.append_assoc, ← String.append_assoc]
    rfl

/-! ## Looking up spans -/

theorem lookup_moved (f : Span → Span) (path : Path) (spans : List (Path × Span)) :
    (spans.map fun (p, s) => (p, f s)).lookup path = (spans.lookup path).map f := by
  induction spans with
  | nil => rfl
  | cons entry spans ih =>
    obtain ⟨p, s⟩ := entry
    rw [List.map_cons, List.lookup_cons, List.lookup_cons, ih]
    cases path == p <;> rfl

theorem spanOf_inSlot (slot : String) (path : Path) (x : Sketch) :
    (x.inSlot slot).spanOf (slot :: path) = x.spanOf path := by
  simp only [spanOf, inSlot]
  induction x.spans with
  | nil => rfl
  | cons entry spans ih =>
    obtain ⟨p, s⟩ := entry
    rw [List.map_cons, List.lookup_cons, List.lookup_cons, ih]
    have : (slot :: path == slot :: p) = (path == p) := by simp
    rw [this]

/-- All blocks of the sketch are in slots of which `P` holds, or below them. -/
def InSlots (P : String → Prop) (x : Sketch) : Prop :=
  ∀ entry ∈ x.spans, ∃ slot path, P slot ∧ entry.1 = slot :: path

@[simp] theorem inSlots_plain (P : String → Prop) (text : String) : (plain text).InSlots P := by
  simp [InSlots]

@[simp] theorem inSlots_more (P : String → Prop) (hidden : Nat) : (more hidden).InSlots P := by
  unfold more
  split <;> exact inSlots_plain P _

theorem inSlots_inSlot {P : String → Prop} {slot : String} (h : P slot) (x : Sketch) :
    (x.inSlot slot).InSlots P := by
  intro entry hentry
  obtain ⟨e, _, rfl⟩ := List.mem_map.mp hentry
  exact ⟨slot, e.1, h, rfl⟩

theorem lookup_spansFrom_eq_none {P : String → Prop} {parts : List Sketch}
    (h : ∀ x ∈ parts, x.InSlots P) {slot : String} (hslot : ¬ P slot) (start : Nat) (path : Path) :
    (spansFrom start parts).lookup (slot :: path) = none := by
  induction parts generalizing start with
  | nil => rfl
  | cons x parts ih =>
    obtain ⟨hx, hparts⟩ := List.forall_mem_cons.mp h
    rw [spansFrom, List.lookup_append, lookup_moved, ih hparts]
    have hnone : x.spans.lookup (slot :: path) = none := by
      refine List.lookup_eq_none_iff.mpr ?_
      intro entry hentry
      obtain ⟨t, p, ht, hp⟩ := hx entry hentry
      rw [hp]
      simp only [bne_iff_ne, ne_eq, List.cons.injEq, not_and]
      intro heq
      exact absurd (heq ▸ ht) hslot
    rw [hnone]
    rfl

/-- Of sketches in a row, the one in the slot is found where it begins. -/
theorem lookup_spansFrom_slot {P Q : String → Prop} {before after : List Sketch}
    (hbefore : ∀ x ∈ before, x.InSlots P) (hafter : ∀ x ∈ after, x.InSlots Q) {slot : String}
    (hP : ¬ P slot) (hQ : ¬ Q slot) (x : Sketch) (path : Path) :
    (spansFrom 0 (before ++ x.inSlot slot :: after)).lookup (slot :: path) =
      (x.spanOf path).map (Span.shift (concat before).size) := by
  rw [spansFrom_append, spansFrom, List.lookup_append, List.lookup_append,
    lookup_spansFrom_eq_none hbefore hP, lookup_spansFrom_eq_none hafter hQ, lookup_moved,
    Option.none_or, Option.or_none, Nat.zero_add, ← spanOf_inSlot slot path x]
  rfl

/-! ## A sketch in another -/

/-- The inner sketch stands in the outer one under a path, between two texts. -/
structure Holds (outer inner : Sketch) (path : Path) (before after : String) : Prop where
  text : outer.text = before ++ inner.text ++ after
  spanOf (below : Path) :
    outer.spanOf (path ++ below) = (inner.spanOf below).map (Span.shift before.utf8ByteSize)
  inside : path ≠ [] → 0 < before.utf8ByteSize ∧ 0 < after.utf8ByteSize

theorem Holds.refl (x : Sketch) : Holds x x [] "" "" where
  text := by simp
  spanOf below := by
    have hshift : Span.shift 0 = id := by
      funext s
      simp [Span.shift]
    simp [hshift]
  inside h := absurd rfl h

theorem Holds.trans {x y z : Sketch} {p q : Path} {before after before' after' : String}
    (h : Holds x y p before after) (h' : Holds y z q before' after') :
    Holds x z (p ++ q) (before ++ before') (after' ++ after) where
  text := by rw [h.text, h'.text]; simp only [String.append_assoc]
  spanOf below := by
    have hshift : Span.shift before.utf8ByteSize ∘ Span.shift before'.utf8ByteSize =
        Span.shift (before ++ before').utf8ByteSize := by
      funext s
      simp [Span.shift, Nat.add_assoc]
    rw [List.append_assoc, h.spanOf, h'.spanOf, Option.map_map, hshift]
  inside hpq := by
    simp only [String.utf8ByteSize_append]
    by_cases hp : p = []
    · have := h'.inside (by simpa [hp] using hpq)
      omega
    · have := h.inside hp
      omega

section
variable {outer inner : Sketch} {path : Path} {before after : String}

theorem Holds.size (h : Holds outer inner path before after) :
    outer.size = before.utf8ByteSize + inner.size + after.utf8ByteSize := by
  simp only [Sketch.size, h.text, String.utf8ByteSize_append]

def textAt (x : Sketch) (span : Span) : String :=
  String.Pos.Raw.extract x.text ⟨span.start⟩ ⟨span.stop⟩

theorem Holds.textAt (h : Holds outer inner path before after) :
    outer.textAt ⟨before.utf8ByteSize, before.utf8ByteSize + inner.size⟩ = inner.text := by
  have hextract := String.extract_of_valid before.toList inner.text.toList after.toList
  simp only [String.utf8Len_toList, String.ofList_append, String.ofList_toList] at hextract
  rw [Sketch.textAt, h.text]
  exact hextract

theorem Holds.isValid (h : Holds outer inner path before after) :
    String.Pos.Raw.IsValid outer.text ⟨before.utf8ByteSize⟩ ∧
      String.Pos.Raw.IsValid outer.text ⟨before.utf8ByteSize + inner.size⟩ := by
  constructor
  · refine String.Pos.Raw.isValid_iff_exists_append.mpr ⟨before, inner.text ++ after, ?_, rfl⟩
    rw [h.text, String.append_assoc]
  · refine String.Pos.Raw.isValid_iff_exists_append.mpr ⟨before ++ inner.text, after, h.text, ?_⟩
    rw [String.rawEndPos, String.utf8ByteSize_append]
    rfl

end

end Sketch

namespace Outline

/-! ## Blocks with slots -/

def entry : String × Option Outline → List Sketch
  | (slot, none) => [.plain (slot ++ ": _")]
  | (slot, some child) => [.plain (slot ++ ": "), child.sketch.inSlot slot]

theorem slotSketches_eq_map (slots : List (String × Option Outline)) :
    slotSketches slots = slots.map entry := by
  induction slots with
  | nil => rw [slotSketches]; rfl
  | cons slot slots ih =>
    obtain ⟨name, _ | child⟩ := slot <;> rw [slotSketches, ih] <;> rfl

/-- The beginning of a block up to what is in a slot, with the slots before it. -/
def lead (kind : Kind) (slots : List (String × Option Outline)) (slot : String) : List Sketch :=
  .plain (kind.blockType ++ "(") :: (slots.flatMap fun s => entry s ++ [.plain ", "]) ++
    [.plain (slot ++ ": ")]

/-- The end of a block after what is in a slot, with the slots that are left. -/
def trail (slots : List (String × Option Outline)) (hidden : Nat) : List Sketch :=
  (slots.flatMap fun s => .plain ", " :: entry s) ++ [Sketch.more hidden, .plain ")"]

theorem intercalate_split {ι : Type*} (sep : ι) (xs : List (List ι)) (x : List ι) (ys : List (List ι)) :
    [sep].intercalate (xs ++ x :: ys) =
      (xs.flatMap fun y => y ++ [sep]) ++ x ++ ys.flatMap fun y => sep :: y := by
  induction xs with
  | nil =>
    induction ys generalizing x with
    | nil => simp
    | cons y ys ih =>
      rw [List.nil_append, List.intercalate_cons_cons, ← List.nil_append (y :: ys), ih]
      simp
  | cons z xs ih =>
    cases xs with
    | nil => simpa using ih
    | cons w xs =>
      rw [List.cons_append, List.cons_append, List.intercalate_cons_cons, ← List.cons_append, ih]
      simp

theorem mem_intercalate {ι : Type*} {sep x : ι} {xs : List (List ι)} (h : x ∈ [sep].intercalate xs) :
    x = sep ∨ ∃ y ∈ xs, x ∈ y := by
  cases xs with
  | nil => simp at h
  | cons y ys =>
    rw [← List.nil_append (y :: ys), intercalate_split] at h
    simp only [List.flatMap_nil, List.nil_append, List.mem_append, List.mem_flatMap,
      List.mem_cons] at h
    obtain hy | ⟨z, hz, hsep | hx⟩ := h
    · exact .inr ⟨y, List.mem_cons_self, hy⟩
    · exact .inl hsep
    · exact .inr ⟨z, List.mem_cons_of_mem y hz, hx⟩

theorem text_operation (kind : Kind) (slots : List (String × Option Outline)) (hidden : Nat) :
    (operation kind slots hidden).sketch.text = kind.blockType ++ "(" ++
      (Sketch.concat ([.plain ", "].intercalate (slots.map entry))).text ++
      (Sketch.more hidden).text ++ ")" := by
  rw [sketch, slotSketches_eq_map, Sketch.asBlock, List.cons_append, Sketch.text_concat_cons,
    Sketch.text_concat_append, Sketch.text_concat_cons, Sketch.text_concat_cons]
  simp [Sketch.concat, Sketch.plain, String.append_assoc]

/-- A block is drawn in three parts: up to what is in a slot, that, and the rest. -/
theorem sketch_operation (kind : Kind) (before after : List (String × Option Outline)) (slot : String)
    (child : Outline) (hidden : Nat) :
    (operation kind (before ++ (slot, some child) :: after) hidden).sketch =
      (Sketch.concat (lead kind before slot ++ child.sketch.inSlot slot :: trail after hidden)).asBlock := by
  rw [sketch, slotSketches_eq_map, List.map_append, List.map_cons, intercalate_split]
  simp [lead, trail, entry, List.flatMap_map]

def Connected (slots : List (String × Option Outline)) (slot : String) : Prop :=
  ∃ child, (slot, some child) ∈ slots

theorem inSlots_entry {slots : List (String × Option Outline)} {s : String × Option Outline}
    (hs : s ∈ slots) : ∀ x ∈ entry s, x.InSlots (Connected slots) := by
  intro x hx
  obtain ⟨slot, _ | child⟩ := s
  · rw [List.mem_singleton.mp hx]
    exact Sketch.inSlots_plain _ _
  · obtain rfl | hx := List.mem_cons.mp hx
    · exact Sketch.inSlots_plain _ _
    · rw [List.mem_singleton.mp hx]
      exact Sketch.inSlots_inSlot ⟨child, hs⟩ _

theorem inSlots_lead (kind : Kind) (slots : List (String × Option Outline)) (slot : String) :
    ∀ x ∈ lead kind slots slot, x.InSlots (Connected slots) := by
  intro x hx
  simp only [lead, List.cons_append, List.mem_cons, List.mem_append, List.mem_flatMap,
    List.not_mem_nil, or_false] at hx
  obtain rfl | ⟨s, hs, hx | rfl⟩ | rfl := hx
  case inr.inl.inl => exact inSlots_entry hs x hx
  all_goals simp

theorem inSlots_trail (slots : List (String × Option Outline)) (hidden : Nat) :
    ∀ x ∈ trail slots hidden, x.InSlots (Connected slots) := by
  intro x hx
  simp only [trail, List.mem_append, List.mem_flatMap, List.mem_cons, List.not_mem_nil,
    or_false] at hx
  obtain ⟨s, hs, rfl | hx⟩ | rfl | rfl := hx
  case inl.inr => exact inSlots_entry hs x hx
  all_goals simp

theorem holds_slot (kind : Kind) {before after : List (String × Option Outline)} {slot : String}
    (child : Outline) (hidden : Nat) (hbefore : ¬ Connected before slot)
    (hafter : ¬ Connected after slot) :
    Sketch.Holds (operation kind (before ++ (slot, some child) :: after) hidden).sketch child.sketch
      [slot] (Sketch.concat (lead kind before slot)).text (Sketch.concat (trail after hidden)).text where
  text := by
    rw [sketch_operation, Sketch.asBlock, Sketch.text_concat_append, Sketch.text_concat_cons,
      ← String.append_assoc]
    rfl
  spanOf below := by
    rw [sketch_operation]
    exact Sketch.lookup_spansFrom_slot (inSlots_lead kind before slot) (inSlots_trail after hidden)
      hbefore hafter child.sketch below
  inside _ := by
    have hlead : 0 < (Sketch.concat (lead kind before slot)).size := by
      rw [lead, List.cons_append, Sketch.size_concat_cons, Sketch.size_plain,
        String.utf8ByteSize_append]
      have : "(".utf8ByteSize = 1 := by decide
      omega
    have htrail : 0 < (Sketch.concat (trail after hidden)).size := by
      rw [trail, Sketch.size_concat_append, Sketch.size_concat_cons, Sketch.size_concat_cons,
        Sketch.size_plain]
      have : ")".utf8ByteSize = 1 := by decide
      omega
    exact ⟨hlead, htrail⟩

theorem spanOf_operation_eq_none (kind : Kind) {slots : List (String × Option Outline)}
    {slot : String} (hidden : Nat) (h : ¬ Connected slots slot) (path : Path) :
    (operation kind slots hidden).sketch.spanOf (slot :: path) = none := by
  rw [sketch, slotSketches_eq_map]
  refine Sketch.lookup_spansFrom_eq_none ?_ h 0 path
  intro x hx
  simp only [List.cons_append, List.mem_cons, List.mem_append, List.not_mem_nil, or_false] at hx
  obtain rfl | hx | rfl | rfl := hx
  case inr.inl =>
    obtain rfl | ⟨y, hy, hx⟩ := mem_intercalate hx
    · simp
    · obtain ⟨s, hs, rfl⟩ := List.mem_map.mp hy
      exact inSlots_entry hs x hx
  all_goals simp

theorem size_lead_lt (kind : Kind) (before between : List (String × Option Outline)) (s t : String)
    (child : Outline) :
    (Sketch.concat (lead kind before s)).size + child.sketch.size <
      (Sketch.concat (lead kind (before ++ (s, some child) :: between) t)).size := by
  have hlead : lead kind (before ++ (s, some child) :: between) t = lead kind before s ++
      child.sketch.inSlot s :: .plain ", " :: ((between.flatMap fun s => entry s ++ [.plain ", "]) ++
        [.plain (t ++ ": ")]) := by
    simp [lead, entry]
  rw [hlead, Sketch.size_concat_append, Sketch.size_concat_cons, Sketch.size_inSlot,
    Sketch.size_concat_cons, Sketch.size_plain]
  have : ", ".utf8ByteSize = 2 := by decide
  omega

theorem spanOf_root (x : Outline) : x.sketch.spanOf [] = some ⟨0, x.sketch.size⟩ := by
  cases x <;> rw [sketch] <;> rfl

end Outline

end BlockCode
