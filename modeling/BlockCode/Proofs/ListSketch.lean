import Mathlib
import BlockCode.Block
import BlockCode.Proofs.Spans

/- How a list is written in a sketch. `listEntries` is what stands between the parentheses: an
   entry for each item that is shown, and one more for all the items that are not.
   `text_list_joined_iff` says when the text of a list is these entries with separators between them.
   That fails for one setting only: where no item may be shown, but there are some, a separator
   stands before the only entry.

   The items bring their separators with them, so that there is none before the first one;
   what stands for the hidden items always has one before it (`intercalate_more`). -/
namespace BlockCode
universe u
variable {α : Type u} [Node α] {o : Options} {depth : Nat} {node : α}

namespace Sketch

/-! ## Entries and separators -/

def hiddenEntry (hidden : Nat) : List String :=
  if hidden = 0 then [] else ["…" ++ toString hidden ++ " more"]

theorem text_concat_intercalate (sep : String) (parts : List (List Sketch)) :
    (concat ([plain sep].intercalate parts)).text = sep.intercalate (parts.map fun p => (concat p).text) := by
  induction parts with
  | nil => rfl
  | cons p parts ih =>
    cases parts with
    | nil => simp
    | cons q parts =>
      rw [List.intercalate_cons_cons, text_concat_append, text_concat_append, ih]
      simp [concat, plain, String.intercalate_cons_cons]

/-- Behind entries, what stands for the hidden items is one more entry; on its own it has a separator
before it. -/
theorem intercalate_more (entries : List String) (hidden : Nat) :
    ", ".intercalate entries ++ (more hidden).text =
      (if entries = [] ∧ hidden ≠ 0 then ", " else "") ++
        ", ".intercalate (entries ++ hiddenEntry hidden) := by
  rw [text_more, hiddenEntry]
  by_cases hnone : hidden = 0
  · simp [hnone]
  · by_cases hempty : entries = []
    · simp [hempty, hnone]
    · rw [if_neg hnone, if_neg hnone, if_neg (fun h => hempty h.1), String.empty_append,
        String.intercalate_append_of_ne_nil hempty (by simp), String.intercalate_singleton,
        ← String.append_assoc]

/-! ## The text of a list -/

/-- The entry of an item: the name of its slot and its sketch, or the sign for an empty slot. -/
def itemEntry (o : Options) (depth : Nat) (node : α) (i : Nat) : String :=
  listSlot i ++ ": " ++
    (Node.input node (listSlot i)).elim "_" fun item => (atDepth o (depth + 1) item).text

/-- The entries of a list at a depth: one for each item that is shown, and one more if there are
items that are not. -/
def listEntries (o : Options) (depth : Nat) (node : α) (count : Nat) : List String :=
  (List.range (o.shown count)).map (itemEntry o depth node) ++ hiddenEntry (count - o.shown count)

theorem text_entry_slotAt (o : Options) (depth : Nat) (node : α) (i : Nat) :
    (concat (Outline.entry (slotAt o depth node (listSlot i)))).text = itemEntry o depth node i := by
  unfold slotAt itemEntry
  cases Node.input node (listSlot i) with
  | none => simp [Outline.entry, concat, plain, String.append_assoc]
  | some item =>
    rw [Option.elim_some, atDepth_eq]
    simp [Outline.entry, concat, plain, inSlot, String.append_assoc]

theorem atDepth_list {op : ListOp} {count : Nat} (hd : depth < o.maxDepth)
    (hk : Node.kind node = .list op) (hc : Node.itemCount node = some count) :
    atDepth o depth node = (Outline.operation (.list op)
      ((itemSlots (o.shown count)).map (slotAt o depth node)) (count - o.shown count)).sketch := by
  have hlevels : o.maxDepth - depth = o.maxDepth - (depth + 1) + 1 := by omega
  have hslots : shownSlots o node = itemSlots (o.shown count) := by
    simp only [shownSlots, hk, hc, Option.elim_some]
  rw [atDepth_eq, hlevels, Outline.ofNode_list hk hc, hslots]
  rfl

/-- The text of a list: its entries with separators between them, and one before them if no item is
shown though there are some. -/
theorem text_atDepth_list {op : ListOp} {count : Nat} (hd : depth < o.maxDepth)
    (hk : Node.kind node = .list op) (hc : Node.itemCount node = some count) :
    (atDepth o depth node).text = (Kind.list op).blockType ++ "(" ++
      (if o.shown count = 0 ∧ count ≠ 0 then ", " else "") ++
      ", ".intercalate (listEntries o depth node count) ++ ")" := by
  have hentries : (((itemSlots (o.shown count)).map (slotAt o depth node)).map Outline.entry).map
      (fun p => (concat p).text) = (List.range (o.shown count)).map (itemEntry o depth node) := by
    simp only [itemSlots, List.map_map]
    exact List.map_congr_left fun i _ => text_entry_slotAt o depth node i
  have hstray : ((List.range (o.shown count)).map (itemEntry o depth node) = [] ∧
      count - o.shown count ≠ 0) ↔ (o.shown count = 0 ∧ count ≠ 0) := by
    rw [List.map_eq_nil_iff, List.range_eq_nil]
    omega
  have hmore := intercalate_more ((List.range (o.shown count)).map (itemEntry o depth node))
    (count - o.shown count)
  simp only [hstray] at hmore
  rw [atDepth_list hd hk hc, Outline.text_operation, text_concat_intercalate, hentries]
  calc
    _ = (Kind.list op).blockType ++ "(" ++ (", ".intercalate ((List.range (o.shown count)).map
        (itemEntry o depth node)) ++ (more (count - o.shown count)).text) ++ ")" := by
      simp only [String.append_assoc]
    _ = _ := by
      rw [hmore, listEntries]
      simp only [String.append_assoc]

theorem shown_eq_zero_iff (o : Options) (count : Nat) :
    (o.shown count = 0 ∧ count ≠ 0) ↔ (o.maxListItems = some 0 ∧ count ≠ 0) := by
  unfold Options.shown
  cases o.maxListItems with
  | none => simp
  | some limit =>
    rw [Option.elim_some, Option.some.injEq]
    omega

/-- The text at the span of a list is its entries with separators between them, unless the limit
is 0 and there are items: then a separator stands before the only entry. -/
theorem text_list_joined_iff {block : α} {path : Path} {op : ListOp} {count : Nat}
    (hshows : Shows o 0 node path block) (hd : path.length < o.maxDepth)
    (hk : Node.kind block = .list op) (hc : Node.itemCount block = some count) :
    ∃ span, (ofNode o node).spanOf path = some span ∧
      ((ofNode o node).textAt span = (Kind.list op).blockType ++ "(" ++
          ", ".intercalate (listEntries o path.length block count) ++ ")" ↔
        ¬ (o.maxListItems = some 0 ∧ count ≠ 0)) ∧
      (o.maxListItems = some 0 ∧ count ≠ 0 → (ofNode o node).textAt span =
        (Kind.list op).blockType ++ "(, …" ++ toString count ++ " more)") := by
  obtain ⟨before, after, hholds⟩ := holds_of_shows hshows
  rw [Nat.zero_add] at hholds
  refine ⟨_, hholds.span, ?_⟩
  have htext : (ofNode o node).textAt _ = _ := hholds.textAt
  rw [htext, text_atDepth_list hd hk hc, ← shown_eq_zero_iff]
  by_cases hstray : o.shown count = 0 ∧ count ≠ 0
  · rw [if_pos hstray]
    refine ⟨⟨?_, fun h => absurd hstray h⟩, ?_⟩
    · intro heq
      have hsize := congrArg String.length heq
      simp only [String.length_append] at hsize
      have : ", ".length = 2 := rfl
      omega
    · intro _
      have hentries : listEntries o path.length block count = ["…" ++ toString count ++ " more"] := by
        simp [listEntries, hiddenEntry, hstray]
      rw [hentries, String.intercalate_singleton]
      simp only [String.append_assoc]
      rfl
  · rw [if_neg hstray, String.append_empty]
    exact ⟨⟨fun _ => hstray, fun _ => rfl⟩, fun h => absurd h hstray⟩

/-- A sum of three items, the second of them missing. -/
def gappedSum : Block := .list .add [some (.number "1"), none, some (.number "½")]

/-- `math_divide(A: math_add(NUM0: 1, NUM1: _, …1 more), B: _)` -/
theorem text_list_joined_iff_gappedSum :
    (∃ span, (ofNode { maxListItems := some 2 } (Block.binary .divide gappedSum none)).spanOf ["A"] =
        some span ∧
      (ofNode { maxListItems := some 2 } (Block.binary .divide gappedSum none)).textAt span =
        "math_add(NUM0: 1, NUM1: _, …1 more)") ∧
    ∃ span, (ofNode { maxListItems := some 0 } (Block.binary .divide gappedSum none)).spanOf ["A"] =
        some span ∧
      (ofNode { maxListItems := some 0 } (Block.binary .divide gappedSum none)).textAt span =
        "math_add(, …3 more)" := by
  have hshows (limit : Nat) : Shows { maxListItems := some limit } 0
      (Block.binary .divide gappedSum none) ["A"] gappedSum :=
    .slot (Nat.zero_lt_succ 127) List.mem_cons_self rfl .root
  obtain ⟨span, hspan, hjoined, _⟩ := text_list_joined_iff (hshows 2) (by decide) rfl rfl
  obtain ⟨span', hspan', _, hstray⟩ := text_list_joined_iff (hshows 0) (by decide) rfl rfl
  refine ⟨⟨span, hspan, ?_⟩, span', hspan', ?_⟩
  · rw [hjoined.mpr (by decide)]
    decide +kernel
  · rw [hstray (by decide)]
    decide +kernel

/-- With a limit of 0 the text of a sum is not its entries with separators between them. -/
theorem text_list_not_joined :
    Node.itemCount gappedSum = some 3 ∧
    listEntries { maxListItems := some 0 } 0 gappedSum 3 = ["…3 more"] ∧
    (ofNode { maxListItems := some 0 } gappedSum).spanOf [] = some ⟨0, 21⟩ ∧
    (ofNode { maxListItems := some 0 } gappedSum).textAt ⟨0, 21⟩ ≠ (Kind.list .add).blockType ++ "(" ++
      ", ".intercalate (listEntries { maxListItems := some 0 } 0 gappedSum 3) ++ ")" := by
  decide +kernel

end Sketch

end BlockCode
