import Mathlib
import BlockCode.Block
import BlockCode.Graph
import BlockCode.Proofs.Reading

/- What a compilation depends on. Two blocks are alike to some levels if they agree in
   everything that a compilation may read of them in that many levels; they need not
   be stored in the same way. `compile_eq_of_alike` says that such blocks compile to
   the same code or the same failure, with the same events. What is not read, or lies
   too deep, can be changed at will.

   At one block, alike blocks are read alike (`Alike.reading_eq`), and in every slot that
   is read there are alike blocks, or none (`Alike.slot`). -/
namespace BlockCode
universe u v
variable {α : Type u} {β : Type v} [Node α] [Node β] {o : Options}

/-- The blocks agree in what a compilation may read of them in `levels` levels. -/
def Alike (o : Options) : (levels : Nat) → α → β → Prop
  | 0, _, _ => True
  | levels + 1, x, y =>
    Node.kind x = Node.kind y ∧
    match Node.kind x with
    | .number => Node.field x numberField = Node.field y numberField
    | .binary .subtract | .binary .divide =>
      ∀ slot ∈ [slotA, slotB], Option.Rel (Alike o levels) (Node.input x slot) (Node.input y slot)
    | .list _ =>
      Node.itemCount x = Node.itemCount y ∧
      ∀ count ∈ Node.itemCount x, (∀ limit ∈ o.maxListItems, count ≤ limit) →
        ∀ i < count, Option.Rel (Alike o levels) (Node.input x (listSlot i)) (Node.input y (listSlot i))
    | .binary .power | .compare => True

theorem Alike.reading_eq {levels : Nat} {x : α} {y : β} (h : Alike o (levels + 1) x y) :
    Reading.ofNode o x = Reading.ofNode o y := by
  obtain ⟨hkind, h⟩ := h
  unfold Reading.ofNode
  rw [← hkind]
  cases hk : Node.kind x with
  | number => simp only [hk] at h; simp only [h]
  | list op => simp only [hk] at h; simp only [h.1]
  | binary op => cases op <;> rfl
  | compare => rfl

/-- In the slots that are read, alike blocks hold alike blocks. -/
theorem Alike.slot {levels : Nat} {x : α} {y : β} (h : Alike o (levels + 1) x y) {slot : String}
    (hslot : slot ∈ (Reading.ofNode o x).slots) :
    Option.Rel (Alike o levels) (Node.input x slot) (Node.input y slot) := by
  obtain ⟨_, h⟩ := h
  cases hr : Reading.ofNode o x with
  | fault | constant => rw [hr] at hslot; cases hslot
  | operation op slots =>
    rw [hr] at hslot
    obtain ⟨bop, hk, hop, rfl⟩ | ⟨lop, count, hk, hc, rfl, rfl⟩ := Reading.ofNode_operation hr
    · cases bop with
      | power => cases hop
      | subtract | divide => simp only [hk] at h; exact h slot hslot
    · simp only [hk] at h
      obtain ⟨i, hi, rfl⟩ := List.mem_map.mp hslot
      exact h.2 count hc (Reading.le_limit_of_operation hr hk hc) i (List.mem_range.mp hi)

namespace Compile

theorem operation_congr {resolve resolve' : String → Traced Fragment} (op : Arith)
    {slots : List String} (h : ∀ slot ∈ slots, resolve slot = resolve' slot) :
    operation resolve op slots = operation resolve' op slots := by
  have hmap : slots.mapM resolve = slots.mapM resolve' := by
    induction slots with
    | nil => rfl
    | cons slot slots ih =>
      obtain ⟨hslot, hslots⟩ := List.forall_mem_cons.mp h
      rw [List.mapM_cons, List.mapM_cons, hslot, ih hslots]
  rw [operation, operation, hmap]

theorem operand_eq_of_alike {levels : Nat} {x : α} {y : β} {slot : String}
    (hblock : ∀ {a : α} {b : β}, Alike o levels a b → block o levels a = block o levels b)
    (h : Option.Rel (Alike o levels) (Node.input x slot) (Node.input y slot)) :
    operand .atomic (block o levels) x slot = operand .atomic (block o levels) y slot := by
  unfold operand
  generalize Node.input x slot = a at h ⊢
  generalize Node.input y slot = b at h ⊢
  cases h with
  | none => rfl
  | some h => simp only [hblock h]

/-- Blocks that are alike to all levels that are read compile alike. -/
theorem block_eq_of_alike {levels : Nat} {x : α} {y : β} (h : Alike o levels x y) :
    block o levels x = block o levels y := by
  induction levels generalizing x y with
  | zero => rfl
  | succ levels ih =>
    rw [block_succ, block_succ, ← h.reading_eq]
    cases hr : Reading.ofNode o x with
    | fault | constant => rfl
    | operation op slots =>
      refine operation_congr op ?_
      intro slot hslot
      exact operand_eq_of_alike ih (h.slot (by rw [hr]; exact hslot))

end Compile

/-! ## Deciding -/

instance decidableOptionRel {R : α → β → Prop} [∀ a b, Decidable (R a b)] :
    (x : Option α) → (y : Option β) → Decidable (Option.Rel R x y)
  | none, none => isTrue .none
  | some a, some b => decidable_of_iff (R a b) Option.rel_some_some.symm
  | none, some _ => isFalse fun h => by cases h
  | some _, none => isFalse fun h => by cases h

def decideAlike : (levels : Nat) → (x : α) → (y : β) → Decidable (Alike o levels x y)
  | 0, _, _ => isTrue trivial
  | levels + 1, x, y =>
    have (a : α) (b : β) : Decidable (Alike o levels a b) := decideAlike levels a b
    if hkind : Node.kind x = Node.kind y then
      match hk : Node.kind x with
      | .number =>
        decidable_of_iff (Node.field x numberField = Node.field y numberField) (by
          simp [Alike, hk, ← hkind])
      | .binary .subtract | .binary .divide =>
        decidable_of_iff (∀ slot ∈ [slotA, slotB],
          Option.Rel (Alike o levels) (Node.input x slot) (Node.input y slot)) (by
            simp [Alike, hk, ← hkind])
      | .list _ =>
        decidable_of_iff (Node.itemCount x = Node.itemCount y ∧
          ∀ count ∈ Node.itemCount x, (∀ limit ∈ o.maxListItems, count ≤ limit) → ∀ i < count,
            Option.Rel (Alike o levels) (Node.input x (listSlot i)) (Node.input y (listSlot i))) (by
              simp [Alike, hk, ← hkind])
      | .binary .power | .compare => isTrue (by simp [Alike, hk, ← hkind])
    else isFalse fun h => hkind h.1

instance (levels : Nat) (x : α) (y : β) : Decidable (Alike o levels x y) := decideAlike levels x y

/-! ## Whole compilations -/

/-- The map takes the blocks of one host to those of another and keeps what a compilation
reads of them: all else may be lost on the way, or come from nowhere. -/
structure KeepsReading (o : Options) (φ : α → β) : Prop where
  kind : ∀ x, Node.kind (φ x) = Node.kind x
  field : ∀ x, Node.kind x = .number → Node.field (φ x) numberField = Node.field x numberField
  itemCount : ∀ x op, Node.kind x = .list op → Node.itemCount (φ x) = Node.itemCount x
  input : ∀ x, ∀ slot ∈ (Reading.ofNode o x).slots, Node.input (φ x) slot = (Node.input x slot).map φ

theorem KeepsReading.alike {φ : α → β} (h : KeepsReading o φ) (levels : Nat) (x : α) :
    Alike o levels x (φ x) := by
  induction levels generalizing x with
  | zero => trivial
  | succ levels ih =>
    have hslot : ∀ slot ∈ (Reading.ofNode o x).slots,
        Option.Rel (Alike o levels) (Node.input x slot) (Node.input (φ x) slot) := by
      intro slot hslot
      rw [h.input x slot hslot]
      cases Node.input x slot with
      | none => exact .none
      | some c => exact .some (ih c)
    refine ⟨(h.kind x).symm, ?_⟩
    cases hk : Node.kind x with
    | number => exact (h.field x hk).symm
    | compare => trivial
    | binary op =>
      cases op with
      | power => trivial
      | subtract | divide => simpa only [Reading.ofNode, hk, Reading.slots] using hslot
    | list op =>
      refine ⟨(h.itemCount x op hk).symm, ?_⟩
      intro count hcount hle i hi
      apply hslot
      rw [Reading.ofNode_list hk hcount hle]
      exact List.mem_map_of_mem (List.mem_range.mpr hi)

/-- Blocks that are alike to the depth limit compile to the same code or the same failure,
with the same events. So nothing counts that a compilation does not read. -/
theorem compile_eq_of_alike (o : Options) :
    (∀ (x : α) (y : β), Alike o o.maxDepth x y → compile o x = compile o y) ∧
    ∀ φ : α → β, KeepsReading o φ → ∀ x, compile o x = compile o (φ x) := by
  have halike (x : α) (y : β) (h : Alike o o.maxDepth x y) : compile o x = compile o y := by
    unfold compile
    rw [Compile.block_eq_of_alike h]
    cases hd : o.maxDepth with
    | zero => rfl
    | succ levels =>
      rw [hd] at h
      rw [h.1]
  exact ⟨halike, fun φ hφ x => halike x (φ x) (hφ.alike o.maxDepth x)⟩

def plainDifference : Block :=
  .binary .subtract (some (.list .add [some (.number "1"), none])) (some (.number "2"))

/-- The same difference, in a host that keeps more than is read: fields and item counts of
blocks that have none, and blocks in slots that no block has. The first item of the sum is
the difference itself. -/
def overgrownDifference : Graph where
  cells := #[
    ⟨.binary .subtract, [("NUM", "9")], [("A", 1), ("B", 2), ("NUM0", 3)], some 7⟩,
    ⟨.list .add, [("MODE", "sum")], [("NUM0", 0), ("NUM01", 3), ("NUM2", 3)], some 2⟩,
    ⟨.number, [("MODE", "int"), ("NUM", "2")], [("A", 0)], some 1⟩,
    ⟨.compare, [], [("A", 0)], none⟩]

/-- A difference whose first operand is the difference itself. -/
def circularDifference : Graph where
  cells := #[⟨.binary .subtract, [], [("A", 0)], none⟩]

def overgrownSelf : Graph where
  cells := #[
    ⟨.compare, [], [("A", 1)], none⟩,
    ⟨.binary .subtract, [("NUM", "9")], [("A", 1), ("NUM1", 0)], some 3⟩]

def overgrow (_ : circularDifference.Ref) : overgrownSelf.Ref := ⟨1, by decide⟩

theorem compile_eq_of_alike_difference :
    (Alike { maxDepth := 2 } 2 plainDifference (⟨0, by decide⟩ : overgrownDifference.Ref) ∧
      compile { maxDepth := 2 } plainDifference =
        compile { maxDepth := 2 } (⟨0, by decide⟩ : overgrownDifference.Ref)) ∧
    KeepsReading {} overgrow ∧
      compile {} (⟨0, by decide⟩ : circularDifference.Ref) =
        compile {} (⟨1, by decide⟩ : overgrownSelf.Ref) := by
  have halike : Alike { maxDepth := 2 } 2 plainDifference
      (⟨0, by decide⟩ : overgrownDifference.Ref) := by decide +kernel
  have hone (x : circularDifference.Ref) : x = ⟨0, by decide⟩ := by
    obtain ⟨n, hn⟩ := x
    obtain rfl : n = 0 := Nat.lt_one_iff.mp hn
    rfl
  have hkeeps : KeepsReading {} overgrow := by
    refine ⟨?_, ?_, ?_, ?_⟩ <;> intro x <;> rw [hone x]
    · rfl
    · intro hk
      cases hk
    · intro op hk
      cases hk
    · intro slot hslot
      have hslot : slot ∈ [slotA, slotB] := hslot
      obtain rfl | rfl : slot = slotA ∨ slot = slotB := by simpa using hslot
      · rfl
      · rfl
  exact ⟨⟨halike, (compile_eq_of_alike _).1 _ _ halike⟩, hkeeps,
    (compile_eq_of_alike {}).2 overgrow hkeeps ⟨0, by decide⟩⟩

end BlockCode
