import BlockCode.Proofs.Reading

/- Which blocks a compilation can come to. `Reaches` follows the connected slots that
   are read from block to block. Nothing here runs the compiler, and nothing bounds
   the blocks: where they run in circles it is the depth limit, a fault like any
   other, that ends a path. `everyList_iff` unfolds a statement about every list that
   is reached by one block, and with it such a statement can be decided. -/
namespace BlockCode
universe u
variable {α : Type u} [Node α] {o : Options} {depth : Nat} {node : α}

/-- The path leads from a block at a depth to another block, through connected slots
that are read. -/
inductive Reaches (o : Options) : Nat → α → Path → α → Prop where
  | root {depth : Nat} {node : α} : Reaches o depth node [] node
  | slot {depth : Nat} {node child block : α} {slot : String} {path : Path} :
    slot ∈ (Reading.atDepth o depth node).slots → Node.input node slot = some child →
    Reaches o (depth + 1) child path block → Reaches o depth node (slot :: path) block

theorem depth_cons (depth : Nat) (slot : String) (path : Path) :
    depth + (slot :: path).length = depth + 1 + path.length := by
  rw [List.length_cons]
  omega

theorem Reaches.eq_of_slots_nil {path : Path} {block : α} (h : Reaches o depth node path block)
    (hs : (Reading.atDepth o depth node).slots = []) : path = [] ∧ block = node := by
  cases h with
  | root => exact ⟨rfl, rfl⟩
  | slot hslot => rw [hs] at hslot; cases hslot

theorem Reaches.unique {path : Path} {block block' : α} (h : Reaches o depth node path block)
    (h' : Reaches o depth node path block') : block = block' := by
  induction h with
  | root => cases h'; rfl
  | slot _ hchild _ ih =>
    cases h' with
    | slot _ hchild' h' =>
      rw [hchild] at hchild'
      cases hchild'
      exact ih h'

theorem reaches_concat_iff {child : α} {path : Path} {slot : String} :
    Reaches o depth node (path ++ [slot]) child ↔ ∃ block, Reaches o depth node path block ∧
      slot ∈ (Reading.atDepth o (depth + path.length) block).slots ∧
      Node.input block slot = some child := by
  induction path generalizing depth node with
  | nil =>
    constructor
    · intro h
      cases h with
      | slot hslot hchild hr => cases hr; exact ⟨node, .root, hslot, hchild⟩
    · rintro ⟨block, hr, hslot, hchild⟩
      cases hr
      exact .slot hslot hchild .root
  | cons first path ih =>
    constructor
    · intro h
      cases h with
      | slot hfirst hnext hr =>
        obtain ⟨block, hr, hslot, hchild⟩ := ih.mp hr
        exact ⟨block, .slot hfirst hnext hr, by rwa [depth_cons], hchild⟩
    · rintro ⟨block, hr, hslot, hchild⟩
      cases hr with
      | slot hfirst hnext hr =>
        rw [depth_cons] at hslot
        exact .slot hfirst hnext (ih.mpr ⟨block, hr, hslot, hchild⟩)

/-! ## Statements about every list -/

variable {Q : ListOp → Nat → Prop}

/-- `Q` holds of the operator and the number of items of a block, if it is a list with
a number of items. -/
def IfList (Q : ListOp → Nat → Prop) (node : α) : Prop :=
  ∀ op count, Node.kind node = .list op → Node.itemCount node = some count → Q op count

/-- `Q` holds of every list block that is reached. -/
def EveryList (Q : ListOp → Nat → Prop) (o : Options) (depth : Nat) (node : α) : Prop :=
  ∀ path block, Reaches o depth node path block → IfList Q block

theorem everyList_iff :
    EveryList Q o depth node ↔ IfList Q node ∧
      ∀ slot ∈ (Reading.atDepth o depth node).slots, ∀ child ∈ Node.input node slot,
        EveryList Q o (depth + 1) child := by
  constructor
  · intro h
    refine ⟨h [] node .root, ?_⟩
    intro slot hslot child hchild path block hr
    exact h (slot :: path) block (.slot hslot hchild hr)
  · intro h path block hr
    obtain ⟨hroot, hbelow⟩ := h
    cases hr with
    | root => exact hroot
    | slot hslot hchild hr => exact hbelow _ hslot _ hchild _ _ hr

theorem EveryList.imp {R : ListOp → Nat → Prop} (hQR : ∀ op count, Q op count → R op count)
    (h : EveryList Q o depth node) : EveryList R o depth node :=
  fun path block hr op count hk hc => hQR op count (h path block hr op count hk hc)

instance [∀ op count, Decidable (Q op count)] : Decidable (IfList Q node) :=
  match hk : Node.kind node, hc : Node.itemCount node with
  | .list op, some count => decidable_of_iff (Q op count) (by simp [IfList, hk, hc])
  | .list _, none => isTrue (by simp [IfList, hc])
  | .number, _ => isTrue (by simp [IfList, hk])
  | .binary _, _ => isTrue (by simp [IfList, hk])
  | .compare, _ => isTrue (by simp [IfList, hk])

/-- Goes down the levels that are left. -/
def decideEveryList [∀ op count, Decidable (Q op count)] : (levels depth : Nat) → (node : α) →
    o.maxDepth ≤ depth + levels → Decidable (EveryList Q o depth node)
  | 0, depth, node, h => decidable_of_iff (IfList Q node) (by
      have h : o.maxDepth ≤ depth := h
      rw [everyList_iff, Reading.atDepth, if_pos h]
      simp [Reading.slots])
  | levels + 1, depth, node, h =>
    have (child : α) : Decidable (EveryList Q o (depth + 1) child) :=
      decideEveryList levels (depth + 1) child (by omega)
    decidable_of_iff _ everyList_iff.symm

instance [∀ op count, Decidable (Q op count)] : Decidable (EveryList Q o depth node) :=
  decideEveryList o.maxDepth depth node (Nat.le_add_left _ _)

end BlockCode
