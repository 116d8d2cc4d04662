import BlockCode.Proofs.Reach

/- The expression that a block stands for. `Expr.ofNode?` reads it off a block without
   regard to any limit, and so without regard to the compiler: an empty slot is the
   integer zero, a number block the constant of its literal, every other block an
   operation on what is in its slots. Blocks that run in circles, and blocks that the
   device has no code for, stand for no expression.

   `block_yields` says what a compilation that succeeds has done: its block stands for
   an expression, and its code is the postfix code of that expression. Statements
   about compiled code are from then on statements about `Expr.code`. -/
namespace BlockCode
universe u v

/-! ## Traversals -/

theorem mapM_eq_some_iff {ι : Type u} {β : Type v} {f : ι → Option β} {l : List ι} {bs : List β} :
    l.mapM f = some bs ↔ List.Forall₂ (fun i b => f i = some b) l bs := by
  induction l generalizing bs with
  | nil => simp [eq_comm]
  | cons i l ih =>
    rw [List.mapM_cons]
    constructor
    · intro h
      obtain ⟨b, hb, h⟩ := Option.bind_eq_some_iff.mp h
      obtain ⟨bs', hbs, h⟩ := Option.bind_eq_some_iff.mp h
      cases h
      exact .cons hb (ih.mp hbs)
    · intro h
      cases h with
      | cons hb hbs => simp [hb, ih.mpr hbs]

theorem forall_iff_of_forall₂ {ι : Type u} {β : Type v} {P : ι → Prop} {R : β → Prop} {l : List ι}
    {m : List β} (h : List.Forall₂ (fun i b => R b ↔ P i) l m) :
    (∀ b ∈ m, R b) ↔ ∀ i ∈ l, P i := by
  induction h with
  | nil => simp
  | cons hab _ ih => rw [List.forall_mem_cons, List.forall_mem_cons, hab, ih]

theorem exists_forall₂ {ι : Type u} {β : Type v} {R : ι → β → Prop} {l : List ι}
    (h : ∀ i ∈ l, ∃ b, R i b) : ∃ m, List.Forall₂ R l m := by
  induction l with
  | nil => exact ⟨[], .nil⟩
  | cons i l ih =>
    obtain ⟨b, hb⟩ := h i List.mem_cons_self
    obtain ⟨m, hm⟩ := ih fun j hj => h j (List.mem_cons_of_mem i hj)
    exact ⟨b :: m, .cons hb hm⟩

/-! ## Expressions -/

/-- An expression over the constants and operations of the device. An operation has
any number of operands, as a list block has. -/
inductive Expr where
  | constant (c : Constant)
  | operation (op : Arith) (operands : List Expr)

namespace Expr

@[elab_as_elim, induction_eliminator]
theorem induct {motive : Expr → Prop} (constant : ∀ c, motive (.constant c))
    (operation : ∀ op xs, (∀ x ∈ xs, motive x) → motive (.operation op xs)) : ∀ e, motive e
  | .constant c => constant c
  | .operation op xs => operation op xs fun x _ => induct constant operation x

/-- Postfix code: the operands, then one operator less than there are operands. -/
def code : Expr → List Instruction
  | constant c => [.push c]
  | operation op xs => xs.flatMap code ++ List.replicate (xs.length - 1) (.apply op)

def fragment (e : Expr) : Fragment := ⟨e.code, .atomic⟩

theorem fragment_constant {c : Constant} : (constant c).fragment = Fragment.constant (.push c) := by
  simp [fragment, code, Fragment.constant]

/-- `Q` holds of every operation and the number of its operands. -/
def Every (Q : Arith → Nat → Prop) : Expr → Prop
  | constant _ => True
  | operation op xs => Q op xs.length ∧ ∀ x ∈ xs, Every Q x

section Read
variable {α : Type u} [Node α]

def ofSlot? (read : α → Option Expr) (node : α) (slot : String) : Option Expr :=
  match Node.input node slot with
  | none => some (constant .zero)
  | some child => read child

/-- The expression that a block stands for, if that takes at most `levels` levels. -/
def ofNode? : (levels : Nat) → α → Option Expr
  | 0, _ => none
  | levels + 1, node =>
    let slot := ofSlot? (ofNode? levels) node
    match Node.kind node with
    | .number => ((Node.field node numberField).bind Constant.ofLiteral?).map constant
    | .compare => none
    | .binary op => do
      let op ← op.operator.arith?
      let a ← slot slotA
      let b ← slot slotB
      return operation op [a, b]
    | .list op => do
      let count ← Node.itemCount node
      let xs ← (itemSlots count).mapM slot
      return operation op.arith xs

variable {o : Options} {levels depth : Nat} {node : α}

theorem ofNode?_constant {c : Constant} (h : Reading.ofNode o node = .constant c) :
    ofNode? (levels + 1) node = some (constant c) := by
  obtain ⟨hk, hc⟩ := Reading.ofNode_constant h
  simp only [ofNode?, hk, hc, Option.map_some]

theorem ofNode?_operation {op : Arith} {slots : List String}
    (h : Reading.ofNode o node = .operation op slots) :
    ofNode? (levels + 1) node = (slots.mapM (ofSlot? (ofNode? levels) node)).map (operation op) := by
  obtain ⟨bop, hk, hop, rfl⟩ | ⟨lop, count, hk, hc, rfl, rfl⟩ := Reading.ofNode_operation h
  · simp only [ofNode?, hk, hop, List.mapM_cons, List.mapM_nil]
    cases ofSlot? (ofNode? levels) node slotA with
    | none => rfl
    | some a => cases ofSlot? (ofNode? levels) node slotB <;> rfl
  · simp only [ofNode?, hk, hc]
    rw [Option.map_eq_bind]
    rfl

theorem ofNode?_mono {more : Nat} {e : Expr} (hle : levels ≤ more) (h : ofNode? levels node = some e) :
    ofNode? more node = some e := by
  induction levels generalizing more node e with
  | zero => cases h
  | succ levels ih =>
    obtain ⟨more, rfl⟩ : ∃ m, more = m + 1 := ⟨more - 1, by omega⟩
    have hslot {slot : String} {x : Expr} (hx : ofSlot? (ofNode? levels) node slot = some x) :
        ofSlot? (ofNode? more) node slot = some x := by
      unfold ofSlot? at hx ⊢
      cases hi : Node.input node slot with
      | none => rw [hi] at hx; exact hx
      | some child => rw [hi] at hx; exact ih (by omega) hx
    simp only [ofNode?] at h ⊢
    cases hk : Node.kind node with
    | number | compare => rw [hk] at h; exact h
    | binary op =>
      rw [hk] at h
      obtain ⟨op, hop, h⟩ := Option.bind_eq_some_iff.mp h
      obtain ⟨a, ha, h⟩ := Option.bind_eq_some_iff.mp h
      obtain ⟨b, hb, h⟩ := Option.bind_eq_some_iff.mp h
      simpa [hop, hslot ha, hslot hb] using h
    | list op =>
      rw [hk] at h
      obtain ⟨count, hc, h⟩ := Option.bind_eq_some_iff.mp h
      obtain ⟨xs, hxs, h⟩ := Option.bind_eq_some_iff.mp h
      have hxs := mapM_eq_some_iff.mpr ((mapM_eq_some_iff.mp hxs).imp fun _ _ hx => hslot hx)
      simpa [hc, hxs] using h

end Read

end Expr

def Denotes {α : Type u} [Node α] (node : α) (e : Expr) : Prop :=
  ∃ levels, Expr.ofNode? levels node = some e

theorem Denotes.unique {α : Type u} [Node α] {node : α} {e e' : Expr} (h : Denotes node e)
    (h' : Denotes node e') : e = e' := by
  obtain ⟨levels, h⟩ := h
  obtain ⟨levels', h'⟩ := h'
  have h := Expr.ofNode?_mono (Nat.le_max_left levels levels') h
  have h' := Expr.ofNode?_mono (Nat.le_max_right levels levels') h'
  exact Option.some.inj (h.symm.trans h')

/-! ## What a compilation has done -/

/-- The fragment is the code of the expression that is read, and the operations of the
expression are the lists that are reached, and pairs. -/
structure Yields (read : Option Expr) (reached : (ListOp → Nat → Prop) → Prop) (f : Fragment)
    (e : Expr) : Prop where
  reads : read = some e
  code : f = e.fragment
  lists : ∀ Q : Arith → Nat → Prop, Q .subtract 2 → Q .divide 2 →
    (e.Every Q ↔ reached fun op count => Q op.arith count)

namespace Compile
variable {α : Type u} [Node α] {o : Options} {levels depth : Nat} {node : α} {f : Fragment}

theorem operand_yields {slot : String}
    (ih : ∀ {child : α} {f : Fragment}, (block o levels child).result = .ok f →
      ∃ e, Yields (Expr.ofNode? levels child) (EveryList · o (depth + 1) child) f e)
    (h : (operand .atomic (block o levels) node slot).result = .ok f) :
    ∃ e, Yields (Expr.ofSlot? (Expr.ofNode? levels) node slot)
      (fun Q => ∀ child, Node.input node slot = some child → EveryList Q o (depth + 1) child) f e := by
  obtain ⟨hi, rfl⟩ | ⟨child, hi, h⟩ := operand_ok h
  · refine ⟨.constant .zero, by simp [Expr.ofSlot?, hi], Expr.fragment_constant.symm, ?_⟩
    intro Q _ _
    simp [Expr.Every, hi]
  · obtain ⟨e, he⟩ := ih h
    refine ⟨e, by simp [Expr.ofSlot?, hi, he.reads], he.code, ?_⟩
    intro Q hs hd
    rw [he.lists Q hs hd]
    simp [hi]

theorem operands_yield {slots : List String} {fs : List Fragment}
    (ih : ∀ {child : α} {f : Fragment}, (block o levels child).result = .ok f →
      ∃ e, Yields (Expr.ofNode? levels child) (EveryList · o (depth + 1) child) f e)
    (h : List.Forall₂ (fun slot g => (operand .atomic (block o levels) node slot).result = .ok g)
      slots fs) :
    ∃ xs, fs = xs.map Expr.fragment ∧ List.Forall₂ (fun slot x =>
      Yields (Expr.ofSlot? (Expr.ofNode? levels) node slot)
        (fun Q => ∀ child, Node.input node slot = some child → EveryList Q o (depth + 1) child)
        x.fragment x) slots xs := by
  induction h with
  | nil => exact ⟨[], rfl, .nil⟩
  | cons hg _ ih' =>
    obtain ⟨x, hx⟩ := operand_yields ih hg
    obtain ⟨xs, rfl, hxs⟩ := ih'
    obtain rfl := hx.code
    exact ⟨x :: xs, rfl, .cons hx hxs⟩

/-- A block that compiles stands for an expression and compiles to its code. -/
theorem block_yields (hd : depth + levels = o.maxDepth) (h : (block o levels node).result = .ok f) :
    ∃ e, Yields (Expr.ofNode? levels node) (EveryList · o depth node) f e := by
  induction levels generalizing depth node f with
  | zero => cases h
  | succ levels ih =>
    have hat : Reading.atDepth o depth node = _ := Reading.atDepth_of_lt (by omega) node
    have hd' : depth + 1 + levels = o.maxDepth := by omega
    obtain ⟨c, hc, rfl⟩ | ⟨op, slots, fs, hop, hfs, rfl⟩ := block_ok h
    · refine ⟨.constant c, Expr.ofNode?_constant hc, Expr.fragment_constant.symm, ?_⟩
      intro Q _ _
      rw [everyList_iff, hat, hc]
      simp [Expr.Every, IfList, Reading.slots, (Reading.ofNode_constant hc).1]
    · obtain ⟨xs, rfl, hxs⟩ := operands_yield (ih hd') hfs
      refine ⟨.operation op xs, ?_, ?_, ?_⟩
      · rw [Expr.ofNode?_operation hop, mapM_eq_some_iff.mpr (hxs.imp fun _ _ h => h.reads)]
        rfl
      · simp [Expr.fragment, Expr.code, List.flatMap_map, hxs.length_eq]
      · intro Q hs hd
        rw [Expr.Every, everyList_iff, hat, hop, ← hxs.length_eq,
          forall_iff_of_forall₂ (hxs.imp fun _ _ h => h.lists Q hs hd)]
        refine and_congr_left' ?_
        obtain ⟨bop, hk, hop, rfl⟩ | ⟨lop, count, hk, hc, rfl, rfl⟩ := Reading.ofNode_operation hop
        · -- two operands: nothing is asked of a list, and `Q` was given
          cases bop <;> cases hop <;> simp [IfList, hk, hs, hd]
        · simp [IfList, hk, hc, itemSlots]

end Compile

end BlockCode
