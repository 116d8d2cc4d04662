import BlockCode.Proofs.Heights

/- The stack check on compiled code. `checkStack_compile` says exactly which blocks
   compile to valid code: those without empty lists. Code that is not valid is empty
   code, of a chain of lists of one item around an empty list, or takes from an empty
   stack.

   The argument counts. An empty list leaves one push missing, and nothing makes up for
   it: pushes and missing pushes together are one more than the operators
   (`countP_code`). What remains on the stack after code has run is the difference of
   pushes and operators (`length_run`), and it is never nothing if the code was not
   empty (`ne_nil_of_run`). So code with a push missing cannot run to its end. -/
namespace BlockCode
universe u v
variable {V : Type v}

/-! ## Missing pushes -/

namespace Expr

/-- The number of operations without operands. -/
def hollows : Expr → Nat
  | constant _ => 0
  | operation _ es => (if es.isEmpty then 1 else 0) + (es.map hollows).sum

theorem hollows_eq_zero_iff (e : Expr) : e.hollows = 0 ↔ e.Every fun _ count => count ≠ 0 := by
  induction e with
  | constant c => simp [hollows, Every]
  | operation op es ih =>
    have hes : (es.map hollows).sum = 0 ↔ ∀ e ∈ es, e.hollows = 0 := by
      simp [List.sum_eq_zero_iff_forall_eq_nat]
    rw [hollows, Every, Nat.add_eq_zero_iff, hes, forall₂_congr ih]
    cases es <;> simp

/-- Every operation without operands is a push that is missing. -/
theorem countP_code (e : Expr) :
    e.code.countP Instruction.isPush + e.hollows = e.code.countP Instruction.isBinary + 1 := by
  induction e with
  | constant c => simp [hollows, code, Instruction.isPush, Instruction.isBinary]
  | operation op es ih =>
    have hes : (es.flatMap code).countP Instruction.isPush + (es.map hollows).sum =
        (es.flatMap code).countP Instruction.isBinary + es.length := by
      induction es with
      | nil => rfl
      | cons e es ih' =>
        have he := ih e List.mem_cons_self
        have hes := ih' fun x hx => ih x (List.mem_cons_of_mem e hx)
        simp only [List.flatMap_cons, List.countP_append, List.map_cons, List.sum_cons,
          List.length_cons]
        omega
    obtain ⟨hpush, hbinary⟩ := Instruction.countP_operators op (es.length - 1)
    rw [hollows, code, List.countP_append, List.countP_append, hpush, hbinary]
    -- one operator less than operands; for no operands the subtraction stops at zero, and
    -- that is the push that is missing
    cases es with
    | nil => rfl
    | cons e es =>
      rw [List.length_cons] at hes
      simp only [List.isEmpty_cons, List.length_cons, Bool.false_eq_true, if_false]
      omega

end Expr

/-! ## Empty code -/

section Chain
variable {α : Type u} [Node α]

/-- Lists of one item around an empty list. -/
inductive EmptyChain : α → Prop where
  | empty {node : α} {op : ListOp} : Node.kind node = .list op → Node.itemCount node = some 0 →
    EmptyChain node
  | single {node child : α} {op : ListOp} : Node.kind node = .list op →
    Node.itemCount node = some 1 → Node.input node (listSlot 0) = some child → EmptyChain child →
    EmptyChain node

theorem emptyChain_iff {node : α} :
    EmptyChain node ↔ ∃ op, Node.kind node = .list op ∧ (Node.itemCount node = some 0 ∨
      Node.itemCount node = some 1 ∧ ∃ child, Node.input node (listSlot 0) = some child ∧
        EmptyChain child) := by
  constructor
  · intro h
    cases h with
    | empty hk hc => exact ⟨_, hk, .inl hc⟩
    | single hk hc hi h => exact ⟨_, hk, .inr ⟨hc, _, hi, h⟩⟩
  · intro h
    obtain ⟨op, hk, hc | ⟨hc, child, hi, h⟩⟩ := h
    · exact .empty hk hc
    · exact .single hk hc hi h

theorem Compile.code_eq_nil_iff {o : Options} {levels : Nat} {node : α} {f : Fragment}
    (h : (block o levels node).result = .ok f) : f.code = [] ↔ EmptyChain node := by
  induction levels generalizing node f with
  | zero => cases h
  | succ levels ih =>
    rw [emptyChain_iff]
    obtain ⟨c, hc, rfl⟩ | ⟨op, slots, fs, hop, hfs, rfl⟩ := block_ok h
    · simp [(Reading.ofNode_constant hc).1, Fragment.constant]
    · obtain ⟨bop, hk, _, rfl⟩ | ⟨lop, count, hk, hc, rfl, rfl⟩ := Reading.ofNode_operation hop
      · simp [hk]
      · -- no item, one item, or more than one, of which an operator comes last
        obtain _ | _ | count := count
        · cases hfs
          simp [hk, hc, itemSlots]
        · obtain ⟨g, hg, rfl⟩ :
              ∃ g, (operand .atomic (block o levels) node (listSlot 0)).result = .ok g ∧ fs = [g] := by
            cases hfs with
            | cons hg hnil => cases hnil; exact ⟨_, hg, rfl⟩
          obtain ⟨hi, rfl⟩ | ⟨child, hi, hg⟩ := operand_ok hg
          · simp [hc, hi, Fragment.constant]
          · simp [hk, hc, hi, itemSlots, ih hg]
        · simp [hc, itemSlots]

example : EmptyChain (Block.list .add [some (.list .multiply [])]) ∧
    (Compile.block {} 2 (Block.list .add [some (.list .multiply [])])).result = .ok ⟨[], .atomic⟩ :=
  ⟨.single rfl rfl rfl (.empty rfl rfl), by decide +kernel⟩

end Chain

/-! ## The check -/

/-- Code with a push missing does not run, unless it is empty. -/
theorem run_code_eq_none (I : Interpretation V) {e : Expr} (h : e.hollows ≠ 0)
    (hcode : e.code ≠ []) : Machine.run I e.code [] = none := by
  by_contra hrun
  -- a run would leave something, and there are too few pushes for it
  obtain ⟨stack, hrun⟩ := Option.ne_none_iff_exists'.mp hrun
  have hlen := Machine.length_run hrun
  have hcount := e.countP_code
  have hpos := List.length_pos_of_ne_nil (Machine.ne_nil_of_run hrun hcode)
  rw [List.length_nil] at hlen
  omega

theorem checkStack_code (e : Expr) :
    (e.hollows = 0 ∧ e.code ≠ [] ∧ e.fragment.checkStack = .ok 1) ∨
    (e.hollows ≠ 0 ∧ e.code = [] ∧ e.fragment.checkStack = .ok 0) ∨
    (e.hollows ≠ 0 ∧ e.code ≠ [] ∧ ∃ index needed height,
      e.fragment.checkStack = .error (.underflow index needed height)) := by
  by_cases h : e.hollows = 0
  · obtain ⟨x, _, hrun⟩ := run_code weighing e (e.hollows_eq_zero_iff.mp h)
    refine .inl ⟨h, ?_, Machine.checkFrom_of_run_some (hrun []) 0⟩
    intro hcode
    have hcount := e.countP_code
    rw [hcode, h] at hcount
    cases hcount
  · by_cases hcode : e.code = []
    · exact .inr (.inl ⟨h, hcode, by rw [Fragment.checkStack, Expr.fragment, hcode]; rfl⟩)
    · obtain ⟨_, _, hstuck⟩ := Machine.exists_stuckAt_of_run_none (run_code_eq_none weighing h hcode)
      exact .inr (.inr ⟨h, hcode, _, _, _, Machine.checkFrom_of_stuckAt hstuck 0⟩)

/-- Compiled code is valid exactly if no list is empty. If it is not, it is empty, or it
takes from too low a stack; it never leaves too much. -/
theorem checkStack_compile {α : Type u} [Node α] (o : Options) (node : α) {f : Fragment}
    (h : (compile o node).result = .ok f) :
    (f.checkStack = .ok 1 ↔ EveryList (fun _ count => count ≠ 0) o 0 node) ∧
    (f.checkStack = .ok 0 ↔ f.isEmpty = true) ∧
    (f.isEmpty = true ↔ EmptyChain node) ∧
    (f.checkStack = .ok 1 ∨ f.checkStack = .ok 0 ∨
      ∃ index needed height, f.checkStack = .error (.underflow index needed height)) ∧
    ∀ height, f.checkStack ≠ .error (.unbalanced height) := by
  rw [result_compile] at h
  obtain ⟨e, _, rfl, hlists⟩ := Compile.block_yields (Nat.zero_add _) h
  have hne : e.hollows = 0 ↔ EveryList (fun _ count => count ≠ 0) o 0 node :=
    e.hollows_eq_zero_iff.trans (hlists _ (by decide) (by decide))
  have hempty : e.fragment.isEmpty = true ↔ e.code = [] := List.isEmpty_iff
  have hchain : e.code = [] ↔ EmptyChain node := Compile.code_eq_nil_iff h
  rw [← hne, hempty, ← hchain]
  obtain ⟨h0, hcode, hcheck⟩ | ⟨h0, hcode, hcheck⟩ | ⟨h0, hcode, index, needed, height, hcheck⟩ :=
    checkStack_code e
  · simp [hcheck, h0, hcode]
  · simp [hcheck, h0, hcode]
  · simp [hcheck, h0, hcode]

/-- A product with an empty sum between two numbers. The code runs up to its last
instruction, for which one value is missing. -/
def hollowProduct : Block :=
  .list .multiply [some (.number "2"), some (.list .add []), some (.number "1")]

def hollowProductCode : List Instruction :=
  [.push .two, .push .one, .apply .multiply, .apply .multiply]

theorem checkStack_compile_hollowProduct :
    (compile {} hollowProduct).result = .ok ⟨hollowProductCode, .atomic⟩ ∧
    ¬ EveryList (fun _ count => count ≠ 0) {} 0 hollowProduct ∧ ¬ EmptyChain hollowProduct ∧
    ∃ index needed height, (⟨hollowProductCode, .atomic⟩ : Fragment).checkStack =
      .error (.underflow index needed height) := by
  have h : (compile {} hollowProduct).result = .ok ⟨hollowProductCode, .atomic⟩ := by decide +kernel
  have hne : ¬ EveryList (fun _ count => count ≠ 0) {} 0 hollowProduct := by decide +kernel
  obtain ⟨hone, hzero, hchain, hcases, _⟩ := checkStack_compile {} hollowProduct h
  have hchain : ¬ EmptyChain hollowProduct := fun hc => by cases hchain.mpr hc
  have hcode : ¬ (⟨hollowProductCode, .atomic⟩ : Fragment).isEmpty = true := by decide
  refine ⟨h, hne, hchain, ?_⟩
  rcases hcases with h1 | h0 | herror
  · exact absurd (hone.mp h1) hne
  · exact absurd (hzero.mp h0) hcode
  · exact herror

end BlockCode
