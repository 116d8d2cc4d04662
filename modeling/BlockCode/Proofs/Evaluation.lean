import Mathlib
import BlockCode.Block
import BlockCode.Device.Machine
import BlockCode.Graph
import BlockCode.Proofs.Expression

/- What compiled code computes. The constants and operations of the device are given by
   an interpretation of which no law is assumed, so the order and the nesting of the
   operands matter.

   * `run_compile`: the code of a block without empty lists runs on every stack and
     puts the value of the block on top of it. The operands of a list are combined from
     the right: `x₀ op (x₁ op (... op xₖ))`.
   * `run_compile_left_iff`: to combine them from the left, `((x₀ op x₁) op ...) op xₖ`,
     gives the same for every interpretation exactly if no list has more than two
     operands; it gives the same for every block if the operations are associative.

   The code of a list leaves the values of all operands on the stack before the first
   operator runs: `run_codes` is about that block of values, `run_operators` about what
   the operators make of it. -/
namespace BlockCode
universe u v
variable {V : Type v}

/-! ## Nesting -/

/-- `x₀ op (x₁ op (... op xₖ))`; no operands have no value. -/
def nestRight (op : V → V → V) : List V → Option V
  | [] => none
  | [x] => some x
  | x :: y :: xs => (nestRight op (y :: xs)).map (op x)

/-- `((x₀ op x₁) op ...) op xₖ`; no operands have no value. -/
def nestLeft (op : V → V → V) : List V → Option V
  | [] => none
  | x :: xs => some (xs.foldl op x)

theorem nestRight_concat (op : V → V → V) (xs : List V) (x : V) :
    nestRight op (xs ++ [x]) = some (xs.foldr op x) := by
  induction xs with
  | nil => rfl
  | cons y xs ih =>
    cases xs with
    | nil => rfl
    | cons z xs =>
      rw [List.cons_append, List.cons_append, nestRight, ← List.cons_append, ih]
      rfl

theorem nestLeft_eq_nestRight_of_le (op : V → V → V) {xs : List V} (h : xs.length ≤ 2) :
    nestLeft op xs = nestRight op xs := by
  match xs, h with
  | [], _ | [_], _ | [_, _], _ => rfl

theorem nestLeft_eq_nestRight_of_assoc (op : V → V → V) [Std.Associative op] (xs : List V) :
    nestLeft op xs = nestRight op xs := by
  cases xs with
  | nil => rfl
  | cons x xs =>
    induction xs generalizing x with
    | nil => rfl
    | cons y xs ih =>
      rw [nestRight, ← ih, nestLeft, nestLeft, List.foldl_cons, List.foldl_assoc]
      rfl

/-! ## Values -/

mutual

/-- The value of an expression, given how operands are combined. -/
def Expr.value (nest : (V → V → V) → List V → Option V) (I : Interpretation V) : Expr → Option V
  | constant c => some (I.constant c)
  | operation op es => (values nest I es).bind (nest (I.arith op))

def Expr.values (nest : (V → V → V) → List V → Option V) (I : Interpretation V) :
    List Expr → Option (List V)
  | [] => some []
  | e :: es => (value nest I e).bind fun x => (values nest I es).map (x :: ·)

end

theorem Expr.values_eq_some_iff {nest : (V → V → V) → List V → Option V} {I : Interpretation V}
    {es : List Expr} {xs : List V} :
    values nest I es = some xs ↔ List.Forall₂ (fun e x => e.value nest I = some x) es xs := by
  induction es generalizing xs with
  | nil => simp [values, eq_comm]
  | cons e es ih =>
    simp only [values, Option.bind_eq_some_iff, Option.map_eq_some_iff, ih,
      List.forall₂_cons_left_iff]
    constructor
    · intro h
      obtain ⟨x, hx, xs, hxs, rfl⟩ := h
      exact ⟨x, xs, hx, hxs, rfl⟩
    · intro h
      obtain ⟨x, xs, hx, hxs, rfl⟩ := h
      exact ⟨x, hx, xs, hxs, rfl⟩

theorem Expr.values_congr {nest nest' : (V → V → V) → List V → Option V} {I : Interpretation V}
    {es : List Expr} (h : ∀ e ∈ es, e.value nest I = e.value nest' I) :
    values nest I es = values nest' I es := by
  induction es with
  | nil => rw [values, values]
  | cons e es ih =>
    rw [values, values, h e List.mem_cons_self, ih fun e' he => h e' (List.mem_cons_of_mem e he)]

/-- The value of the expression that a block stands for. -/
def Evaluates {α : Type u} [Node α] (nest : (V → V → V) → List V → Option V) (I : Interpretation V)
    (node : α) (x : V) : Prop :=
  ∃ e, Denotes node e ∧ e.value nest I = some x

/-- A block has at most one value, and it is found by reading enough levels. -/
theorem evaluates_iff {α : Type u} [Node α] {nest : (V → V → V) → List V → Option V}
    {I : Interpretation V} {levels : Nat} {node : α} {x : V}
    (h : (Expr.ofNode? levels node).bind (Expr.value nest I) = some x) (y : V) :
    Evaluates nest I node y ↔ y = x := by
  obtain ⟨e, he, hx⟩ := Option.bind_eq_some_iff.mp h
  constructor
  · intro h
    obtain ⟨e', he', hy⟩ := h
    cases he'.unique ⟨levels, he⟩
    exact Option.some.inj (hy.symm.trans hx)
  · intro hy
    exact ⟨e, ⟨levels, he⟩, hy ▸ hx⟩

/-- An interpretation that tells nesting to the left from nesting to the right: all
constants weigh one, and the right operand counts double. -/
def weighing : Interpretation Nat where
  constant _ := 1
  arith _ a b := a + 2 * b

/-! ## Running -/

namespace Machine

/-- Operators take the values on the stack from the top down. -/
theorem run_operators (I : Interpretation V) (op : Arith) (x : V) (xs stack : List V) :
    run I (List.replicate xs.length (.apply op)) (x :: (xs ++ stack)) =
      some (xs.foldl (fun b a => I.arith op a b) x :: stack) := by
  induction xs generalizing x with
  | nil => rfl
  | cons y xs ih =>
    rw [List.length_cons, List.replicate_succ]
    exact ih (I.arith op y x)

/-- The operators of a list combine the values of its operands, the last of which is on
top of the stack. -/
theorem run_nest (I : Interpretation V) (op : Arith) {xs : List V} (h : xs ≠ []) :
    ∃ x, nestRight (I.arith op) xs = some x ∧ ∀ stack,
      run I (List.replicate (xs.length - 1) (.apply op)) (xs.reverse ++ stack) = some (x :: stack) := by
  -- the last value is on top, where the first operator finds it
  obtain ⟨ys, y, rfl⟩ : ∃ ys y, xs = ys ++ [y] := ⟨_, _, (List.dropLast_concat_getLast h).symm⟩
  refine ⟨ys.foldr (I.arith op) y, nestRight_concat _ ys y, ?_⟩
  intro stack
  have hrun := run_operators I op y ys.reverse stack
  rw [List.length_reverse, List.foldl_reverse] at hrun
  simpa using hrun

end Machine

theorem run_codes (I : Interpretation V) {es : List Expr} {xs : List V}
    (h : List.Forall₂ (fun e x => ∀ stack, Machine.run I e.code stack = some (x :: stack)) es xs)
    (stack : List V) : Machine.run I (es.flatMap Expr.code) stack = some (xs.reverse ++ stack) := by
  induction h generalizing stack with
  | nil => rfl
  | cons hx _ ih => rw [List.flatMap_cons, Machine.run_append, hx, Option.bind_some, ih]; simp

theorem run_code (I : Interpretation V) (e : Expr) (hne : e.Every fun _ count => count ≠ 0) :
    ∃ x, e.value nestRight I = some x ∧ ∀ stack, Machine.run I e.code stack = some (x :: stack) := by
  induction e with
  | constant c => exact ⟨I.constant c, by rw [Expr.value], fun stack => by rw [Expr.code]; rfl⟩
  | operation op es ih =>
    rw [Expr.Every] at hne
    obtain ⟨xs, hxs⟩ := exists_forall₂ fun e he => ih e he (hne.2 e he)
    have hlen := hxs.length_eq
    have hnil : xs ≠ [] := by
      intro hnil
      rw [hnil] at hlen
      exact hne.1 hlen
    obtain ⟨x, hx, hrun⟩ := Machine.run_nest I op hnil
    refine ⟨x, ?_, ?_⟩
    · rw [Expr.value, Expr.values_eq_some_iff.mpr (hxs.imp fun _ _ h => h.1)]
      exact hx
    · intro stack
      rw [Expr.code, Machine.run_append, run_codes I (hxs.imp fun _ _ h => h.2), Option.bind_some,
        hlen, hrun]

/-- The code of a block without empty lists runs on every stack and leaves the value of
the block on top of it. -/
theorem run_compile {α : Type u} [Node α] (I : Interpretation V) (o : Options) (node : α)
    {f : Fragment} (h : (compile o node).result = .ok f)
    (hne : EveryList (fun _ count => count ≠ 0) o 0 node) :
    ∃ x, (∀ y, Evaluates nestRight I node y ↔ y = x) ∧
      ∀ stack, Machine.run I f.code stack = some (x :: stack) := by
  rw [result_compile] at h
  obtain ⟨e, hreads, rfl, hlists⟩ := Compile.block_yields (Nat.zero_add _) h
  obtain ⟨x, hx, hrun⟩ := run_code I e ((hlists _ (by decide) (by decide)).mpr hne)
  exact ⟨x, evaluates_iff (by rw [hreads]; exact hx), hrun⟩

/-- A sum of three operands, of which one is missing and two are one shared block. The
number is connected back to the sum, at a slot that is not read. -/
def sharedSum : Graph where
  cells := #[
    ⟨.list .add, [], [("NUM0", 1), ("NUM1", 1)], some 3⟩,
    ⟨.binary .subtract, [], [("A", 2), ("B", 2)], none⟩,
    ⟨.number, [(numberField, "5")], [("A", 0)], none⟩]

def sharedSumCode : List Instruction :=
  [.push .five, .push .five, .apply .subtract, .push .five, .push .five, .apply .subtract,
    .push .zero, .apply .add, .apply .add]

theorem run_compile_sharedSum :
    (compile {} (⟨0, by decide⟩ : sharedSum.Ref)).result = .ok ⟨sharedSumCode, .atomic⟩ ∧
    EveryList (fun _ count => count ≠ 0) {} 0 (⟨0, by decide⟩ : sharedSum.Ref) ∧
    Evaluates nestRight weighing (⟨0, by decide⟩ : sharedSum.Ref) 13 ∧
    ∀ stack, Machine.run weighing sharedSumCode stack = some (13 :: stack) := by
  have h : (compile {} (⟨0, by decide⟩ : sharedSum.Ref)).result = .ok ⟨sharedSumCode, .atomic⟩ := by
    decide +kernel
  have hne : EveryList (fun _ count => count ≠ 0) {} 0 (⟨0, by decide⟩ : sharedSum.Ref) := by
    decide +kernel
  obtain ⟨x, hx, hrun⟩ := run_compile weighing {} (⟨0, by decide⟩ : sharedSum.Ref) h hne
  obtain rfl : x = 13 := by simpa using (hrun []).symm.trans (show _ = some [13] by decide)
  exact ⟨h, hne, (hx 13).mpr rfl, hrun⟩

/-! ## Nesting to the left -/

/-- Operands can be combined from the left if no operation of more than two operands
tells the difference. -/
theorem value_left_eq_right (I : Interpretation V) {e : Expr}
    (h : e.Every fun op count => count ≤ 2 ∨ Std.Associative (I.arith op)) :
    e.value nestLeft I = e.value nestRight I := by
  induction e with
  | constant c => rw [Expr.value, Expr.value]
  | operation op es ih =>
    rw [Expr.Every] at h
    rw [Expr.value, Expr.value, Expr.values_congr fun e he => ih e he (h.2 e he)]
    cases hxs : Expr.values nestRight I es with
    | none => rfl
    | some xs =>
      have hlen := (Expr.values_eq_some_iff.mp hxs).length_eq
      rw [hlen] at h
      rcases h.1 with h | h
      · exact nestLeft_eq_nestRight_of_le _ h
      · exact nestLeft_eq_nestRight_of_assoc _ xs

theorem run_compile_left {α : Type u} [Node α] (I : Interpretation V) {o : Options} {node : α}
    {f : Fragment} (h : (compile o node).result = .ok f)
    (hne : EveryList (fun _ count => count ≠ 0) o 0 node)
    (hnest : EveryList (fun op count => count ≤ 2 ∨ Std.Associative (I.arith op.arith)) o 0 node) :
    ∃ x, Evaluates nestLeft I node x ∧ Machine.run I f.code [] = some [x] := by
  rw [result_compile] at h
  obtain ⟨e, hreads, rfl, hlists⟩ := Compile.block_yields (Nat.zero_add _) h
  have hnest : e.Every fun op count => count ≤ 2 ∨ Std.Associative (I.arith op) :=
    (hlists _ (.inl Nat.le.refl) (.inl Nat.le.refl)).mpr hnest
  obtain ⟨x, hx, hrun⟩ := run_code I e ((hlists _ (by decide) (by decide)).mpr hne)
  exact ⟨x, ⟨e, ⟨_, hreads⟩, (value_left_eq_right I hnest).trans hx⟩, hrun []⟩

theorem nestLeft_weighing (op : Arith) (x : Nat) (xs : List Nat) :
    nestLeft (weighing.arith op) (x :: xs) = some (x + 2 * xs.sum) := by
  rw [nestLeft]
  induction xs generalizing x with
  | nil => rfl
  | cons y xs ih =>
    rw [List.foldl_cons, ih, List.sum_cons]
    simp only [weighing, Option.some.injEq]
    omega

theorem nestRight_weighing (op : Arith) (x : Nat) {xs : List Nat} (hpos : ∀ y ∈ xs, 0 < y) :
    ∃ r, nestRight (weighing.arith op) (x :: xs) = some r ∧ x + 2 * xs.sum ≤ r ∧
      (r = x + 2 * xs.sum → xs.length ≤ 1) := by
  induction xs generalizing x with
  | nil => exact ⟨x, rfl, by simp, by simp⟩
  | cons y xs ih =>
    obtain ⟨r, hr, hle, _⟩ := ih y fun z hz => hpos z (List.mem_cons_of_mem y hz)
    refine ⟨x + 2 * r, by rw [nestRight, hr]; rfl, ?_, ?_⟩
    · rw [List.sum_cons]
      omega
    · intro heq
      rw [List.sum_cons] at heq
      -- a third operand counts twice from the left and four times from the right
      cases xs with
      | nil => simp
      | cons z xs =>
        have := hpos z (by simp)
        rw [List.sum_cons] at hle heq
        omega

theorem sum_pairs {ps : List (Nat × Nat)} (h : ∀ p ∈ ps, p.1 ≤ p.2) :
    (ps.map Prod.fst).sum ≤ (ps.map Prod.snd).sum ∧
      ((ps.map Prod.fst).sum = (ps.map Prod.snd).sum → ∀ p ∈ ps, p.1 = p.2) := by
  induction ps with
  | nil => simp
  | cons p ps ih =>
    obtain ⟨hle, heq⟩ := ih fun q hq => h q (List.mem_cons_of_mem p hq)
    have hp := h p List.mem_cons_self
    simp only [List.map_cons, List.sum_cons, List.forall_mem_cons]
    refine ⟨by omega, fun hs => ⟨by omega, heq (by omega)⟩⟩

/-- Nested to the left an expression weighs no more than nested to the right, and it
weighs less if an operation has more than two operands. -/
theorem weighing_values (e : Expr) (hne : e.Every fun _ count => count ≠ 0) :
    ∃ w : Nat × Nat, e.value nestLeft weighing = some w.1 ∧ e.value nestRight weighing = some w.2 ∧
      0 < w.1 ∧ w.1 ≤ w.2 ∧ (w.1 = w.2 → e.Every fun _ count => count ≤ 2) := by
  induction e with
  | constant c => exact ⟨(1, 1), by rw [Expr.value]; rfl, by rw [Expr.value]; rfl, by simp [Expr.Every]⟩
  | operation op es ih =>
    rw [Expr.Every] at hne
    obtain ⟨ws, hws⟩ := exists_forall₂ fun e he => ih e he (hne.2 e he)
    have hlen := hws.length_eq
    have hleft : Expr.values nestLeft weighing es = some (ws.map Prod.fst) :=
      Expr.values_eq_some_iff.mpr (List.forall₂_map_right_iff.mpr (hws.imp fun _ _ h => h.1))
    have hright : Expr.values nestRight weighing es = some (ws.map Prod.snd) :=
      Expr.values_eq_some_iff.mpr (List.forall₂_map_right_iff.mpr (hws.imp fun _ _ h => h.2.1))
    have hall : ∀ w ∈ ws, 0 < w.1 ∧ w.1 ≤ w.2 := by
      intro w hw
      obtain ⟨e, _, h⟩ := exists_of_forall₂_right hws w hw
      exact ⟨h.2.2.1, h.2.2.2.1⟩
    cases ws with
    | nil => exact absurd hlen hne.1
    | cons w ws =>
      have hw := hall w List.mem_cons_self
      have hle : ∀ v ∈ ws, v.1 ≤ v.2 := fun v hv => (hall v (List.mem_cons_of_mem w hv)).2
      have hpos : ∀ y ∈ ws.map Prod.snd, 0 < y := by
        intro y hy
        obtain ⟨v, hv, rfl⟩ := List.mem_map.mp hy
        have := hall v (List.mem_cons_of_mem w hv)
        omega
      obtain ⟨hsum, hsame⟩ := sum_pairs hle
      obtain ⟨r, hr, hler, hshort⟩ := nestRight_weighing op w.2 hpos
      refine ⟨(w.1 + 2 * (ws.map Prod.fst).sum, r), ?_, ?_, by omega, by omega, ?_⟩
      · rw [Expr.value, hleft]
        exact nestLeft_weighing op _ _
      · rw [Expr.value, hright]
        exact hr
      · intro heq
        -- equal weights leave no room: the operands weigh the same too, and are at most two
        rw [List.length_map] at hshort
        have hlast := hshort (by omega)
        have hws' : ∀ v ∈ w :: ws, v.1 = v.2 :=
          List.forall_mem_cons.mpr ⟨by omega, hsame (by omega)⟩
        rw [Expr.Every]
        refine ⟨by rw [hlen, List.length_cons]; omega, ?_⟩
        intro e he
        obtain ⟨v, hv, h⟩ := exists_of_forall₂_left hws e he
        exact h.2.2.2.2 (hws' v hv)

/-- Compiled code combines the operands of lists from the left, whatever the operations
compute, exactly if no list has more than two operands; if the operations of lists are
associative it does so for every block. -/
theorem run_compile_left_iff {α : Type u} [Node α] (o : Options) (node : α) {f : Fragment}
    (h : (compile o node).result = .ok f) (hne : EveryList (fun _ count => count ≠ 0) o 0 node) :
    ((∀ (V : Type) (I : Interpretation V), ∃ x, Evaluates nestLeft I node x ∧
      Machine.run I f.code [] = some [x]) ↔ EveryList (fun _ count => count ≤ 2) o 0 node) ∧
    ∀ (V : Type v) (I : Interpretation V), (∀ op : ListOp, Std.Associative (I.arith op.arith)) →
      ∃ x, Evaluates nestLeft I node x ∧ Machine.run I f.code [] = some [x] := by
  refine ⟨⟨?_, ?_⟩, ?_⟩
  · intro hleft
    -- one interpretation is enough, in which the two nestings of a long list differ
    obtain ⟨x, ⟨e, he, hx⟩, hrun⟩ := hleft Nat weighing
    rw [result_compile] at h
    obtain ⟨e', hreads, rfl, hlists⟩ := Compile.block_yields (Nat.zero_add _) h
    cases he.unique ⟨_, hreads⟩
    have hne : e.Every fun _ count => count ≠ 0 := (hlists _ (by decide) (by decide)).mpr hne
    obtain ⟨y, hy, hrun'⟩ := run_code weighing e hne
    obtain ⟨w, hw, hw', _, _, hshort⟩ := weighing_values e hne
    have heq : w.1 = w.2 := by
      calc w.1 = x := Option.some.inj (hw.symm.trans hx)
        _ = y := by simpa using hrun.symm.trans (hrun' [])
        _ = w.2 := Option.some.inj (hy.symm.trans hw')
    exact (hlists _ (by decide) (by decide)).mp (hshort heq)
  · intro hshort V I
    exact run_compile_left I h hne (hshort.imp fun _ _ => .inl)
  · intro V I hassoc
    exact run_compile_left I h hne fun _ _ _ op _ _ _ => .inr (hassoc op)

def threeItems : Block := .list .add [some (.number "1"), some (.number "1"), some (.number "2")]

def threeItemsCode : List Instruction :=
  [.push .one, .push .one, .push .two, .apply .add, .apply .add]

theorem run_compile_left_iff_threeItems :
    (compile {} threeItems).result = .ok ⟨threeItemsCode, .atomic⟩ ∧
    EveryList (fun _ count => count ≠ 0) {} 0 threeItems ∧
    (¬ ∀ (V : Type) (I : Interpretation V), ∃ x, Evaluates nestLeft I threeItems x ∧
      Machine.run I threeItemsCode [] = some [x]) ∧
    ∀ (V : Type) (I : Interpretation V), (∀ op : ListOp, Std.Associative (I.arith op.arith)) →
      ∃ x, Evaluates nestLeft I threeItems x ∧ Machine.run I threeItemsCode [] = some [x] := by
  have h : (compile {} threeItems).result = .ok ⟨threeItemsCode, .atomic⟩ := by decide +kernel
  have hne : EveryList (fun _ count => count ≠ 0) {} 0 threeItems := by decide +kernel
  have hlong : ¬ EveryList (fun _ count => count ≤ 2) {} 0 threeItems := by decide +kernel
  obtain ⟨hiff, hassoc⟩ := run_compile_left_iff {} threeItems h hne
  exact ⟨h, hne, fun hleft => hlong (hiff.mp hleft), hassoc⟩

/-- From the left the three numbers weigh five; their code computes seven. -/
theorem run_threeItems_ne_left :
    (compile {} threeItems).result = .ok ⟨threeItemsCode, .atomic⟩ ∧
    EveryList (fun _ count => count ≠ 0) {} 0 threeItems ∧
    (∀ x, Evaluates nestLeft weighing threeItems x ↔ x = 5) ∧
    Machine.run weighing threeItemsCode [] = some [7] := by
  have hleft : (Expr.ofNode? 2 threeItems).bind (Expr.value nestLeft weighing) = some 5 := by
    decide +kernel
  exact ⟨by decide +kernel, by decide +kernel, evaluates_iff hleft, by decide⟩

end BlockCode
