import BlockCode.Proofs.StackBalance

/- How much stack compiled code takes. `Expr.need` is read off the tree: a constant takes one place,
   and the operands of an operation are computed one after the other, each on top of the values of
   those before it. `peak_compile` says that the code of a block never takes more, and takes exactly that
   much if no list is empty; and it bounds this by the limits alone.

   The analysis of code starts at any height here, since the code of an operand starts at the height
   that the operands before it have left (`peakFrom_append`). Code with an empty list in it may come
   below the height at which it started, or take from an empty stack; for such code heights are only
   bounded (`peakFrom_code_le`), for all other code they are known (`peakFrom_code`). -/
namespace BlockCode
universe u

/-! ## Heights of code put together -/

def heightFrom (height : Nat) (code : List Instruction) : Nat :=
  code.foldl (fun height i => i.heightAfter height) height

theorem le_peakFrom (height : Nat) (code : List Instruction) : height ≤ peakFrom height code := by
  cases code with
  | nil => exact Nat.le_refl _
  | cons i code => exact Nat.le_max_left _ _

theorem heightFrom_le_peakFrom (height : Nat) (code : List Instruction) :
    heightFrom height code ≤ peakFrom height code := by
  induction code generalizing height with
  | nil => exact Nat.le_refl _
  | cons i code ih => exact (ih _).trans (Nat.le_max_right _ _)

theorem heightFrom_append (height : Nat) (c d : List Instruction) :
    heightFrom height (c ++ d) = heightFrom (heightFrom height c) d :=
  List.foldl_append

theorem peakFrom_append (height : Nat) (c d : List Instruction) :
    peakFrom height (c ++ d) = max (peakFrom height c) (peakFrom (heightFrom height c) d) := by
  induction c generalizing height with
  | nil => exact (Nat.max_eq_right (le_peakFrom height d)).symm
  | cons i c ih =>
    rw [List.cons_append, peakFrom, peakFrom, ih, ← Nat.max_assoc]
    rfl

theorem heightFrom_operators (height : Nat) (op : Arith) (n : Nat) :
    heightFrom height (List.replicate n (.apply op)) = height - n := by
  induction n generalizing height with
  | zero => rfl
  | succ n ih =>
    have hstep : heightFrom height (List.replicate (n + 1) (.apply op)) =
        heightFrom (height - 1) (List.replicate n (.apply op)) := rfl
    rw [hstep, ih]
    omega

theorem peakFrom_operators (height : Nat) (op : Arith) (n : Nat) :
    peakFrom height (List.replicate n (.apply op)) = height := by
  induction n generalizing height with
  | zero => rfl
  | succ n ih =>
    rw [List.replicate_succ, peakFrom, ih]
    simp only [Instruction.heightAfter]
    omega

/-! ## What an expression needs -/

namespace Expr

mutual

/-- The places that the value of an expression takes while it is computed. -/
def need : Expr → Nat
  | constant _ => 1
  | operation _ xs => needFrom 0 xs

/-- The places that values take which are computed one after the other, if there are `held` values
already: the greatest sum of `held + i` and what the `i`-th of them needs. Two operands need what
the first needs, or what the second does on top of one value. -/
def needFrom (held : Nat) : List Expr → Nat
  | [] => 0
  | x :: xs => max (held + need x) (needFrom (held + 1) xs)

end

theorem needFrom_le {xs : List Expr} {most : Nat} (h : ∀ x ∈ xs, x.need ≤ most) (held : Nat) :
    needFrom held xs ≤ held + (xs.length - 1) + most := by
  induction xs generalizing held with
  | nil => simp [needFrom]
  | cons x xs ih =>
    have hx := h x List.mem_cons_self
    have hxs := ih (fun y hy => h y (List.mem_cons_of_mem x hy)) (held + 1)
    rw [needFrom, List.length_cons]
    cases xs with
    | nil => simp only [needFrom, List.length_nil]; omega
    | cons y xs => rw [List.length_cons] at hxs ⊢; omega

/-! ## What the code of an expression takes -/

/-- The operators of an operation come after all its operands, and then the stack is as high as it
gets. -/
theorem heightFrom_operation (height : Nat) (op : Arith) (xs : List Expr) :
    heightFrom height (operation op xs).code =
      heightFrom height (xs.flatMap code) - (xs.length - 1) := by
  rw [code, heightFrom_append, heightFrom_operators]

theorem peakFrom_operation (height : Nat) (op : Arith) (xs : List Expr) :
    peakFrom height (operation op xs).code = peakFrom height (xs.flatMap code) := by
  rw [code, peakFrom_append, peakFrom_operators]
  exact Nat.max_eq_left (heightFrom_le_peakFrom _ _)

theorem codes_le {xs : List Expr}
    (hxs : ∀ x ∈ xs, ∀ height, heightFrom height x.code ≤ height + 1 ∧
      peakFrom height x.code ≤ height + x.need)
    (base : Nat) {held height : Nat} (hheight : height ≤ base + held) :
    heightFrom height (xs.flatMap code) ≤ height + xs.length ∧
      peakFrom height (xs.flatMap code) ≤ max height (base + needFrom held xs) := by
  induction xs generalizing held height with
  | nil => exact ⟨Nat.le_refl _, Nat.le_max_left _ _⟩
  | cons x xs ih =>
    obtain ⟨hup, hpeak⟩ := hxs x List.mem_cons_self height
    have hpeak' := heightFrom_le_peakFrom height x.code
    have hheight' : heightFrom height x.code ≤ base + (held + 1) := by omega
    obtain ⟨hups, hpeaks⟩ := ih (fun y hy => hxs y (List.mem_cons_of_mem x hy)) hheight'
    rw [List.flatMap_cons, heightFrom_append, peakFrom_append, needFrom, List.length_cons]
    omega

/-- From any height, the code of an expression leaves at most one value more, and takes no more than
the expression needs. -/
theorem peakFrom_code_le (e : Expr) (height : Nat) :
    heightFrom height e.code ≤ height + 1 ∧ peakFrom height e.code ≤ height + e.need := by
  induction e generalizing height with
  | constant c => simp [code, need, heightFrom, peakFrom, Instruction.heightAfter]
  | operation op xs ih =>
    have hstart : height ≤ height + 0 := Nat.le_refl _
    obtain ⟨hups, hpeaks⟩ := codes_le ih height hstart
    rw [heightFrom_operation, peakFrom_operation, need]
    omega

theorem codes_eq {xs : List Expr}
    (hxs : ∀ x ∈ xs, ∀ height, heightFrom height x.code = height + 1 ∧
      peakFrom height x.code = height + x.need) (base held : Nat) :
    heightFrom (base + held) (xs.flatMap code) = base + held + xs.length ∧
      peakFrom (base + held) (xs.flatMap code) = max (base + held) (base + needFrom held xs) := by
  induction xs generalizing held with
  | nil => exact ⟨rfl, by simp [needFrom, peakFrom]⟩
  | cons x xs ih =>
    obtain ⟨hup, hpeak⟩ := hxs x List.mem_cons_self (base + held)
    have hpeak' := heightFrom_le_peakFrom (base + held) x.code
    obtain ⟨hups, hpeaks⟩ := ih (fun y hy => hxs y (List.mem_cons_of_mem x hy)) (held + 1)
    rw [List.flatMap_cons, heightFrom_append, peakFrom_append, needFrom, List.length_cons, hup,
      Nat.add_assoc base held 1, hups, hpeaks]
    omega

/-- If no operation is without operands, the code leaves one value more and takes what the
expression needs. -/
theorem peakFrom_code {e : Expr} (hne : e.Every fun _ count => count ≠ 0) (height : Nat) :
    heightFrom height e.code = height + 1 ∧ peakFrom height e.code = height + e.need := by
  induction e generalizing height with
  | constant c => simp [code, need, heightFrom, peakFrom, Instruction.heightAfter]
  | operation op xs ih =>
    rw [Every] at hne
    obtain ⟨hups, hpeaks⟩ := codes_eq (fun x hx => ih x hx (hne.2 x hx)) height 0
    rw [Nat.add_zero] at hups hpeaks
    rw [heightFrom_operation, peakFrom_operation, hups, hpeaks, need]
    have hpos := hne.1
    omega

end Expr

/-! ## What the limits allow -/

namespace Compile
variable {α : Type u} [Node α] {o : Options}

theorem length_slots_le {w : Nat} (hw : o.maxListItems = some w) {node : α} {op : Arith}
    {slots : List String} (h : Reading.ofNode o node = .operation op slots) :
    slots.length ≤ max 2 w := by
  obtain ⟨_, _, _, rfl⟩ | ⟨lop, count, hk, hc, _, rfl⟩ := Reading.ofNode_operation h
  · exact Nat.le_max_left _ _
  · have hle := Reading.le_limit_of_operation h hk hc w hw
    rw [itemSlots, List.length_map, List.length_range]
    omega

/-- Each level adds at most what the operands before the last one hold. -/
theorem need_le {w : Nat} (hw : o.maxListItems = some w) {levels : Nat} {node : α} {f : Fragment}
    {e : Expr} (h : (block o levels node).result = .ok f) (he : Expr.ofNode? levels node = some e) :
    e.need ≤ 1 + levels * (max 2 w - 1) := by
  induction levels generalizing node f e with
  | zero => cases h
  | succ levels ih =>
    obtain ⟨c, hc, _⟩ | ⟨op, slots, fs, hop, hfs, _⟩ := block_ok h
    · rw [Expr.ofNode?_constant hc] at he
      cases he
      simp [Expr.need]
    · rw [Expr.ofNode?_operation hop] at he
      obtain ⟨xs, hxs, rfl⟩ := Option.map_eq_some_iff.mp he
      have hxs := mapM_eq_some_iff.mp hxs
      have hneed : ∀ x ∈ xs, x.need ≤ 1 + levels * (max 2 w - 1) := by
        intro x hx
        obtain ⟨slot, hslot, hread⟩ := exists_of_forall₂_right hxs x hx
        obtain ⟨g, _, hg⟩ := exists_of_forall₂_left hfs slot hslot
        unfold Expr.ofSlot? at hread
        obtain ⟨hi, _⟩ | ⟨child, hi, hg⟩ := operand_ok hg
        · rw [hi] at hread
          cases hread
          simp [Expr.need]
        · rw [hi] at hread
          exact ih hg hread
      have hlen := length_slots_le hw hop
      rw [hxs.length_eq] at hlen
      calc (Expr.operation op xs).need
          ≤ 0 + (xs.length - 1) + (1 + levels * (max 2 w - 1)) := by
            rw [Expr.need]
            exact Expr.needFrom_le hneed 0
        _ ≤ (max 2 w - 1) + (1 + levels * (max 2 w - 1)) := by omega
        _ = 1 + (levels + 1) * (max 2 w - 1) := by rw [Nat.add_one_mul]; omega

end Compile

/-! ## Compiled code -/

def Needs {α : Type u} [Node α] (node : α) (n : Nat) : Prop := ∃ e, Denotes node e ∧ e.need = n

/-- The code of a block takes no more stack than the block needs, and takes that much if no list is
empty. A limit on lists bounds it, together with the limit on depth. -/
theorem peak_compile {α : Type u} [Node α] (o : Options) (node : α) {f : Fragment}
    (h : (compile o node).result = .ok f) :
    ∃ n, (∀ m, Needs node m ↔ m = n) ∧ f.peak ≤ n ∧
      (EveryList (fun _ count => count ≠ 0) o 0 node → f.peak = n) ∧
      ∀ w, o.maxListItems = some w → f.peak ≤ 1 + o.maxDepth * (max 2 w - 1) := by
  rw [result_compile] at h
  obtain ⟨e, hreads, rfl, hlists⟩ := Compile.block_yields (Nat.zero_add _) h
  have hle : e.fragment.peak ≤ e.need := by
    simpa [Fragment.peak, Expr.fragment] using (e.peakFrom_code_le 0).2
  refine ⟨e.need, ?_, hle, ?_, fun w hw => hle.trans (Compile.need_le hw h hreads)⟩
  · intro m
    constructor
    · rintro ⟨e', he', rfl⟩
      rw [he'.unique ⟨_, hreads⟩]
    · rintro rfl
      exact ⟨e, ⟨_, hreads⟩, rfl⟩
  · intro hne
    have hne : e.Every fun _ count => count ≠ 0 := (hlists _ (by decide) (by decide)).mpr hne
    simpa [Fragment.peak, Expr.fragment] using (Expr.peakFrom_code hne 0).2

/-- The product with a hollow in it needs three places, and its code takes less. A sum of three
numbers takes the three that it needs; with two levels and three items no code takes more than
five. -/
theorem peak_compile_hollowProduct :
    (compile {} hollowProduct).result = .ok ⟨hollowProductCode, .atomic⟩ ∧
    Needs hollowProduct 3 ∧ (⟨hollowProductCode, .atomic⟩ : Fragment).peak ≤ 3 ∧
    (⟨hollowProductCode, .atomic⟩ : Fragment).peak ≠ 3 ∧
    (compile { maxDepth := 2, maxListItems := some 3 } threeItems).result =
      .ok ⟨threeItemsCode, .atomic⟩ ∧
    Needs threeItems (⟨threeItemsCode, .atomic⟩ : Fragment).peak ∧
    (⟨threeItemsCode, .atomic⟩ : Fragment).peak ≤ 1 + 2 * (max 2 3 - 1) := by
  have hhollow : (compile {} hollowProduct).result = .ok ⟨hollowProductCode, .atomic⟩ := by
    decide +kernel
  have hthree : (compile { maxDepth := 2, maxListItems := some 3 } threeItems).result =
      .ok ⟨threeItemsCode, .atomic⟩ := by decide +kernel
  have hne : EveryList (fun _ count => count ≠ 0) { maxDepth := 2, maxListItems := some 3 } 0
      threeItems := by decide +kernel
  have hread : (Expr.ofNode? 2 hollowProduct).map Expr.need = some 3 := by decide +kernel
  obtain ⟨e, he, hneed⟩ := Option.map_eq_some_iff.mp hread
  have hneeds : Needs hollowProduct 3 := ⟨e, ⟨2, he⟩, hneed⟩
  obtain ⟨n, hn, hle, _⟩ := peak_compile {} hollowProduct hhollow
  obtain ⟨m, hm, _, hsame, hbound⟩ := peak_compile _ threeItems hthree
  rw [← (hn 3).mp hneeds] at hle
  exact ⟨hhollow, hneeds, hle, by decide, hthree, (hm _).mpr (hsame hne), hbound 3 rfl⟩

end BlockCode
