import Mathlib.Data.List.Forall2
import BlockCode.Compile

/- How the compiler reads one block. `Reading.ofNode` is everything that is decided
   at a block before any of its operands is looked at: a fault, a constant, or an
   operation on what is in some slots. Blocks with two operands and blocks with a
   list of operands read alike, since `A B op` is the list form of two operands.

   * `block_succ`: to compile a block is to read it, to compile the operands in its
     slots in order, and to put all operators behind them.
   * `block_ok` and `block_error`: what a run that ended well, or badly, has done.

   Every statement about whole trees goes by induction on the levels from these. -/
namespace BlockCode
universe u v

/-! ## Runs and their results -/

namespace Traced

theorem map_eq_bind {α β : Type u} (f : α → β) (x : Traced α) :
    x.map f = x >>= fun a => pure (f a) := by
  change x.map f = x.andThen fun a => ⟨[], .ok (f a)⟩
  cases h : x.result with
  | error e => rw [andThen_eq_of_error h, map, h]; rfl
  | ok a => rw [andThen_eq_of_ok h, map, h, List.append_nil]; rfl

theorem result_bind {α β : Type u} (x : Traced α) (f : α → Traced β) :
    (x >>= f).result = x.result >>= fun a => (f a).result := by
  change (x.andThen f).result = _
  cases h : x.result with
  | error e => rw [andThen_eq_of_error h]; rfl
  | ok a => rw [andThen_eq_of_ok h]; rfl

theorem bind_ok {α β : Type u} {x : Traced α} {f : α → Traced β} {b : β}
    (h : (x >>= f).result = .ok b) : ∃ a, x.result = .ok a ∧ (f a).result = .ok b := by
  rw [result_bind] at h
  cases hx : x.result with
  | error e => rw [hx] at h; cases h
  | ok a => rw [hx] at h; exact ⟨a, rfl, h⟩

theorem bind_error {α β : Type u} {x : Traced α} {f : α → Traced β} {e : Failure}
    (h : (x >>= f).result = .error e) :
    x.result = .error e ∨ ∃ a, x.result = .ok a ∧ (f a).result = .error e := by
  rw [result_bind] at h
  cases hx : x.result with
  | error e' => rw [hx] at h; cases h; exact .inl rfl
  | ok a => rw [hx] at h; exact .inr ⟨a, rfl, h⟩

/-- A traversal that succeeds has succeeded everywhere. -/
theorem mapM_ok {ι : Type v} {β : Type u} {f : ι → Traced β} {l : List ι} {bs : List β}
    (h : (l.mapM f).result = .ok bs) : List.Forall₂ (fun i b => (f i).result = .ok b) l bs := by
  induction l generalizing bs with
  | nil => cases h; exact .nil
  | cons i l ih =>
    rw [List.mapM_cons] at h
    obtain ⟨b, hb, h⟩ := bind_ok h
    obtain ⟨bs', hbs, h⟩ := bind_ok h
    cases h
    exact .cons hb (ih hbs)

theorem mapM_of_forall₂ {ι : Type v} {β : Type u} {f : ι → Traced β} {l : List ι} {bs : List β}
    (h : List.Forall₂ (fun i b => (f i).result = .ok b) l bs) : (l.mapM f).result = .ok bs := by
  induction h with
  | nil => rfl
  | cons hb _ ih =>
    simp only [List.mapM_cons, result_bind, hb, ih]
    rfl

/-- A traversal that fails has succeeded up to the element it fails at. -/
theorem mapM_error {ι : Type v} {β : Type u} {f : ι → Traced β} {l : List ι} {e : Failure}
    (h : (l.mapM f).result = .error e) : ∃ before i after, l = before ++ i :: after ∧
      (∀ j ∈ before, ∃ b, (f j).result = .ok b) ∧ (f i).result = .error e := by
  induction l with
  | nil => cases h
  | cons i l ih =>
    rw [List.mapM_cons] at h
    obtain hi | ⟨b, hb, h⟩ := bind_error h
    · exact ⟨[], i, l, rfl, by simp, hi⟩
    · obtain hl | ⟨bs, _, h⟩ := bind_error h
      · obtain ⟨before, j, after, rfl, hbefore, hj⟩ := ih hl
        refine ⟨i :: before, j, after, rfl, ?_, hj⟩
        intro k hk
        obtain rfl | hk := List.mem_cons.mp hk
        · exact ⟨b, hb⟩
        · exact hbefore k hk
      · cases h

end Traced

theorem exists_of_forall₂_left {ι β : Type*} {R : ι → β → Prop} {l : List ι} {m : List β}
    (h : List.Forall₂ R l m) : ∀ i ∈ l, ∃ b ∈ m, R i b := by
  induction h with
  | nil => simp
  | cons hab _ ih =>
    intro i hi
    obtain rfl | hi := List.mem_cons.mp hi
    · exact ⟨_, List.mem_cons_self, hab⟩
    · obtain ⟨b, hb, hR⟩ := ih i hi
      exact ⟨b, List.mem_cons_of_mem _ hb, hR⟩

theorem exists_of_forall₂_right {ι β : Type*} {R : ι → β → Prop} {l : List ι} {m : List β}
    (h : List.Forall₂ R l m) : ∀ b ∈ m, ∃ i ∈ l, R i b :=
  exists_of_forall₂_left (List.Forall₂.flip h)

/-! ## One block -/

def ListOp.arith : ListOp → Arith
  | add => .add
  | multiply => .multiply

def itemSlots (count : Nat) : List String := (List.range count).map listSlot

/-- What the compiler finds at one block. -/
inductive Reading where
  | fault (fault : Fault)
  | constant (c : Constant)
  | operation (op : Arith) (slots : List String)

namespace Reading
variable {α : Type u} [Node α]

/-- The reading of a block that is not too deep. -/
def ofNode (o : Options) (node : α) : Reading :=
  match Node.kind node with
  | .number =>
    match Node.field node numberField with
    | none => fault (.malformed (.missingField numberField))
    | some text =>
      match Constant.ofLiteral? text with
      | none => fault (.unsupportedLiteral text)
      | some c => constant c
  | .binary .subtract => operation .subtract [slotA, slotB]
  | .binary .divide => operation .divide [slotA, slotB]
  | .binary .power => fault (.unimplementedOperator .power)
  | .compare => fault (.unimplemented "math_compare")
  | .list op =>
    match Node.itemCount node with
    | none => fault (.malformed .missingItemCount)
    | some count =>
      match o.maxListItems with
      | none => operation op.arith (itemSlots count)
      | some limit =>
        if limit < count then fault (.malformed (.tooManyItems count limit))
        else operation op.arith (itemSlots count)

/-- The reading of a block at a depth. The root is at depth zero; a block that is too
deep is not looked at. -/
def atDepth (o : Options) (depth : Nat) (node : α) : Reading :=
  if o.maxDepth ≤ depth then fault (.malformed (.depthExceeded o.maxDepth)) else ofNode o node

def slots : Reading → List String
  | operation _ slots => slots
  | fault _ | constant _ => []

theorem atDepth_of_lt {o : Options} {depth : Nat} (h : depth < o.maxDepth) (node : α) :
    atDepth o depth node = ofNode o node := if_neg (Nat.not_le.mpr h)

theorem ofNode_constant {o : Options} {node : α} {c : Constant} (h : ofNode o node = .constant c) :
    Node.kind node = .number ∧ (Node.field node numberField).bind Constant.ofLiteral? = some c := by
  unfold ofNode at h
  cases hk : Node.kind node with
  | number =>
    simp only [hk] at h
    split at h
    · cases h
    · next text ht =>
      split at h <;> cases h
      next hc => exact ⟨rfl, by rw [ht]; exact hc⟩
  | compare => simp only [hk] at h; cases h
  | binary bop => cases bop <;> simp only [hk] at h <;> cases h
  | list lop =>
    simp only [hk] at h
    split at h
    · cases h
    · split at h
      · cases h
      · split at h <;> cases h

theorem ofNode_operation {o : Options} {node : α} {op : Arith} {slots : List String}
    (h : ofNode o node = .operation op slots) :
    (∃ bop, Node.kind node = .binary bop ∧ bop.operator.arith? = some op ∧ slots = [slotA, slotB]) ∨
      ∃ lop count, Node.kind node = .list lop ∧ Node.itemCount node = some count ∧ op = lop.arith ∧
        slots = itemSlots count := by
  unfold ofNode at h
  cases hk : Node.kind node with
  | number =>
    simp only [hk] at h
    split at h
    · cases h
    · split at h <;> cases h
  | compare => simp only [hk] at h; cases h
  | binary bop =>
    cases bop with
    | power => simp only [hk] at h; cases h
    | subtract | divide => simp only [hk] at h; cases h; exact .inl ⟨_, rfl, rfl, rfl⟩
  | list lop =>
    simp only [hk] at h
    split at h
    · cases h
    · next count hc =>
      split at h
      · cases h; exact .inr ⟨lop, count, rfl, hc, rfl, rfl⟩
      · split at h <;> cases h
        exact .inr ⟨lop, count, rfl, hc, rfl, rfl⟩

/-- The block has the fault, whatever its depth. -/
inductive Faulty (o : Options) (node : α) : Fault → Prop where
  | missingField : Node.kind node = .number → Node.field node numberField = none →
    Faulty o node (.malformed (.missingField numberField))
  | unsupportedLiteral {text : String} : Node.kind node = .number →
    Node.field node numberField = some text → Constant.ofLiteral? text = none →
    Faulty o node (.unsupportedLiteral text)
  | unimplementedOperator : Node.kind node = .binary .power →
    Faulty o node (.unimplementedOperator .power)
  | unimplemented : Node.kind node = .compare → Faulty o node (.unimplemented "math_compare")
  | missingItemCount {op : ListOp} : Node.kind node = .list op → Node.itemCount node = none →
    Faulty o node (.malformed .missingItemCount)
  | tooManyItems {op : ListOp} {count limit : Nat} : Node.kind node = .list op →
    Node.itemCount node = some count → o.maxListItems = some limit → limit < count →
    Faulty o node (.malformed (.tooManyItems count limit))

theorem ofNode_fault {o : Options} {node : α} {fault : Fault} (h : ofNode o node = .fault fault) :
    Faulty o node fault := by
  unfold ofNode at h
  cases hk : Node.kind node with
  | number =>
    simp only [hk] at h
    split at h
    · next ht => cases h; exact .missingField hk ht
    · next text ht =>
      split at h <;> cases h
      next hc => exact .unsupportedLiteral hk ht hc
  | compare => simp only [hk] at h; cases h; exact .unimplemented hk
  | binary op =>
    cases op <;> simp only [hk] at h <;> cases h
    exact .unimplementedOperator hk
  | list op =>
    simp only [hk] at h
    split at h
    · next hc => cases h; exact .missingItemCount hk hc
    · next count hc =>
      split at h
      · cases h
      · next limit hl =>
        split at h <;> cases h
        next hlt => exact .tooManyItems hk hc hl hlt

theorem ofNode_list {o : Options} {node : α} {op : ListOp} {count : Nat}
    (hk : Node.kind node = .list op) (hc : Node.itemCount node = some count)
    (hle : ∀ limit ∈ o.maxListItems, count ≤ limit) :
    ofNode o node = .operation op.arith (itemSlots count) := by
  simp only [ofNode, hk, hc]
  cases hl : o.maxListItems with
  | none => rfl
  | some limit => exact if_neg (Nat.not_lt.mpr (hle limit hl))

theorem le_limit_of_operation {o : Options} {node : α} {op : Arith} {slots : List String}
    {lop : ListOp} {count : Nat} (h : ofNode o node = .operation op slots)
    (hk : Node.kind node = .list lop) (hc : Node.itemCount node = some count) :
    ∀ limit ∈ o.maxListItems, count ≤ limit := by
  intro limit hl
  simp only [ofNode, hk, hc, Option.mem_def.mp hl] at h
  split at h
  · cases h
  · next hle => exact Nat.not_lt.mp hle

end Reading

namespace Compile
variable {α : Type u} [Node α]

/-- The code of an operation on what is in some slots. -/
def operation (resolve : String → Traced Fragment) (op : Arith) (slots : List String) :
    Traced Fragment := do
  let fs ← slots.mapM resolve
  pure ⟨fs.flatMap Fragment.code ++ List.replicate (slots.length - 1) (.apply op), .atomic⟩

theorem items_eq_mapM (resolve : String → Traced Fragment) (i count : Nat) :
    items resolve i count = ((List.range' i count).map listSlot).mapM resolve >>= fun fs =>
      pure (fs.flatMap Fragment.code) := by
  induction count generalizing i with
  | zero => rfl
  | succ count ih =>
    simp only [items, ih, Traced.map_eq_bind, List.range'_succ, List.map_cons, List.mapM_cons,
      bind_assoc, pure_bind, List.flatMap_cons]

/-- Every encoding is atomic. -/
theorem encoding_eq (op : Operator) :
    encoding op =
      match op.arith? with
      | some a => pure ⟨.apply a, .atomic⟩
      | none => .fail (.unimplementedOperator op) := by
  unfold encoding Operator.encoding?
  cases op.arith? <;> rfl

theorem arith?_operator (op : ListOp) : op.operator.arith? = some op.arith := by
  cases op <;> rfl

theorem operation_pair (resolve : String → Traced Fragment) (op : Arith) (s t : String) :
    operation resolve op [s, t] = (do
      let a ← resolve s
      let b ← resolve t
      pure ⟨a.code ++ b.code ++ [.apply op], .atomic⟩) := by
  simp [operation]

theorem operation_items (resolve : String → Traced Fragment) (op : Arith) (count : Nat) :
    operation resolve op (itemSlots count) = (do
      let code ← items resolve 0 count
      pure ⟨code ++ List.replicate (count - 1) (.apply op), .atomic⟩) := by
  simp [operation, items_eq_mapM, itemSlots, List.range_eq_range']

/-- To compile a block is to read it and to compile what the reading asks for. -/
theorem block_succ (o : Options) (levels : Nat) (node : α) :
    block o (levels + 1) node =
      match Reading.ofNode o node with
      | .fault fault => .fail fault
      | .constant c => pure (Fragment.constant (.push c))
      | .operation op slots => operation (operand .atomic (block o levels) node) op slots := by
  simp only [block, Reading.ofNode]
  cases Node.kind node with
  | number =>
    simp only [number]
    cases Node.field node numberField with
    | none => rfl
    | some text => cases h : Constant.ofLiteral? text <;> simp [h]
  | compare => rfl
  | binary op =>
    cases op with
    | power => rfl
    | subtract | divide =>
      simp only [encoding_eq, BinaryOp.operator, Operator.arith?, pure_bind, operation_pair]
  | list op =>
    -- both lists have an encoding, so what is left to go wrong is the number of items
    simp only [encoding_eq, arith?_operator, itemCount, pure_bind]
    cases Node.itemCount node with
    | none => rfl
    | some count =>
      cases o.maxListItems with
      | none => simp only [operation_items, pure_bind]
      | some limit =>
        by_cases h : limit < count
        · simp only [h, if_true]; rfl
        · simp only [h, if_false, operation_items, pure_bind]

/-! ## Taking a finished run apart -/

section Operand
variable {context : Precedence} {compile : α → Traced Fragment} {node : α} {slot : String}

theorem operand_ok {f : Fragment} (h : (operand context compile node slot).result = .ok f) :
    (Node.input node slot = none ∧ f = Fragment.constant (.push .zero)) ∨
      ∃ child, Node.input node slot = some child ∧ (compile child).result = .ok f := by
  unfold operand at h
  cases hi : Node.input node slot with
  | none =>
    rw [hi] at h
    cases h
    exact .inl ⟨rfl, rfl⟩
  | some child =>
    rw [hi] at h
    obtain ⟨_, _, h⟩ := Traced.bind_ok h
    refine .inr ⟨child, rfl, ?_⟩
    unfold Traced.within at h
    cases hc : (compile child).result with
    | error e => rw [hc] at h; cases h
    | ok g => rw [hc] at h; exact h

theorem operand_of_none (h : Node.input node slot = none) :
    (operand context compile node slot).result = .ok (Fragment.constant (.push .zero)) := by
  rw [operand, h]
  rfl

theorem operand_ok_iff {child : α} {f : Fragment} (h : Node.input node slot = some child) :
    (operand context compile node slot).result = .ok f ↔ (compile child).result = .ok f := by
  constructor
  · intro hf
    obtain ⟨hnone, _⟩ | ⟨child', hchild, hf⟩ := operand_ok hf
    · rw [h] at hnone
      cases hnone
    · rw [h] at hchild
      cases hchild
      exact hf
  · intro hf
    simp only [operand, h, Traced.result_bind, Traced.within, hf]
    rfl

theorem operand_error {e : Failure} (h : (operand context compile node slot).result = .error e) :
    ∃ child e', Node.input node slot = some child ∧ (compile child).result = .error e' ∧
      e = ⟨e'.fault, slot :: e'.path⟩ := by
  unfold operand at h
  cases hi : Node.input node slot with
  | none => rw [hi] at h; cases h
  | some child =>
    rw [hi] at h
    obtain h | ⟨_, _, h⟩ := Traced.bind_error h
    · cases h
    · unfold Traced.within at h
      cases hc : (compile child).result with
      | ok g => rw [hc] at h; cases h
      | error e' => rw [hc] at h; cases h; exact ⟨child, e', rfl, hc, rfl⟩

end Operand

/-- A block that compiles is a constant, or an operation all of whose operands
compile. -/
theorem block_ok {o : Options} {levels : Nat} {node : α} {f : Fragment}
    (h : (block o (levels + 1) node).result = .ok f) :
    (∃ c, Reading.ofNode o node = .constant c ∧ f = Fragment.constant (.push c)) ∨
      ∃ op slots fs, Reading.ofNode o node = .operation op slots ∧
        List.Forall₂ (fun slot g => (operand .atomic (block o levels) node slot).result = .ok g)
          slots fs ∧
        f = ⟨fs.flatMap Fragment.code ++ List.replicate (slots.length - 1) (.apply op), .atomic⟩ := by
  rw [block_succ] at h
  cases hr : Reading.ofNode o node with
  | fault fault => rw [hr] at h; cases h
  | constant c => rw [hr] at h; cases h; exact .inl ⟨c, rfl, rfl⟩
  | operation op slots =>
    rw [hr] at h
    obtain ⟨fs, hfs, h⟩ := Traced.bind_ok h
    cases h
    exact .inr ⟨op, slots, fs, rfl, Traced.mapM_ok hfs, rfl⟩

theorem exists_operand_of_ok {o : Options} {levels : Nat} {node : α} {f : Fragment}
    (h : (block o (levels + 1) node).result = .ok f) :
    ∀ slot ∈ (Reading.ofNode o node).slots,
      ∃ g, (operand .atomic (block o levels) node slot).result = .ok g := by
  intro slot hslot
  obtain ⟨c, hc, _⟩ | ⟨op, slots, fs, hop, hfs, _⟩ := block_ok h
  · rw [hc] at hslot
    cases hslot
  · rw [hop] at hslot
    obtain ⟨g, _, hg⟩ := exists_of_forall₂_left hfs slot hslot
    exact ⟨g, hg⟩

/-- A block that does not compile has a fault itself, or its first operand that
does not compile is in one of its slots. -/
theorem block_error {o : Options} {levels : Nat} {node : α} {e : Failure}
    (h : (block o (levels + 1) node).result = .error e) :
    (∃ fault, Reading.ofNode o node = .fault fault ∧ e = ⟨fault, []⟩) ∨
      ∃ op before slot after, Reading.ofNode o node = .operation op (before ++ slot :: after) ∧
        (∀ s ∈ before, ∃ g, (operand .atomic (block o levels) node s).result = .ok g) ∧
        ∃ child e', Node.input node slot = some child ∧ (block o levels child).result = .error e' ∧
          e = ⟨e'.fault, slot :: e'.path⟩ := by
  rw [block_succ] at h
  cases hr : Reading.ofNode o node with
  | fault fault => rw [hr] at h; cases h; exact .inl ⟨fault, rfl, rfl⟩
  | constant c => rw [hr] at h; cases h
  | operation op slots =>
    rw [hr] at h
    obtain h | ⟨fs, _, h⟩ := Traced.bind_error h
    · obtain ⟨before, slot, after, rfl, hbefore, hslot⟩ := Traced.mapM_error h
      exact .inr ⟨op, before, slot, after, rfl, hbefore, operand_error hslot⟩
    · cases h

end Compile

/-- The last event changes nothing in the result. -/
theorem result_compile {α : Type u} [Node α] (o : Options) (node : α) :
    (compile o node).result = (Compile.block o o.maxDepth node).result := by
  rw [compile, Traced.result_bind]
  cases (Compile.block o o.maxDepth node).result <;> rfl

end BlockCode
