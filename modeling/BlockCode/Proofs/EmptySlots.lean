import Mathlib
import BlockCode.Block
import BlockCode.Proofs.FirstFault

/- An empty slot stands for the literal `0`. `Block.fill` connects a number block with this literal to
   every empty slot that is read, in the whole tree. `compile_fill` says that the code is the same
   with and without these blocks. What differs is the depth: a block that is connected lies one
   level further down, an empty slot does not, so a tree that is filled may need one level more. It
   does so exactly if an empty slot is read at the last level there is.

   `input_fill` says what is in the slots of a filled block, and that it is read as before
   (`reading_fill`). The rest goes by induction on the levels, with `block_of_operands`: where
   blocks are read alike, and what is in their slots compiles alike, they compile alike. -/
namespace BlockCode
universe u v

/-! ## Filling -/

namespace Block

/-- The slots that are read of a block under a list limit: both of a difference or a quotient, and
those of the items of a list that is within the limit. -/
def readSlots (limit : Option Nat) (b : Block) : List String :=
  match b.kind, b.itemCount with
  | .binary .subtract, _ | .binary .divide, _ => [slotA, slotB]
  | .list _, some count => if limit.all (count ≤ ·) then itemSlots count else []
  | _, _ => []

/-- Connects the literal `0` to those of the slots that are empty. -/
def withZeros (b : Block) : List String → Block
  | [] => b
  | slot :: rest =>
    (if (b.input slot).isNone then b.withInput slot (.number "0") else b).withZeros rest

mutual

/-- Connects the literal `0` to the empty slots that are read, of the block and of all blocks in it. -/
def fill (limit : Option Nat) : Block → Block
  | ⟨kind, fields, inputs, count⟩ =>
    withZeros ⟨kind, fields, fillInputs limit inputs, count⟩
      (readSlots limit ⟨kind, fields, inputs, count⟩)

def fillInputs (limit : Option Nat) : List (String × Block) → List (String × Block)
  | [] => []
  | (slot, b) :: rest => (slot, fill limit b) :: fillInputs limit rest

end

variable {limit : Option Nat}

/-- Only slots that are empty change, and nothing else of a block. -/
theorem withZeros_spec (b : Block) (slots : List String) :
    (b.withZeros slots).kind = b.kind ∧ (b.withZeros slots).fields = b.fields ∧
      (b.withZeros slots).itemCount = b.itemCount ∧
      ∀ name, (b.withZeros slots).input name =
        (b.input name).or (if name ∈ slots then some (.number "0") else none) := by
  induction slots generalizing b with
  | nil => simp [withZeros]
  | cons slot slots ih =>
    rw [withZeros]
    obtain ⟨hkind, hfields, hcount, hinput⟩ := ih
      (if (b.input slot).isNone then b.withInput slot (.number "0") else b)
    rw [hkind, hfields, hcount]
    refine ⟨by split <;> rfl, by split <;> rfl, by split <;> rfl, ?_⟩
    intro name
    rw [hinput]
    cases hslot : b.input slot with
    | none =>
      by_cases hname : name = slot
      · subst hname
        simp [hslot, input_withInput]
      · simp [hname, input_withInput]
    | some child =>
      by_cases hname : name = slot
      · subst hname
        simp [hslot]
      · simp [hname]

theorem get?_fillInputs (table : Table Block) (name : String) :
    Table.get? (fillInputs limit table) name = (table.get? name).map (fill limit) := by
  induction table with
  | nil => rw [fillInputs]; rfl
  | cons entry table ih =>
    obtain ⟨slot, b⟩ := entry
    rw [fillInputs, Table.get?_cons, Table.get?_cons, ih]
    split <;> rfl

theorem fill_spec (limit : Option Nat) (b : Block) :
    (b.fill limit).kind = b.kind ∧ (b.fill limit).fields = b.fields ∧
      (b.fill limit).itemCount = b.itemCount ∧
      ∀ name, (b.fill limit).input name = ((b.input name).map (fill limit)).or
        (if name ∈ b.readSlots limit then some (.number "0") else none) := by
  obtain ⟨kind, fields, inputs, count⟩ := b
  rw [fill]
  obtain ⟨hkind, hfields, hcount, hinput⟩ := withZeros_spec
    ⟨kind, fields, fillInputs limit inputs, count⟩ (readSlots limit ⟨kind, fields, inputs, count⟩)
  refine ⟨hkind, hfields, hcount, ?_⟩
  intro name
  rw [hinput, input, get?_fillInputs]
  rfl

/-- In a slot that is read there is what was there, filled, or the literal `0`. -/
theorem input_fill {b : Block} {slot : String} (h : slot ∈ b.readSlots limit) :
    (b.fill limit).input slot = some ((b.input slot).elim (.number "0") (fill limit)) := by
  rw [(fill_spec limit b).2.2.2, if_pos h]
  cases b.input slot <;> rfl

theorem slots_reading (o : Options) (b : Block) :
    (Reading.ofNode o b).slots = b.readSlots o.maxListItems := by
  obtain ⟨kind, fields, inputs, count⟩ := b
  cases hr : Reading.ofNode o (⟨kind, fields, inputs, count⟩ : Block) with
  | fault fault =>
    cases Reading.ofNode_fault hr with
    | missingField hk | unsupportedLiteral hk | unimplementedOperator hk | unimplemented hk =>
      obtain rfl : kind = _ := hk
      rfl
    | missingItemCount hk hc =>
      obtain rfl : kind = _ := hk
      obtain rfl : count = _ := hc
      rfl
    | tooManyItems hk hc hl hlt =>
      obtain rfl : kind = _ := hk
      obtain rfl : count = _ := hc
      simp [readSlots, hl, hlt, Reading.slots]
  | constant c =>
    obtain rfl : kind = _ := (Reading.ofNode_constant hr).1
    rfl
  | operation op slots =>
    obtain ⟨bop, hk, hop, rfl⟩ | ⟨lop, n, hk, hc, _, rfl⟩ := Reading.ofNode_operation hr
    · obtain rfl : kind = _ := hk
      cases bop with
      | power => cases hop
      | subtract | divide => rfl
    · have hwithin : o.maxListItems.all (n ≤ ·) = true := by
        simpa [Option.all_eq_true] using Reading.le_limit_of_operation hr hk hc
      obtain rfl : kind = _ := hk
      obtain rfl : count = _ := hc
      simp [readSlots, Reading.slots, hwithin]

theorem reading_fill (o : Options) (b : Block) :
    Reading.ofNode o (b.fill limit) = Reading.ofNode o b := by
  obtain ⟨hkind, hfields, hcount, _⟩ := fill_spec limit b
  have hkind : Node.kind (b.fill limit) = Node.kind b := hkind
  have hcount : Node.itemCount (b.fill limit) = Node.itemCount b := hcount
  have hfield : Node.field (b.fill limit) numberField = Node.field b numberField :=
    congrArg (fun fields => Table.get? fields numberField) hfields
  simp only [Reading.ofNode, hkind, hcount, hfield]

end Block

/-! ## Compiling -/

namespace Compile
variable {α : Type u} {β : Type v} [Node α] [Node β] {o o' : Options} {levels levels' : Nat}
  {f : Fragment}

/-- A block compiles to what another does that is read alike, if what is in the slots does. -/
theorem block_of_operands {x : α} {y : β} (hr : Reading.ofNode o' y = Reading.ofNode o x)
    (hslots : ∀ slot ∈ (Reading.ofNode o x).slots, ∀ g,
      (operand .atomic (block o levels) x slot).result = .ok g →
        (operand .atomic (block o' levels') y slot).result = .ok g)
    (h : (block o (levels + 1) x).result = .ok f) : (block o' (levels' + 1) y).result = .ok f := by
  rw [block_succ, hr]
  obtain ⟨c, hc, rfl⟩ | ⟨op, slots, fs, hop, hfs, rfl⟩ := block_ok h
  · rw [hc]
    rfl
  · rw [hop] at hslots ⊢
    have hfs' : List.Forall₂
        (fun slot g => (operand .atomic (block o' levels') y slot).result = .ok g) slots fs :=
      ((List.forall₂_and_left slots fs).mpr ⟨hslots, hfs⟩).imp fun _ g h => h.1 g h.2
    simp only [operation, Traced.result_bind, Traced.mapM_of_forall₂ hfs']
    rfl

theorem block_zero (o : Options) (levels : Nat) :
    (block o (levels + 1) (Block.number "0")).result = .ok (Fragment.constant (.push .zero)) := by
  have hzero : Constant.ofLiteral? "0" = some .zero := by decide +kernel
  have hreading : Reading.ofNode o (Block.number "0") = .constant .zero := by
    have hkind : Node.kind (Block.number "0") = .number := rfl
    have hfield : Node.field (Block.number "0") numberField = some "0" := rfl
    simp only [Reading.ofNode, hkind, hfield, hzero]
  rw [block_succ, hreading]
  rfl

variable {b : Block} {slot : String} {g : Fragment}

theorem operand_of_fill (hslot : slot ∈ b.readSlots o.maxListItems)
    (ih : ∀ c : Block, (block o levels (c.fill o.maxListItems)).result = .ok g →
      (block o levels c).result = .ok g)
    (h : (operand .atomic (block o levels) (b.fill o.maxListItems) slot).result = .ok g) :
    (operand .atomic (block o levels) b slot).result = .ok g := by
  have hg := (operand_ok_iff (Block.input_fill hslot)).mp h
  cases hi : b.input slot with
  | none =>
    rw [hi, Option.elim_none] at hg
    cases levels with
    | zero => cases hg
    | succ levels =>
      rw [block_zero] at hg
      cases hg
      exact operand_of_none hi
  | some c =>
    rw [hi, Option.elim_some] at hg
    exact (operand_ok_iff hi).mpr (ih c hg)

theorem operand_fill {limit : Option Nat} (hslot : slot ∈ b.readSlots limit)
    (hzero : b.input slot = none → 0 < levels')
    (ih : ∀ c : Block, b.input slot = some c → (block o levels c).result = .ok g →
      (block o' levels' (c.fill limit)).result = .ok g)
    (h : (operand .atomic (block o levels) b slot).result = .ok g) :
    (operand .atomic (block o' levels') (b.fill limit) slot).result = .ok g := by
  refine (operand_ok_iff (Block.input_fill hslot)).mpr ?_
  obtain ⟨hi, rfl⟩ | ⟨c, hi, hg⟩ := operand_ok h
  · have hi : b.input slot = none := hi
    obtain ⟨n, rfl⟩ : ∃ n, levels' = n + 1 := ⟨levels' - 1, by have := hzero hi; omega⟩
    rw [hi]
    exact block_zero o' n
  · have hi : b.input slot = some c := hi
    rw [hi]
    exact ih c hi hg

/-- What a filled block compiles to, the block itself compiles to. -/
theorem block_of_fill (h : (block o levels (b.fill o.maxListItems)).result = .ok f) :
    (block o levels b).result = .ok f := by
  induction levels generalizing b f with
  | zero => cases h
  | succ levels ih =>
    refine block_of_operands (Block.reading_fill o b).symm ?_ h
    intro slot hslot g hg
    rw [Block.reading_fill, Block.slots_reading] at hslot
    exact operand_of_fill hslot (fun c hc => ih hc) hg

/-- With one level more, a filled block compiles to what the block itself does. -/
theorem block_fill_succ (m : Nat) (h : (block o levels b).result = .ok f) :
    (block { o with maxDepth := m } (levels + 1) (b.fill o.maxListItems)).result = .ok f := by
  induction levels generalizing b f with
  | zero => cases h
  | succ levels ih =>
    have hr : Reading.ofNode { o with maxDepth := m } (b.fill o.maxListItems) =
        Reading.ofNode o b := by
      rw [Block.reading_fill]
      rfl
    refine block_of_operands hr ?_ h
    intro slot hslot g hg
    rw [Block.slots_reading] at hslot
    refine operand_fill hslot ?_ ?_ hg
    · intro _
      omega
    · intro c _ hc
      exact ih hc

end Compile

/-! ## The last level -/

/-- No slot is empty that is read at the last level, of a block at a depth and the blocks in it. -/
def FullAtBottom (o : Options) (depth : Nat) (b : Block) : Prop :=
  ∀ path c, Reaches o depth b path c → depth + path.length + 1 = o.maxDepth →
    ∀ slot ∈ c.readSlots o.maxListItems, c.input slot ≠ none

section
variable {o : Options} {levels depth : Nat} {b : Block} {f : Fragment}

theorem mem_slots_atDepth_iff {slot : String} : slot ∈ (Reading.atDepth o depth b).slots ↔
    depth < o.maxDepth ∧ slot ∈ b.readSlots o.maxListItems := by
  by_cases hd : depth < o.maxDepth
  · simp [Reading.atDepth_of_lt hd, Block.slots_reading, hd]
  · simp [Reading.atDepth, Nat.not_lt.mp hd, hd, Reading.slots]

theorem atDepth_fill (o : Options) (depth : Nat) (b : Block) :
    Reading.atDepth o depth (b.fill o.maxListItems) = Reading.atDepth o depth b := by
  rw [Reading.atDepth, Reading.atDepth, Block.reading_fill]

theorem Reaches.fill {path : Path} {c : Block} (h : Reaches o depth b path c) :
    Reaches o depth (b.fill o.maxListItems) path (c.fill o.maxListItems) := by
  induction h with
  | root => exact .root
  | @slot depth b child c slot path hslot hchild _ ih =>
    have hinput := Block.input_fill (mem_slots_atDepth_iff.mp hslot).2
    have hchild : b.input slot = some child := hchild
    rw [hchild] at hinput
    refine .slot ?_ hinput ih
    rw [atDepth_fill]
    exact hslot

/-- Without an empty slot at the last level, no level more is needed. -/
theorem Compile.block_fill (hd : depth + levels = o.maxDepth) (hfull : FullAtBottom o depth b)
    (h : (block o levels b).result = .ok f) :
    (block o levels (b.fill o.maxListItems)).result = .ok f := by
  induction levels generalizing depth b f with
  | zero => cases h
  | succ levels ih =>
    refine block_of_operands (Block.reading_fill o b) ?_ h
    intro slot hslot g hg
    rw [Block.slots_reading] at hslot
    refine operand_fill hslot ?_ ?_ hg
    · -- if no level were left for the literal, this would be the last level
      intro hempty
      by_contra hlast
      exact hfull [] b .root (by rw [List.length_nil]; omega) slot hslot hempty
    · intro c hchild hc
      refine ih (by omega : depth + 1 + levels = o.maxDepth) ?_ hc
      intro path d hr hlast
      have hat : slot ∈ (Reading.atDepth o depth b).slots :=
        mem_slots_atDepth_iff.mpr ⟨by omega, hslot⟩
      exact hfull (slot :: path) d (.slot hat hchild hr) (by rw [depth_cons]; exact hlast)

/-- In a filled block that compiles, no literal `0` is too deep. -/
theorem fullAtBottom_of_fill (hd : depth + levels = o.maxDepth)
    (h : (Compile.block o levels (b.fill o.maxListItems)).result = .ok f) : FullAtBottom o depth b := by
  intro path c hr hlast slot hslot hempty
  have hinput := Block.input_fill hslot
  rw [hempty] at hinput
  have hat : slot ∈ (Reading.atDepth o (depth + path.length) (c.fill o.maxListItems)).slots := by
    rw [atDepth_fill]
    exact mem_slots_atDepth_iff.mpr ⟨by omega, hslot⟩
  have hzero := reaches_concat_iff.mpr ⟨_, hr.fill, hat, hinput⟩
  refine reading_ne_fault_of_ok hd h hzero (.malformed (.depthExceeded o.maxDepth)) (if_pos ?_)
  rw [List.length_append, List.length_singleton]
  omega

end

/-- An empty slot stands for the literal `0`. What a filled tree compiles to, the tree itself compiles
to; what a tree compiles to, it compiles to when it is filled, if one level more is allowed. That is
needed exactly if an empty slot is read at the last level. -/
theorem compile_fill (o : Options) (t : Block) (f : Fragment) :
    ((compile o (t.fill o.maxListItems)).result = .ok f → (compile o t).result = .ok f) ∧
    ((compile o t).result = .ok f → (compile { o with maxDepth := o.maxDepth + 1 }
      (t.fill o.maxListItems)).result = .ok f) ∧
    ((compile o (t.fill o.maxListItems)).result = .ok f ↔
      (compile o t).result = .ok f ∧ FullAtBottom o 0 t) := by
  have hd : 0 + o.maxDepth = o.maxDepth := Nat.zero_add _
  simp only [result_compile]
  refine ⟨Compile.block_of_fill, Compile.block_fill_succ _, ?_⟩
  constructor
  · intro h
    exact ⟨Compile.block_of_fill h, fullAtBottom_of_fill hd h⟩
  · rintro ⟨h, hfull⟩
    exact Compile.block_fill hd hfull h

/-- A sum of a missing item and a quotient without operands. -/
def hollowSum : Block := .list .add [none, some (.binary .divide none none)]

def hollowSumCode : List Instruction :=
  [.push .zero, .push .zero, .push .zero, .apply .divide, .apply .add]

/-- The sum takes two levels, and empty slots are read at the second; filled it takes three. -/
theorem compile_fill_hollowSum :
    (compile { maxDepth := 2 } hollowSum).result = .ok ⟨hollowSumCode, .atomic⟩ ∧
    (compile { maxDepth := 2 } (hollowSum.fill none)).result =
      .error ⟨.malformed (.depthExceeded 2), ["NUM1", "A"]⟩ ∧
    ¬ FullAtBottom { maxDepth := 2 } 0 hollowSum ∧
    (compile { maxDepth := 3 } (hollowSum.fill none)).result = .ok ⟨hollowSumCode, .atomic⟩ ∧
    FullAtBottom { maxDepth := 3 } 0 hollowSum ∧
    (compile { maxDepth := 3 } hollowSum).result = .ok ⟨hollowSumCode, .atomic⟩ := by
  have hok : (compile { maxDepth := 2 } hollowSum).result = .ok ⟨hollowSumCode, .atomic⟩ := by
    decide +kernel
  have hdeep : (compile { maxDepth := 2 } (hollowSum.fill none)).result =
      .error ⟨.malformed (.depthExceeded 2), ["NUM1", "A"]⟩ := by decide +kernel
  obtain ⟨_, hmore, hsame⟩ := compile_fill { maxDepth := 2 } hollowSum ⟨hollowSumCode, .atomic⟩
  have hfilled := hmore hok
  obtain ⟨hless, _, hsame'⟩ := compile_fill { maxDepth := 3 } hollowSum ⟨hollowSumCode, .atomic⟩
  refine ⟨hok, hdeep, ?_, hfilled, (hsame'.mp hfilled).2, hless hfilled⟩
  intro hfull
  have hfits := hsame.mpr ⟨hok, hfull⟩
  rw [hdeep] at hfits
  cases hfits

end BlockCode
