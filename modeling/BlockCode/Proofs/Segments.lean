import Mathlib
import BlockCode.Block
import BlockCode.Proofs.Limits
import BlockCode.Proofs.Visit

/- Where the code of a block stands in the code of the tree it is in. `codeBefore` is what has been
   compiled of a tree when a block in it is come to. `compile_below` says that compiling is a matter
   of each block alone, with as many levels as are left for it:

   * the code of a tree has the code of every block in it as a segment, after what was compiled
     before the block; segments lie in each other or one after the other as the blocks do;
   * a failure of a tree is a failure of every block above the one with the fault, where the path
     is shorter and the depth limit lower; all other blocks that were come to have compiled.

   The depth limit is told by faults and by nothing else (`block_withDepthLimit`), so it is enough to
   compare blocks under the limit of the tree, with the levels counted down. -/
namespace BlockCode
universe u v

/-! ## The depth limit in faults -/

/-- The limits for a block at a depth: so many levels fewer are left. -/
def Options.below (o : Options) (depth : Nat) : Options := { o with maxDepth := o.maxDepth - depth }

/-- The fault, told under another depth limit. -/
def Fault.withDepthLimit (limit : Nat) : Fault → Fault
  | malformed (.depthExceeded _) => malformed (.depthExceeded limit)
  | fault => fault

theorem Reading.withDepthLimit_of_fault {α : Type u} [Node α] {o : Options} {node : α} {fault : Fault}
    (h : ofNode o node = .fault fault) (limit : Nat) : fault.withDepthLimit limit = fault := by
  cases ofNode_fault h <;> rfl

namespace Traced

/-- Changes the fault that a run fails with, and nothing else. -/
def mapFault {β : Type u} (φ : Fault → Fault) (x : Traced β) : Traced β :=
  ⟨x.events, x.result.mapError fun e => { e with fault := φ e.fault }⟩

theorem mapFault_bind {β γ : Type u} (φ : Fault → Fault) (x : Traced β) (f : β → Traced γ) :
    (x >>= f).mapFault φ = x.mapFault φ >>= fun b => (f b).mapFault φ := by
  change (x.andThen f).mapFault φ = (x.mapFault φ).andThen _
  cases h : x.result with
  | error e =>
    have hmap : (x.mapFault φ).result = .error { e with fault := φ e.fault } := by
      simp [mapFault, h, Except.mapError]
    rw [andThen_eq_of_error h, andThen_eq_of_error hmap]
    rfl
  | ok b =>
    have hmap : (x.mapFault φ).result = .ok b := by simp [mapFault, h, Except.mapError]
    rw [andThen_eq_of_ok h, andThen_eq_of_ok hmap]
    rfl

theorem mapFault_mapM {ι : Type v} {β : Type u} (φ : Fault → Fault) (f : ι → Traced β)
    (l : List ι) : (l.mapM f).mapFault φ = l.mapM fun i => (f i).mapFault φ := by
  induction l with
  | nil => rfl
  | cons i l ih =>
    simp only [List.mapM_cons, mapFault_bind, ih]
    rfl

theorem mapFault_within {β : Type u} (φ : Fault → Fault) (slot : String) (x : Traced β) :
    (x.within slot).mapFault φ = (x.mapFault φ).within slot := by
  cases h : x.result <;> simp [within, mapFault, h, Except.mapError]

end Traced

namespace Compile
variable {α : Type u} [Node α] {o : Options}

theorem mapFault_operand (φ : Fault → Fault) (context : Precedence) (compile : α → Traced Fragment)
    (node : α) (slot : String) : (operand context compile node slot).mapFault φ =
      operand context (fun child => (compile child).mapFault φ) node slot := by
  unfold operand
  cases Node.input node slot with
  | none => rfl
  | some child =>
    simp only [Traced.mapFault_bind, Traced.mapFault_within]
    rfl

/-- Under another depth limit, but within as many levels, a block compiles as before; only what is
said of the limit differs. -/
theorem block_withDepthLimit (o : Options) (limit levels : Nat) (node : α) :
    block { o with maxDepth := limit } levels node =
      (block o levels node).mapFault (Fault.withDepthLimit limit) := by
  induction levels generalizing node with
  | zero => rfl
  | succ levels ih =>
    have hsame : Reading.ofNode { o with maxDepth := limit } node = Reading.ofNode o node := rfl
    have hbelow : block { o with maxDepth := limit } levels =
        fun child : α => (block o levels child).mapFault (Fault.withDepthLimit limit) := funext ih
    rw [block_succ, block_succ, hsame]
    cases hr : Reading.ofNode o node with
    | fault fault =>
      have hfault := Reading.withDepthLimit_of_fault hr limit
      simp [Traced.mapFault, Traced.fail, Except.mapError, hfault]
    | constant c => rfl
    | operation op slots =>
      simp only [operation, Traced.mapFault_bind, Traced.mapFault_mapM, mapFault_operand, hbelow]
      rfl

theorem result_compile_below (o : Options) (depth : Nat) (node : α) :
    (compile (o.below depth) node).result = ((block o (o.maxDepth - depth) node).mapFault
      (Fault.withDepthLimit (o.maxDepth - depth))).result := by
  rw [result_compile, ← block_withDepthLimit]
  rfl

theorem compile_below_eq_ok_iff {depth : Nat} {node : α} {f : Fragment} :
    (compile (o.below depth) node).result = .ok f ↔
      (block o (o.maxDepth - depth) node).result = .ok f := by
  rw [result_compile_below, Traced.mapFault]
  cases (block o (o.maxDepth - depth) node).result <;> simp [Except.mapError]

theorem eq_maxDepth_of_error {levels : Nat} {node : α} {e : Failure} {limit : Nat}
    (h : (block o levels node).result = .error e)
    (hfault : e.fault = .malformed (.depthExceeded limit)) : limit = o.maxDepth := by
  have hsame := congrArg Traced.result (block_withDepthLimit o o.maxDepth levels node)
  rw [Traced.mapFault, h] at hsame
  have hlimit : e.fault = e.fault.withDepthLimit o.maxDepth :=
    congrArg Failure.fault (Except.error.inj hsame)
  rw [hfault] at hlimit
  simpa [Fault.withDepthLimit] using hlimit

/-! ## Code in order -/

/-- The code of what is in a slot; nothing if it does not compile. -/
def operandCode (o : Options) (levels : Nat) (node : α) (slot : String) : List Instruction :=
  (operand .atomic (block o levels) node slot).result.toOption.elim [] Fragment.code

theorem operandCode_of_ok {levels : Nat} {node : α} {slot : String} {g : Fragment}
    (h : (operand .atomic (block o levels) node slot).result = .ok g) :
    operandCode o levels node slot = g.code := by
  simp [operandCode, h, Except.toOption]

/-- The code of an operation is the code of what is in its slots, in order, and the operators. -/
theorem code_of_operation {levels : Nat} {node : α} {f : Fragment} {op : Arith} {slots : List String}
    (hop : Reading.ofNode o node = .operation op slots)
    (h : (block o (levels + 1) node).result = .ok f) :
    f.code = slots.flatMap (operandCode o levels node) ++
      List.replicate (slots.length - 1) (.apply op) := by
  obtain ⟨c, hc, _⟩ | ⟨op', slots', fs, hop', hfs, rfl⟩ := block_ok h
  · rw [hop] at hc
    cases hc
  · rw [hop] at hop'
    cases hop'
    have hcodes : fs.flatMap Fragment.code = slots.flatMap (operandCode o levels node) := by
      clear hop h
      induction hfs with
      | nil => rfl
      | cons hg _ ih => rw [List.flatMap_cons, List.flatMap_cons, operandCode_of_ok hg, ih]
    rw [hcodes]

/-- The code of a tree that stands before the code of the block at a path: at every block on the
way, the code of what is in the slots before the one that leads on. -/
def codeBefore (o : Options) : (levels : Nat) → α → Path → List Instruction
  | levels + 1, node, slot :: path =>
    ((Reading.ofNode o node).slots.takeWhile (· != slot)).flatMap (operandCode o levels node) ++
      (Node.input node slot).elim [] fun child => codeBefore o levels child path
  | _, _, _ => []

@[simp] theorem codeBefore_nil (o : Options) (levels : Nat) (node : α) :
    codeBefore o levels node [] = [] := by
  cases levels <;> rfl

theorem codeBefore_slot {levels : Nat} {node child : α} {op : Arith} {before after : List String}
    {slot : String} (hop : Reading.ofNode o node = .operation op (before ++ slot :: after))
    (hchild : Node.input node slot = some child) (path : Path) :
    codeBefore o (levels + 1) node (slot :: path) =
      before.flatMap (operandCode o levels node) ++ codeBefore o levels child path := by
  have hbefore : ∀ s ∈ before, (s != slot) = true := by
    intro s hs
    obtain ⟨_, _, hcross⟩ := List.pairwise_append.mp (Reading.pairwise_slots hop)
    have hne : s ≠ slot := by
      rintro rfl
      exact (hcross s hs s List.mem_cons_self).irrefl
    simpa using hne
  have htake : (before ++ slot :: after).takeWhile (· != slot) = before := by
    rw [List.takeWhile_append_of_pos hbefore]
    simp
  simp only [codeBefore, hop, Reading.slots, htake, hchild, Option.elim_some]

end Compile

/-! ## Blocks on the way -/

section
open Compile
variable {α : Type u} [Node α] {o : Options} {levels : Nat} {node block : α}

theorem Visits.split {p q : Path} (h : Visits o levels node (p ++ q) block) :
    ∃ middle, Visits o levels node p middle ∧ Visits o (levels - p.length) middle q block := by
  induction p generalizing levels node with
  | nil => exact ⟨node, .root, h⟩
  | cons slot p ih =>
    cases h with
    | slot hop hbefore hchild h =>
      obtain ⟨middle, hp, hq⟩ := ih h
      exact ⟨middle, .slot hop hbefore hchild hp, by simpa using hq⟩

theorem Visits.unique {path : Path} {block' : α} (h : Visits o levels node path block)
    (h' : Visits o levels node path block') : block = block' := by
  induction h with
  | root => cases h'; rfl
  | slot _ _ hchild _ ih =>
    cases h' with
    | slot _ _ hchild' h' =>
      rw [hchild] at hchild'
      cases hchild'
      exact ih h'

theorem codeBefore_append {p : Path} (h : Visits o levels node p block) (q : Path) :
    codeBefore o levels node (p ++ q) =
      codeBefore o levels node p ++ codeBefore o (levels - p.length) block q := by
  induction h with
  | root => simp
  | slot hop _ hchild _ ih =>
    rw [List.cons_append, codeBefore_slot hop hchild, codeBefore_slot hop hchild, ih]
    simp

/-- A block in a tree that compiles does so too, and its code is a segment of the code of the tree. -/
theorem Visits.code {path : Path} {f : Fragment} (h : Visits o levels node path block)
    (hf : (Compile.block o levels node).result = .ok f) :
    ∃ g back, (Compile.block o (levels - path.length) block).result = .ok g ∧
      f.code = codeBefore o levels node path ++ g.code ++ back := by
  induction h generalizing f with
  | root => exact ⟨f, [], hf, by simp⟩
  | @slot levels node child _ op before after slot path hop _ hchild _ ih =>
    obtain ⟨g, hg⟩ := exists_operand_of_ok hf slot (by simp [hop, Reading.slots])
    obtain ⟨g', back, hg', hsegment⟩ := ih ((operand_ok_iff hchild).mp hg)
    refine ⟨g', back ++ after.flatMap (operandCode o levels node) ++
      List.replicate ((before ++ slot :: after).length - 1) (.apply op), by simpa using hg', ?_⟩
    rw [code_of_operation hop hf, codeBefore_slot hop hchild]
    simp [operandCode_of_ok hg, hsegment]

/-- Of two blocks in different slots one comes first, and its code ends before that of the other
begins. -/
theorem Visits.code_apart {p q : Path} {s t : String} {c d : α} {f g : Fragment} (hst : s ≠ t)
    (hp : Visits o levels node (s :: p) c) (hq : Visits o levels node (t :: q) d)
    (hf : (Compile.block o levels node).result = .ok f)
    (hg : (Compile.block o (levels - (s :: p).length) c).result = .ok g) :
    (SlotBefore s t ∨ SlotBefore t s) ∧ (SlotBefore s t →
      codeBefore o levels node (s :: p) ++ g.code <+: codeBefore o levels node (t :: q)) := by
  cases hp with
  | @slot levels _ child _ op before after _ _ hop _ hchild hp =>
    cases hq with
    | @slot _ _ child' _ op' before' after' _ _ hop' _ hchild' hq =>
      have hslots := Reading.pairwise_slots hop
      rw [hop] at hop'
      obtain ⟨rfl, hsplit⟩ := Reading.operation.inj hop'
      have ht : t ∈ before ++ s :: after := by rw [hsplit]; simp
      refine ⟨slotBefore_or_of_mem hslots (by simp) ht hst, ?_⟩
      intro hst
      obtain ⟨l, m, r, heq⟩ := split_of_slotBefore hslots (by simp) ht hst
      rw [heq] at hop
      have hop' : Reading.ofNode o node = .operation op ((l ++ s :: m) ++ t :: r) := by simp [hop]
      obtain ⟨gs, hgs⟩ := exists_operand_of_ok hf s (by simp [hop, Reading.slots])
      obtain ⟨g', back, hg', hsegment⟩ := hp.code ((operand_ok_iff hchild).mp hgs)
      obtain rfl : g' = g := Except.ok.inj (hg'.symm.trans (by simpa using hg))
      rw [codeBefore_slot hop hchild, codeBefore_slot hop' hchild', List.flatMap_append,
        List.flatMap_cons, operandCode_of_ok hgs, hsegment]
      simp [List.append_assoc]

theorem mem_or_mem_of_split_eq {ι : Type*} {before after before' after' : List ι} {s t : ι}
    (h : before ++ s :: after = before' ++ t :: after') (hst : s ≠ t) : s ∈ before' ∨ t ∈ before := by
  obtain ⟨between, rfl, hs⟩ | ⟨between, rfl, ht⟩ := List.append_eq_append_iff.mp h
  · obtain _ | ⟨x, between⟩ := between
    · exact absurd (List.cons.inj hs).1 hst
    · obtain ⟨rfl, _⟩ := List.cons.inj hs
      simp
  · obtain _ | ⟨x, between⟩ := between
    · exact absurd (List.cons.inj ht).1.symm hst
    · obtain ⟨rfl, _⟩ := List.cons.inj ht
      simp

/-- Of a tree that does not compile, the blocks on the path of the failure fail from there on, and
all others that were come to have compiled. -/
theorem Visits.error {path : Path} {e : Failure} (h : Visits o levels node path block)
    (he : (Compile.block o levels node).result = .error e) :
    (∀ q, e.path = path ++ q →
      (Compile.block o (levels - path.length) block).result = .error ⟨e.fault, q⟩) ∧
    (¬ path <+: e.path → ∃ g, (Compile.block o (levels - path.length) block).result = .ok g) := by
  induction h generalizing e with
  | root =>
    refine ⟨?_, fun hno => absurd List.nil_prefix hno⟩
    rintro q rfl
    exact he
  | @slot levels node child _ op before after slot path hop hbefore hchild hvisits ih =>
    obtain ⟨fault, hfault, _⟩ |
      ⟨op', before', slot', after', hop', hbefore', child', e', hchild', he', rfl⟩ := block_error he
    · rw [hop] at hfault
      cases hfault
    · rw [hop] at hop'
      obtain ⟨_, hsplit⟩ := Reading.operation.inj hop'
      simp only [List.length_cons, Nat.add_sub_add_right]
      by_cases hsame : slot' = slot
      · -- the failure is below the same slot
        subst hsame
        rw [hchild] at hchild'
        cases hchild'
        obtain ⟨hbelow, hbeside⟩ := ih he'
        refine ⟨?_, ?_⟩
        · intro q hq
          exact hbelow q (List.cons.inj hq).2
        · intro hno
          exact hbeside fun hprefix => hno (List.cons_prefix_cons.mpr ⟨rfl, hprefix⟩)
      · -- the failure is below a later slot, for what is in the earlier ones compiles
        refine ⟨fun q hq => absurd (List.cons.inj hq).1 hsame, fun _ => ?_⟩
        have hearlier : slot ∈ before' := by
          obtain hmem | hmem := mem_or_mem_of_split_eq hsplit (Ne.symm hsame)
          · exact hmem
          · obtain ⟨g, hg⟩ := hbefore slot' hmem
            have hok := (operand_ok_iff hchild').mp hg
            rw [he'] at hok
            cases hok
        obtain ⟨g, hg⟩ := hbefore' slot hearlier
        obtain ⟨g', _, hg', _⟩ := hvisits.code ((operand_ok_iff hchild).mp hg)
        exact ⟨g', hg'⟩

/-- A block within a tree compiles as it does for itself, with as many levels as are left for it. If
the tree compiles, the code of the block is a segment of the code of the tree, and segments lie in
each other or one after the other as the blocks do. If the tree does not compile, the block fails
where the tree does, if that is at or below the block, and compiles if it is not. -/
theorem compile_below (o : Options) (node : α) :
    (∀ f, (compile o node).result = .ok f →
      (∀ p c, Visits o o.maxDepth node p c → ∃ g back, (compile (o.below p.length) c).result = .ok g ∧
        f.code = codeBefore o o.maxDepth node p ++ g.code ++ back) ∧
      ∀ p c g q d h, Visits o o.maxDepth node p c → (compile (o.below p.length) c).result = .ok g →
        Visits o o.maxDepth node q d → (compile (o.below q.length) d).result = .ok h →
        (p <+: q → ∃ front back,
          codeBefore o o.maxDepth node q = codeBefore o o.maxDepth node p ++ front ∧
          g.code = front ++ h.code ++ back) ∧
        (¬ p <+: q → ¬ q <+: p → (p.Before q ∨ q.Before p) ∧ (p.Before q →
          codeBefore o o.maxDepth node p ++ g.code <+: codeBefore o o.maxDepth node q))) ∧
    ∀ e, (compile o node).result = .error e →
      (∀ limit, e.fault = .malformed (.depthExceeded limit) → limit = o.maxDepth) ∧
      ∀ p c, Visits o o.maxDepth node p c →
        (∀ q, e.path = p ++ q → (compile (o.below p.length) c).result =
          .error ⟨e.fault.withDepthLimit (o.maxDepth - p.length), q⟩) ∧
        (¬ p <+: e.path → ∃ g, (compile (o.below p.length) c).result = .ok g) := by
  simp only [compile_below_eq_ok_iff]
  rw [result_compile]
  refine ⟨?_, ?_⟩
  · intro f hf
    refine ⟨fun p c hp => hp.code hf, ?_⟩
    intro p c g q d h hp hg hq hh
    refine ⟨?_, ?_⟩
    · rintro ⟨r, rfl⟩
      obtain ⟨middle, hmiddle, hr⟩ := hq.split
      cases hmiddle.unique hp
      obtain ⟨h', back, hh', hsegment⟩ := hr.code hg
      obtain rfl : h' = h := Except.ok.inj (hh'.symm.trans (by simpa [Nat.sub_add_eq] using hh))
      exact ⟨_, back, codeBefore_append hp r, hsegment⟩
    · intro hpq hqp
      obtain ⟨common, s, t, p, q, rfl, rfl, hst⟩ := Path.fork_of_not_prefix hpq hqp
      obtain ⟨middle, hmiddle, hs⟩ := hp.split
      obtain ⟨middle', hmiddle', ht⟩ := hq.split
      cases hmiddle.unique hmiddle'
      obtain ⟨m, _, hm, _⟩ := hmiddle.code hf
      rw [List.length_append, Nat.sub_add_eq] at hg
      obtain ⟨horder, hapart⟩ := hs.code_apart hst ht hm hg
      rw [Path.before_fork_iff hst, Path.before_fork_iff hst.symm, codeBefore_append hmiddle,
        codeBefore_append hmiddle, List.append_assoc, List.prefix_append_right_inj]
      exact ⟨horder, hapart⟩
  · intro e he
    refine ⟨fun limit hfault => eq_maxDepth_of_error he hfault, ?_⟩
    intro p c hp
    obtain ⟨hbelow, hbeside⟩ := hp.error he
    refine ⟨?_, hbeside⟩
    intro q hq
    rw [result_compile_below, Traced.mapFault, hbelow q hq]
    rfl

def halfProduct : Block := .list .multiply [some (.number "1"), some (.number "2"), none]

def innerDifference : Block :=
  .binary .subtract (some (.binary .subtract none (some (.number "1")))) none

/-- The code of a product in a difference stands behind the zero of the empty slot. A difference in a
sum fails where the sum does, if it is too deep, and compiles if it is the comparison beside it that
fails. -/
theorem compile_below_halfDifference :
    (∃ g back, (compile { maxDepth := 127 } halfProduct).result = .ok g ∧
      halfDifferenceCode = [.push .zero] ++ g.code ++ back) ∧
    (compile { maxDepth := 2 } nestedDifference).result =
      .error ⟨.malformed (.depthExceeded 2), ["NUM0", "A"]⟩ ∧
    (compile { maxDepth := 1 } innerDifference).result =
      .error ⟨.malformed (.depthExceeded 1), ["A"]⟩ ∧
    (compile { maxDepth := 4 } nestedDifference).result =
      .error ⟨.unimplemented "math_compare", ["NUM1"]⟩ ∧
    ∃ g, (compile { maxDepth := 3 } innerDifference).result = .ok g := by
  have hok : (compile {} halfDifference).result = .ok ⟨halfDifferenceCode, .atomic⟩ := by
    decide +kernel
  have hdeep : (compile { maxDepth := 2 } nestedDifference).result =
      .error ⟨.malformed (.depthExceeded 2), ["NUM0", "A"]⟩ := by decide +kernel
  have hcompare : (compile { maxDepth := 4 } nestedDifference).result =
      .error ⟨.unimplemented "math_compare", ["NUM1"]⟩ := by decide +kernel
  have hproduct : Visits {} 128 halfDifference ["B"] halfProduct := by
    have hop : Reading.ofNode {} halfDifference = .operation .subtract ([slotA] ++ slotB :: []) := rfl
    refine .slot hop ?_ rfl .root
    intro s hs
    obtain rfl := List.mem_singleton.mp hs
    exact ⟨_, rfl⟩
  have hinner {o : Options} {levels : Nat} (ho : o.maxListItems = none) :
      Visits o (levels + 1) nestedDifference ["NUM0"] innerDifference := by
    have hle : ∀ limit ∈ o.maxListItems, 2 ≤ limit := by simp [ho]
    have hslots : itemSlots 2 = [] ++ "NUM0" :: ["NUM1"] := by decide
    have hop : Reading.ofNode o nestedDifference = .operation ListOp.add.arith (itemSlots 2) :=
      Reading.ofNode_list rfl rfl hle
    rw [hslots] at hop
    exact .slot hop (by simp) rfl .root
  have hbefore : codeBefore {} 128 halfDifference ["B"] = [.push .zero] := by decide +kernel
  obtain ⟨hsegments, _⟩ := compile_below {} halfDifference
  obtain ⟨g, back, hg, hcode⟩ := (hsegments _ hok).1 ["B"] halfProduct hproduct
  obtain ⟨_, hfails⟩ := compile_below { maxDepth := 2 } nestedDifference
  obtain ⟨_, hfails'⟩ := compile_below { maxDepth := 4 } nestedDifference
  rw [hbefore] at hcode
  exact ⟨⟨g, back, hg, hcode⟩, hdeep, ((hfails _ hdeep).2 _ _ (hinner rfl)).1 ["A"] rfl, hcompare,
    ((hfails' _ hcompare).2 _ _ (hinner rfl)).2 (by decide)⟩

end

end BlockCode
