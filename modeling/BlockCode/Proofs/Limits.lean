import Mathlib
import BlockCode.Block
import BlockCode.Proofs.FirstFault

/- What higher limits change. A run under lower limits is the run under higher ones, or
   it ends at a limit that the other passes. `Traced.Continues` is this relation
   between two runs. It goes through everything that a compilation is made of, and it
   gives `compile_of_within`:

   * a result that is not a limit error stays as it is;
   * the operands that were resolved are resolved again, in the same order;
   * in place of a limit error there is code, or an error at the same block or at one
     further on. -/
namespace BlockCode
universe u v

/-- No limit of the first options is higher than that of the second. -/
structure Options.Within (o o' : Options) : Prop where
  depth : o.maxDepth ≤ o'.maxDepth
  items : ∀ limit' ∈ o'.maxListItems, ∃ limit ∈ o.maxListItems, limit ≤ limit'

/-- A limit is exceeded: the blocks nest too deep, or a list has too many items. -/
def Fault.IsLimit : Fault → Prop
  | malformed (.depthExceeded _) | malformed (.tooManyItems _ _) => True
  | _ => False

namespace Traced

def operandEvents {β : Type u} (x : Traced β) : List Event :=
  x.events.filter fun event => event.level == "TRACE"

/-- The run `y` is the run `x`, or it goes on where `x` came to a limit. -/
inductive Continues {β : Type u} (x y : Traced β) : Prop where
  | same : y = x → Continues x y
  | beyond {e : Failure} : x.result = .error e → e.fault.IsLimit → x.events <+: y.events →
    (∀ e', y.result = .error e' → e.path = e'.path ∨ e.path.Before e'.path) → Continues x y

namespace Continues

theorem of_fail {β : Type u} {fault : Fault} (h : fault.IsLimit) (y : Traced β) :
    Continues (fail fault) y := by
  refine .beyond rfl h List.nil_prefix ?_
  intro e' _
  cases e'.path with
  | nil => exact .inl rfl
  | cons slot path => exact .inr .root

theorem within {β : Type u} {x y : Traced β} (h : Continues x y) (slot : String) :
    Continues (x.within slot) (y.within slot) := by
  cases h with
  | same h => exact .same (by rw [h])
  | @beyond e hx hlimit hevents hpath =>
    have hx' : x.within slot = ⟨x.events, .error ⟨e.fault, slot :: e.path⟩⟩ := by
      rw [Traced.within, hx]
    rw [hx']
    refine .beyond rfl hlimit ?_ ?_
    · cases hy : y.result <;> simpa [Traced.within, hy] using hevents
    · intro e' he'
      cases hy : y.result with
      | ok b => simp [Traced.within, hy] at he'
      | error e'' =>
        obtain rfl : ⟨e''.fault, slot :: e''.path⟩ = e' := by simpa [Traced.within, hy] using he'
        obtain hsame | hbefore := hpath e'' hy
        · exact .inl (by rw [hsame])
        · exact .inr (.deeper hbefore)

/-- Runs go on one after the other, if the later part of `y` fails further on than `x`. -/
theorem bind {β γ : Type u} {x y : Traced β} {f g : β → Traced γ} (h : Continues x y)
    (hfg : ∀ b, Continues (f b) (g b))
    (hlater : ∀ b e e', x.result = .error e → (g b).result = .error e' →
      e.path = e'.path ∨ e.path.Before e'.path) : Continues (x >>= f) (y >>= g) := by
  change Continues (x.andThen f) (y.andThen g)
  cases h with
  | same h =>
    obtain rfl := h
    cases hy : y.result with
    | error e => exact .same (by rw [andThen_eq_of_error hy, andThen_eq_of_error hy])
    | ok b =>
      rw [andThen_eq_of_ok hy, andThen_eq_of_ok hy]
      cases hfg b with
      | same h => exact .same (by rw [h])
      | beyond hf hlimit hevents hpath =>
        exact .beyond hf hlimit ((List.prefix_append_right_inj _).mpr hevents) hpath
  | @beyond e hx hlimit hevents hpath =>
    rw [andThen_eq_of_error hx]
    cases hy : y.result with
    | error e' =>
      rw [andThen_eq_of_error hy]
      refine .beyond rfl hlimit hevents ?_
      intro e'' he
      cases he
      exact hpath e' hy
    | ok b =>
      rw [andThen_eq_of_ok hy]
      refine .beyond rfl hlimit (hevents.trans (List.prefix_append _ _)) ?_
      intro e' he'
      exact hlater b e e' hx he'

end Continues

end Traced

namespace Compile
open Traced
variable {α : Type u} [Node α] {o o' : Options}

theorem operand_continues (context : Precedence) {compile compile' : α → Traced Fragment}
    (h : ∀ child, Continues (compile child) (compile' child)) (node : α) (slot : String) :
    Continues (operand context compile node slot) (operand context compile' node slot) := by
  unfold operand
  cases Node.input node slot with
  | none => exact .same rfl
  | some child =>
    refine .bind (.same rfl) (fun _ => (h child).within slot) ?_
    intro _ e e' he
    cases he

theorem mapM_continues {f g : String → Traced Fragment}
    (h : ∀ slot, Continues (f slot) (g slot))
    (hf : ∀ slot e, (f slot).result = .error e → ∃ path, e.path = slot :: path)
    (hg : ∀ slot e, (g slot).result = .error e → ∃ path, e.path = slot :: path)
    {slots : List String} (hs : slots.Pairwise SlotBefore) :
    Continues (slots.mapM f) (slots.mapM g) := by
  induction slots with
  | nil => exact .same rfl
  | cons slot slots ih =>
    obtain ⟨hslot, hslots⟩ := List.pairwise_cons.mp hs
    rw [List.mapM_cons, List.mapM_cons]
    refine .bind (h slot) (fun b => (ih hslots).bind (fun _ => .same rfl) ?_) ?_
    · intro _ _ e' _ he'
      cases he'
    · intro b e e' he he'
      obtain ⟨path, hpath⟩ := hf slot e he
      obtain he' | ⟨bs, _, he'⟩ := bind_error he'
      · obtain ⟨before, t, after, rfl, _, ht⟩ := mapM_error he'
        obtain ⟨path', hpath'⟩ := hg t e' ht
        rw [hpath, hpath']
        exact .inr (.slot (hslot t (by simp)))
      · cases he'

/-- Under higher limits a block is read as before, unless it exceeded a limit. -/
theorem reading_of_within (h : o.Within o') (node : α) :
    Reading.ofNode o' node = Reading.ofNode o node ∨
      ∃ fault, Reading.ofNode o node = .fault fault ∧ fault.IsLimit := by
  cases hk : Node.kind node with
  | number | compare => exact .inl (by simp only [Reading.ofNode, hk])
  | binary op => exact .inl (by cases op <;> simp only [Reading.ofNode, hk])
  | list op =>
    cases hc : Node.itemCount node with
    | none => exact .inl (by simp only [Reading.ofNode, hk, hc])
    | some count =>
      by_cases hle : ∀ limit ∈ o.maxListItems, count ≤ limit
      · have hle' : ∀ limit ∈ o'.maxListItems, count ≤ limit := by
          intro limit' hlimit'
          obtain ⟨limit, hlimit, hll⟩ := h.items limit' hlimit'
          exact (hle limit hlimit).trans hll
        exact .inl (by rw [Reading.ofNode_list hk hc hle, Reading.ofNode_list hk hc hle'])
      · push Not at hle
        obtain ⟨limit, hlimit, hlt⟩ := hle
        refine .inr ⟨.malformed (.tooManyItems count limit), ?_, trivial⟩
        simp only [Reading.ofNode, hk, hc, Option.mem_def.mp hlimit, hlt, if_true]

theorem block_continues (h : o.Within o') {levels levels' : Nat} (hle : levels ≤ levels') (node : α) :
    Continues (block o levels node) (block o' levels' node) := by
  induction levels generalizing levels' node with
  | zero =>
    have hlimit : (Fault.malformed (.depthExceeded o.maxDepth)).IsLimit := trivial
    exact .of_fail hlimit _
  | succ levels ih =>
    obtain ⟨levels', rfl⟩ : ∃ l, levels' = l + 1 := ⟨levels' - 1, by omega⟩
    rw [block_succ, block_succ]
    obtain hr | ⟨fault, hr, hlimit⟩ := reading_of_within h node
    · rw [hr]
      cases hr : Reading.ofNode o node with
      | fault | constant => exact .same rfl
      | operation op slots =>
        have hpath {o : Options} {levels : Nat} (slot : String) (e : Failure)
            (he : (operand .atomic (block o levels) node slot).result = .error e) :
            ∃ path, e.path = slot :: path := by
          obtain ⟨_, e', _, _, rfl⟩ := operand_error he
          exact ⟨e'.path, rfl⟩
        have hslots := operand_continues .atomic (fun child => ih (by omega : levels ≤ levels') child) node
        refine (mapM_continues hslots hpath hpath (Reading.pairwise_slots hr)).bind (fun _ => .same rfl) ?_
        intro _ _ e' _ he'
        cases he'
    · rw [hr]
      exact .of_fail hlimit _

end Compile

/-- A compilation within higher limits gives the same result, unless that was a limit
error. It resolves the same operands first, and it does not fail before the block that
exceeded a limit. -/
theorem compile_of_within {α : Type u} [Node α] {o o' : Options} (h : o.Within o') (node : α) :
    (((∃ f, (compile o node).result = .ok f) ∨
        ∃ e, (compile o node).result = .error e ∧ ¬ e.fault.IsLimit) →
      compile o' node = compile o node) ∧
    (compile o node).operandEvents <+: (compile o' node).operandEvents ∧
    ∀ e, (compile o node).result = .error e → e.fault.IsLimit →
      (∃ f, (compile o' node).result = .ok f) ∨
        ∃ e', (compile o' node).result = .error e' ∧ (e.path = e'.path ∨ e.path.Before e'.path) := by
  have hcontinues : Traced.Continues (compile o node) (compile o' node) := by
    refine (Compile.block_continues h h.depth node).bind (fun _ => .same rfl) ?_
    intro _ _ e' _ he'
    cases he'
  cases hcontinues with
  | same hsame =>
    rw [hsame]
    refine ⟨fun _ => rfl, List.prefix_refl _, ?_⟩
    intro e he _
    exact .inr ⟨e, he, .inl rfl⟩
  | @beyond e he hlimit hevents hpath =>
    refine ⟨?_, hevents.filter _, ?_⟩
    · intro hresult
      rw [he] at hresult
      obtain ⟨f, hf⟩ | ⟨e', he', hno⟩ := hresult
      · cases hf
      · cases he'
        exact absurd hlimit hno
    · intro e' he' _
      rw [he] at he'
      cases he'
      cases hr : (compile o' node).result with
      | ok f => exact .inl ⟨f, rfl⟩
      | error e' => exact .inr ⟨e', rfl, hpath e' hr⟩

/-- A sum of a difference in a difference and a comparison. -/
def nestedDifference : Block :=
  .list .add [some (.binary .subtract (some (.binary .subtract none (some (.number "1")))) none),
    some .compare]

/-- Two levels are too few for the difference; with four it is the comparison that fails. -/
theorem compile_of_within_nestedDifference :
    Options.Within { maxDepth := 2, maxListItems := some 2 } { maxDepth := 4 } ∧
    (compile { maxDepth := 2, maxListItems := some 2 } nestedDifference).result =
      .error ⟨.malformed (.depthExceeded 2), ["NUM0", "A"]⟩ ∧
    (compile { maxDepth := 2, maxListItems := some 2 } nestedDifference).operandEvents <+:
      (compile { maxDepth := 4 } nestedDifference).operandEvents ∧
    ∃ e, (compile { maxDepth := 4 } nestedDifference).result = .error e ∧
      (["NUM0", "A"] = e.path ∨ Path.Before ["NUM0", "A"] e.path) := by
  have h : Options.Within { maxDepth := 2, maxListItems := some 2 } { maxDepth := 4 } :=
    ⟨by decide, by simp⟩
  have hlow : (compile { maxDepth := 2, maxListItems := some 2 } nestedDifference).result =
      .error ⟨.malformed (.depthExceeded 2), ["NUM0", "A"]⟩ := by decide +kernel
  have hhigh : (compile { maxDepth := 4 } nestedDifference).result =
      .error ⟨.unimplemented "math_compare", ["NUM1"]⟩ := by decide +kernel
  obtain ⟨_, hevents, hlater⟩ := compile_of_within h nestedDifference
  refine ⟨h, hlow, hevents, ?_⟩
  obtain ⟨f, hf⟩ | hfails := hlater _ hlow trivial
  · rw [hhigh] at hf
    cases hf
  · exact hfails

end BlockCode
