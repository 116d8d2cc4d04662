import BlockCode.Proofs.Heights

/- Which code is postfix code. A `Term` has two operands at every operation, and its listing is both
   operands and then the operator. `checkStack_postfix` says that the stack check, which only counts,
   accepts exactly the listings of terms, each of which is the listing of one term, and that in
   accepted code the listings of its two operands stand right before every operator.

   The terms are themselves values that the machine can compute with (`Term.free`): constants are
   terms, and an operation makes a term of two. A run on such values takes the code apart. Read from
   the bottom up, what is on the stack is always a list of the instructions that have run
   (`listings_run`), and the listing of a term leaves this term (`run_listing`). So the stack at an
   operator knows its operands, and no listing can be read in two ways. -/
namespace BlockCode
universe v

/-- An expression over the constants of the device in which every operation has two operands. -/
inductive Term where
  | constant (c : Constant)
  | operation (op : Arith) (left right : Term)
  deriving DecidableEq

namespace Term

/-- Postfix code: the left operand, the right operand, the operator. -/
def listing : Term → List Instruction
  | constant c => [.push c]
  | operation op l r => l.listing ++ r.listing ++ [.apply op]

def subterms : Term → List Term
  | constant c => [constant c]
  | operation op l r => operation op l r :: (l.subterms ++ r.subterms)

/-- Nothing is computed: what an operation makes of two values is the operation itself. -/
def free : Interpretation Term where
  constant := constant
  arith := operation

/-! ## Runs on terms -/

theorem run_listing (t : Term) (stack : List Term) :
    Machine.run free t.listing stack = some (t :: stack) := by
  induction t generalizing stack with
  | constant c => rfl
  | operation op l r ihl ihr =>
    rw [listing, Machine.run_append, Machine.run_append, ihl, Option.bind_some, ihr]
    rfl

/-- What is on a stack, listed from the bottom up. -/
def listings (stack : List Term) : List Instruction := stack.reverse.flatMap listing

theorem listings_cons (t : Term) (stack : List Term) :
    listings (t :: stack) = listings stack ++ t.listing := by
  simp [listings]

/-- An instruction that runs is added to what is listed. -/
theorem listings_step {i : Instruction} {stack stack' : List Term}
    (h : Machine.step free i stack = some stack') : listings stack' = listings stack ++ [i] := by
  cases i with
  | push c =>
    cases h
    simp [listings_cons, free, listing]
  | apply op =>
    obtain _ | ⟨r, _ | ⟨l, stack⟩⟩ := stack
    · cases h
    · cases h
    · cases h
      simp [listings_cons, free, listing]

/-- Code that runs is all that is listed in the end, after what was there. -/
theorem listings_run {code : List Instruction} {stack stack' : List Term}
    (h : Machine.run free code stack = some stack') : listings stack' = listings stack ++ code := by
  induction code generalizing stack with
  | nil =>
    cases h
    simp
  | cons i code ih =>
    obtain ⟨s, hs, h⟩ := Option.bind_eq_some_iff.mp h
    rw [ih h, listings_step hs, List.append_assoc]
    rfl

theorem listing_injective : Function.Injective listing := by
  intro t t' h
  have hrun := run_listing t []
  rw [h, run_listing] at hrun
  simpa using hrun.symm

/-! ## Operators and their operands -/

/-- Before an operator in a listing stand the operands that it has in the term. -/
theorem operands_of_split {t : Term} {before after : List Instruction} {op : Arith}
    (h : t.listing = before ++ .apply op :: after) :
    ∃ l r, operation op l r ∈ t.subterms ∧ l.listing ++ r.listing <:+ before := by
  induction t generalizing before after with
  | constant c =>
    have hmem : Instruction.apply op ∈ (constant c).listing := by simp [h]
    simp [listing] at hmem
  | operation op' l' r' ihl ihr =>
    rw [listing] at h
    obtain rfl | ⟨after, i, rfl⟩ := after.eq_nil_or_concat'
    · -- it is the operator of the term itself
      obtain ⟨hbefore, hop⟩ := List.append_inj' h rfl
      obtain rfl : op' = op := by simpa using hop
      exact ⟨l', r', by simp [subterms], by rw [hbefore]⟩
    · -- it is in one of the operands, and what stands before it there stands before it here
      rw [← List.cons_append, ← List.append_assoc] at h
      obtain ⟨h, _⟩ := List.append_inj' h rfl
      obtain ⟨front, rfl, hr⟩ | ⟨back, hl, hback⟩ := List.append_eq_append_iff.mp h
      · obtain ⟨l, r, hmem, hsuffix⟩ := ihr hr
        exact ⟨l, r, by simp [subterms, hmem], hsuffix.trans (List.suffix_append _ _)⟩
      · cases back with
        | nil =>
          have hr : r'.listing = [] ++ .apply op :: after := hback.symm
          obtain ⟨l, r, hmem, hsuffix⟩ := ihr hr
          exact ⟨l, r, by simp [subterms, hmem], hsuffix.trans List.nil_suffix⟩
        | cons j back =>
          obtain ⟨rfl, _⟩ := List.cons.inj hback
          obtain ⟨l, r, hmem, hsuffix⟩ := ihl hl
          exact ⟨l, r, by simp [subterms, hmem], hsuffix⟩

/-- Code that ends in two listings leaves the two terms on top of the stack. -/
theorem exists_stack_of_suffix {code : List Instruction} {stack : List Term} {l r : Term}
    (hrun : Machine.run free code [] = some stack) (h : l.listing ++ r.listing <:+ code) :
    ∃ rest, stack = r :: l :: rest := by
  obtain ⟨front, rfl⟩ := h
  rw [Machine.run_append] at hrun
  obtain ⟨rest, _, hrun⟩ := Option.bind_eq_some_iff.mp hrun
  rw [Machine.run_append, run_listing, Option.bind_some, run_listing] at hrun
  exact ⟨rest, (Option.some.inj hrun).symm⟩

end Term

/-! ## The check -/

/-- Code that is accepted runs, whatever it computes, and leaves the number of values that the check
tells. -/
theorem Machine.run_of_checkStack {V : Type v} (I : Interpretation V) {f : Fragment} {n : Nat}
    (h : f.checkStack = .ok n) :
    n ≤ 1 ∧ ∃ stack, run I f.code [] = some stack ∧ stack.length = n := by
  cases hrun : run I f.code [] with
  | none =>
    obtain ⟨_, _, hstuck⟩ := exists_stuckAt_of_run_none hrun
    have hcheck : f.checkStack = .error _ := checkFrom_of_stuckAt hstuck 0
    rw [hcheck] at h
    cases h
  | some stack =>
    have hcheck : f.checkStack = if 1 < stack.length then _ else _ := checkFrom_of_run_some hrun 0
    rw [hcheck] at h
    split at h
    · cases h
    · cases h
      exact ⟨by omega, stack, rfl, rfl⟩

theorem checkStack_of_listing {f : Fragment} {t : Term} (h : t.listing = f.code) :
    f.checkStack = .ok 1 := by
  have hrun := t.run_listing []
  rw [h] at hrun
  exact Machine.checkFrom_of_run_some hrun 0

theorem exists_listing_of_checkStack {f : Fragment} (h : f.checkStack = .ok 1) :
    ∃ t : Term, t.listing = f.code := by
  obtain ⟨_, stack, hrun, hlen⟩ := Machine.run_of_checkStack Term.free h
  obtain ⟨t, rfl⟩ := List.length_eq_one_iff.mp hlen
  exact ⟨t, by simpa [Term.listings] using Term.listings_run hrun⟩

theorem checkStack_eq_zero_iff {f : Fragment} : f.checkStack = .ok 0 ↔ f.code = [] := by
  constructor
  · intro h
    obtain ⟨_, stack, hrun, hlen⟩ := Machine.run_of_checkStack Term.free h
    by_contra hcode
    exact Machine.ne_nil_of_run hrun hcode (List.length_eq_zero_iff.mp hlen)
  · intro h
    rw [Fragment.checkStack, h]
    rfl

theorem Instruction.length_eq_countP (code : List Instruction) :
    code.length = code.countP isPush + code.countP isBinary := by
  rw [List.length_eq_countP_add_countP isPush]
  simp only [Bool.not_eq_true, Bool.decide_eq_false]
  rfl

/-- The stack check accepts exactly postfix code and empty code. A piece of postfix code is the
listing of one term; it has one push more than operators, and right before every operator stand the
listings of its operands in the term, which can be read there in no other way. -/
theorem checkStack_postfix (f : Fragment) :
    (f.checkStack = .ok 1 ↔ ∃ t : Term, t.listing = f.code) ∧
    (∀ t t' : Term, t.listing = f.code → t'.listing = f.code → t = t') ∧
    (f.checkStack = .ok 0 ↔ f.code = []) ∧
    ∀ n, f.checkStack = .ok n → f.code ≠ [] →
      Odd f.code.length ∧
      f.code.countP Instruction.isPush = f.code.countP Instruction.isBinary + 1 ∧
      ∃ t : Term, t.listing = f.code ∧ ∀ before op after, f.code = before ++ .apply op :: after →
        ∃ l r, .operation op l r ∈ t.subterms ∧ l.listing ++ r.listing <:+ before ∧
          ∀ l' r' : Term, l'.listing ++ r'.listing <:+ before → l' = l ∧ r' = r := by
  refine ⟨⟨exists_listing_of_checkStack, ?_⟩, ?_, checkStack_eq_zero_iff, ?_⟩
  · rintro ⟨t, ht⟩
    exact checkStack_of_listing ht
  · intro t t' ht ht'
    exact Term.listing_injective (ht.trans ht'.symm)
  · intro n hn hcode
    obtain ⟨t, ht⟩ : ∃ t : Term, t.listing = f.code := by
      obtain ⟨hle, _⟩ := Machine.run_of_checkStack Term.free hn
      have hpos : n ≠ 0 := by
        rintro rfl
        exact hcode (checkStack_eq_zero_iff.mp hn)
      obtain rfl : n = 1 := by omega
      exact exists_listing_of_checkStack hn
    have hrun := t.run_listing []
    rw [ht] at hrun
    have hcount : 1 + f.code.countP Instruction.isBinary = 0 + f.code.countP Instruction.isPush :=
      Machine.length_run hrun
    have hlen := Instruction.length_eq_countP f.code
    refine ⟨⟨f.code.countP Instruction.isBinary, by omega⟩, by omega, t, ht, ?_⟩
    intro before op after hsplit
    obtain ⟨l, r, hmem, hsuffix⟩ := Term.operands_of_split (ht.trans hsplit)
    refine ⟨l, r, hmem, hsuffix, ?_⟩
    -- the code before the operator has run, and its stack tells the operands
    rw [hsplit, Machine.run_append] at hrun
    obtain ⟨stack, hbefore, _⟩ := Option.bind_eq_some_iff.mp hrun
    intro l' r' hsuffix'
    obtain ⟨rest, hstack⟩ := Term.exists_stack_of_suffix hbefore hsuffix
    obtain ⟨rest', hstack'⟩ := Term.exists_stack_of_suffix hbefore hsuffix'
    obtain ⟨rfl, rfl, _⟩ : r = r' ∧ l = l' ∧ rest = rest' := by simpa [hstack] using hstack'
    exact ⟨rfl, rfl⟩

/-- The sum of three numbers is a number added to a sum of two, so before its last operator stand a
number and the sum of the two others. -/
theorem checkStack_postfix_threeItems :
    (∃ t : Term, t.listing = threeItemsCode) ∧ Odd threeItemsCode.length ∧
    ∃ l r : Term, l.listing ++ r.listing <:+ [.push .one, .push .one, .push .two, .apply .add] ∧
      l = .constant .one ∧ r = .operation .add (.constant .one) (.constant .two) := by
  have hok : (⟨threeItemsCode, .atomic⟩ : Fragment).checkStack = .ok 1 := by decide
  obtain ⟨hgrammar, _, _, hshape⟩ := checkStack_postfix ⟨threeItemsCode, .atomic⟩
  obtain ⟨hodd, _, t, _, hoperands⟩ := hshape 1 hok (by decide)
  obtain ⟨l, r, _, hsuffix, hunique⟩ := hoperands [.push .one, .push .one, .push .two, .apply .add]
    .add [] rfl
  obtain ⟨hl, hr⟩ := hunique (.constant .one) (.operation .add (.constant .one) (.constant .two))
    (by decide)
  exact ⟨hgrammar.mp hok, hodd, l, r, hsuffix, hl.symm, hr.symm⟩

end BlockCode
