import BlockCode.Fragment
import BlockCode.Proofs.Evaluation

/- How the two analyses of a fragment relate to the machine that runs it. Neither looks at values:
   the check counts what instructions take and put back, the peak adds and subtracts one and stops
   at zero. `checkStack_exact` says that for all code, and whatever the operations compute, the check
   tells exactly where the machine is stuck or what it leaves, and that the peak is the greatest
   height of the stack in every run that does not get stuck.

   A run either ends or is stuck at one instruction (`exists_stuckAt_of_run_none`,
   `StuckAt.run_eq_none`). The check is known in both cases, by following the run step by step, and
   so each of its answers tells which case it was. -/
namespace BlockCode
universe v
variable {V : Type v} {I : Interpretation V}

/-! ## Heights along a run -/

namespace Instruction

/-- Where an instruction finds what it takes, the height that the peak goes by is the one
that the check computes from what is taken. -/
theorem heightAfter_add_pops {i : Instruction} {height : Nat} (h : i.pops ≤ height) :
    i.heightAfter height + i.pops = height + 1 := by
  cases i with
  | push c => rfl
  | apply op =>
    simp only [pops, heightAfter] at h ⊢
    omega

theorem pops_eq (i : Instruction) :
    i.pops + (if i.isPush then 1 else 0) = (if i.isBinary then 1 else 0) + 1 := by
  cases i <;> rfl

theorem countP_operators (op : Arith) (n : Nat) :
    (List.replicate n (apply op)).countP isPush = 0 ∧
      (List.replicate n (apply op)).countP isBinary = n := by
  simp [List.countP_replicate, isPush, isBinary]

end Instruction

namespace Machine

theorem step_eq_none_iff {i : Instruction} {stack : List V} :
    step I i stack = none ↔ stack.length < i.pops := by
  match i, stack with
  | .push c, stack => simp [step, Instruction.pops]
  | .apply op, [] | .apply op, [_] => simp [step, Instruction.pops]
  | .apply op, b :: a :: stack => simp [step, Instruction.pops]

/-- An instruction that runs finds what it takes, and puts one value back. -/
theorem length_step {i : Instruction} {stack stack' : List V} (h : step I i stack = some stack') :
    i.pops ≤ stack.length ∧ stack'.length + i.pops = stack.length + 1 := by
  match i, stack with
  | .push c, stack => cases h; simp [Instruction.pops]
  | .apply op, [] | .apply op, [_] => cases h
  | .apply op, b :: a :: stack => cases h; simp [Instruction.pops]

/-- What remains after a run is what there was, with the pushes and without the
operators. -/
theorem length_run {code : List Instruction} {stack stack' : List V}
    (h : run I code stack = some stack') :
    stack'.length + code.countP Instruction.isBinary =
      stack.length + code.countP Instruction.isPush := by
  induction code generalizing stack with
  | nil => cases h; rfl
  | cons i code ih =>
    obtain ⟨s, hs, h⟩ := Option.bind_eq_some_iff.mp h
    have hrest := ih h
    obtain ⟨_, hlen⟩ := length_step hs
    have hpops := i.pops_eq
    rw [List.countP_cons, List.countP_cons]
    omega

theorem ne_nil_of_run {code : List Instruction} {stack stack' : List V}
    (h : run I code stack = some stack') (hcode : code ≠ []) : stack' ≠ [] := by
  induction code generalizing stack with
  | nil => exact absurd rfl hcode
  | cons i code ih =>
    obtain ⟨s, hs, h⟩ := Option.bind_eq_some_iff.mp h
    cases code with
    | cons j code => exact ih h (List.cons_ne_nil j code)
    | nil =>
      cases h
      obtain ⟨hle, hlen⟩ := length_step hs
      apply List.ne_nil_of_length_pos
      omega

theorem heightAfter_of_step {i : Instruction} {stack stack' : List V}
    (h : step I i stack = some stack') : i.heightAfter stack.length = stack'.length := by
  obtain ⟨hle, hlen⟩ := length_step h
  have hheight := Instruction.heightAfter_add_pops hle
  omega

theorem checkFrom_cons_of_step {i : Instruction} {stack stack' : List V}
    (h : step I i stack = some stack') (index : Nat) (code : List Instruction) :
    checkFrom index stack.length (i :: code) = checkFrom (index + 1) stack'.length code := by
  obtain ⟨hle, hlen⟩ := length_step h
  have hheight : stack.length - i.pops + 1 = stack'.length := by omega
  rw [checkFrom, if_neg (Nat.not_lt.mpr hle), hheight]

theorem checkFrom_of_run_some {code : List Instruction} {stack stack' : List V}
    (h : run I code stack = some stack') (index : Nat) :
    checkFrom index stack.length code =
      if 1 < stack'.length then .error (.unbalanced stack'.length) else .ok stack'.length := by
  induction code generalizing stack index with
  | nil => cases h; rfl
  | cons i code ih =>
    obtain ⟨s, hs, h⟩ := Option.bind_eq_some_iff.mp h
    rw [checkFrom_cons_of_step hs]
    exact ih h (index + 1)

/-! ## Where a run is stuck -/

/-- The first `n` instructions run and leave the stack on which the next one cannot run. -/
structure StuckAt (I : Interpretation V) (code : List Instruction) (stack : List V) (n : Nat)
    (stack' : List V) : Prop where
  runs : run I (code.take n) stack = some stack'
  stuck : ∃ i, code[n]? = some i ∧ step I i stack' = none

theorem StuckAt.run_eq_none {code : List Instruction} {stack stack' : List V} {n : Nat}
    (h : StuckAt I code stack n stack') : run I code stack = none := by
  obtain ⟨i, hi, hstep⟩ := h.stuck
  obtain ⟨hn, rfl⟩ := List.getElem?_eq_some_iff.mp hi
  rw [← List.take_append_drop n code, run_append, h.runs, List.drop_eq_getElem_cons hn,
    Option.bind_some, run, hstep, Option.bind_none]

theorem exists_stuckAt_of_run_none {code : List Instruction} {stack : List V}
    (h : run I code stack = none) : ∃ n stack', StuckAt I code stack n stack' := by
  induction code generalizing stack with
  | nil => cases h
  | cons i code ih =>
    cases hs : step I i stack with
    | none => exact ⟨0, stack, rfl, i, rfl, hs⟩
    | some s =>
      rw [run, hs, Option.bind_some] at h
      obtain ⟨n, stack', hruns, hstuck⟩ := ih h
      refine ⟨n + 1, stack', ?_, hstuck⟩
      rw [List.take_succ_cons, run, hs]
      exact hruns

theorem pops_eq_two_of_step {i : Instruction} {stack : List V} (h : step I i stack = none) :
    i.pops = 2 := by
  cases i with
  | push c => cases h
  | apply op => rfl

/-- The check finds the place where the machine is stuck. -/
theorem checkFrom_of_stuckAt {code : List Instruction} {stack stack' : List V} {n : Nat}
    (h : StuckAt I code stack n stack') (index : Nat) :
    checkFrom index stack.length code = .error (.underflow (index + n) 2 stack'.length) := by
  induction n generalizing code stack index with
  | zero =>
    obtain ⟨hruns, i, hi, hstep⟩ := h
    cases code with
    | nil => cases hi
    | cons j code =>
      cases hi
      cases hruns
      have hpops := pops_eq_two_of_step hstep
      have hlow := step_eq_none_iff.mp hstep
      rw [checkFrom, if_pos hlow, hpops, Nat.add_zero]
  | succ n ih =>
    obtain ⟨hruns, hstuck⟩ := h
    cases code with
    | nil => obtain ⟨i, hi, _⟩ := hstuck; cases hi
    | cons j code =>
      rw [List.take_succ_cons] at hruns
      obtain ⟨s, hs, hruns⟩ := Option.bind_eq_some_iff.mp hruns
      rw [checkFrom_cons_of_step hs, ih ⟨hruns, hstuck⟩]
      congr 2
      omega

theorem StuckAt.length_lt {code : List Instruction} {stack stack' : List V} {n : Nat}
    (h : StuckAt I code stack n stack') : stack'.length < 2 := by
  obtain ⟨i, _, hstep⟩ := h.stuck
  have hlow := step_eq_none_iff.mp hstep
  rwa [pops_eq_two_of_step hstep] at hlow

/-! ## How high the stack gets -/

/-- The heights of the stack before the code runs and after each of its instructions. -/
def Heights (I : Interpretation V) (code : List Instruction) (stack : List V) : Set Nat :=
  {height | ∃ n stack', run I (code.take n) stack = some stack' ∧ stack'.length = height}

theorem heights_nil (stack : List V) : Heights I [] stack = {stack.length} := by
  ext height
  simp [Heights, run, eq_comm]

theorem heights_cons {i : Instruction} {stack stack' : List V} (h : step I i stack = some stack')
    (code : List Instruction) :
    Heights I (i :: code) stack = insert stack.length (Heights I code stack') := by
  ext height
  constructor
  · rintro ⟨n, s, hruns, rfl⟩
    cases n with
    | zero => cases hruns; exact Set.mem_insert _ _
    | succ n =>
      rw [List.take_succ_cons, run, h] at hruns
      exact Set.mem_insert_of_mem _ ⟨n, s, hruns, rfl⟩
  · rintro (rfl | ⟨n, s, hruns, rfl⟩)
    · exact ⟨0, stack, rfl, rfl⟩
    · refine ⟨n + 1, s, ?_, rfl⟩
      rw [List.take_succ_cons, run, h]
      exact hruns

theorem isGreatest_peakFrom {code : List Instruction} {stack stack' : List V}
    (h : run I code stack = some stack') :
    IsGreatest (Heights I code stack) (peakFrom stack.length code) := by
  induction code generalizing stack with
  | nil =>
    rw [heights_nil]
    exact isGreatest_singleton
  | cons i code ih =>
    obtain ⟨s, hs, h⟩ := Option.bind_eq_some_iff.mp h
    rw [heights_cons hs, peakFrom, heightAfter_of_step hs]
    exact (ih h).insert stack.length

/-- The stack never holds more than it held before and what was pushed. -/
theorem le_of_mem_heights {code : List Instruction} {stack : List V} {height : Nat}
    (h : height ∈ Heights I code stack) :
    height ≤ stack.length + code.countP Instruction.isPush := by
  obtain ⟨n, stack', hruns, rfl⟩ := h
  have hlen := length_run hruns
  have hpush := (List.take_sublist n code).countP_le (p := Instruction.isPush)
  omega

end Machine

/-! ## The analyses of a fragment -/

/-- For all code and whatever it computes, the check tells where the machine is stuck, with how many
values, or how many values it leaves. If it is not stuck, the peak is the greatest height of the
stack. -/
theorem checkStack_exact (I : Interpretation V) (f : Fragment) :
    (∀ index needed height, f.checkStack = .error (.underflow index needed height) ↔
      needed = 2 ∧ height < 2 ∧
        ∃ stack, Machine.StuckAt I f.code [] index stack ∧ stack.length = height) ∧
    (∀ height, f.checkStack = .error (.unbalanced height) ↔
      2 ≤ height ∧ ∃ stack, Machine.run I f.code [] = some stack ∧ stack.length = height) ∧
    (∀ height, f.checkStack = .ok height ↔
      height ≤ 1 ∧ ∃ stack, Machine.run I f.code [] = some stack ∧ stack.length = height) ∧
    ((∀ index needed height, f.checkStack ≠ .error (.underflow index needed height)) →
      IsGreatest (Machine.Heights I f.code []) f.peak ∧ f.peak ≤ f.code.countP Instruction.isPush) := by
  have hstuck {n : Nat} {s : List V} (h : Machine.StuckAt I f.code [] n s) :
      f.checkStack = .error (.underflow n 2 s.length) := by
    simpa [Fragment.checkStack] using Machine.checkFrom_of_stuckAt h 0
  cases hrun : Machine.run I f.code [] with
  | some stack =>
    have hcheck : f.checkStack = if 1 < stack.length then .error (.unbalanced stack.length)
        else .ok stack.length := Machine.checkFrom_of_run_some hrun 0
    have hpeak : IsGreatest (Machine.Heights I f.code []) f.peak := Machine.isGreatest_peakFrom hrun
    have hnot {n : Nat} {s : List V} : ¬ Machine.StuckAt I f.code [] n s := by
      intro h
      rw [h.run_eq_none] at hrun
      cases hrun
    refine ⟨?_, ?_, ?_, fun _ => ⟨hpeak, by simpa using Machine.le_of_mem_heights hpeak.1⟩⟩
    · intro index needed height
      rw [hcheck]
      constructor
      · intro h
        split at h <;> cases h
      · rintro ⟨_, _, s, h, _⟩
        exact absurd h hnot
    · intro height
      rw [hcheck]
      split <;> simp <;> omega
    · intro height
      rw [hcheck]
      split <;> simp <;> omega
  | none =>
    obtain ⟨n, s, h⟩ := Machine.exists_stuckAt_of_run_none hrun
    have hcheck := hstuck h
    refine ⟨?_, ?_, ?_, fun hno => absurd hcheck (hno n 2 s.length)⟩
    · intro index needed height
      constructor
      · intro herror
        rw [hcheck] at herror
        cases herror
        exact ⟨rfl, h.length_lt, s, h, rfl⟩
      · rintro ⟨rfl, _, s', h', rfl⟩
        exact hstuck h'
    · intro height
      simp [hcheck]
    · intro height
      simp [hcheck]

/-- The code of a sum of three numbers holds three values at most and leaves one; with one more
operator it is stuck there, with one value. -/
theorem checkStack_exact_threeItems :
    IsGreatest (Machine.Heights weighing threeItemsCode []) 3 ∧
    (∃ stack, Machine.run weighing threeItemsCode [] = some stack ∧ stack.length = 1) ∧
    ∃ stack, Machine.StuckAt weighing (threeItemsCode ++ [.apply .add]) [] 5 stack ∧
      stack.length = 1 := by
  have hok : (⟨threeItemsCode, .atomic⟩ : Fragment).checkStack = .ok 1 := by decide
  have hlow : (⟨threeItemsCode ++ [.apply .add], .atomic⟩ : Fragment).checkStack =
      .error (.underflow 5 2 1) := by decide
  obtain ⟨_, _, hleaves, hpeak⟩ := checkStack_exact weighing ⟨threeItemsCode, .atomic⟩
  obtain ⟨hstuck, _⟩ := checkStack_exact weighing ⟨threeItemsCode ++ [.apply .add], .atomic⟩
  refine ⟨(hpeak ?_).1, ((hleaves 1).mp hok).2, ((hstuck 5 2 1).mp hlow).2.2⟩
  intro index needed height hunderflow
  rw [hok] at hunderflow
  cases hunderflow

end BlockCode
