import Mathlib
import BlockCode.Failure
import BlockCode.Node

/- The order of the blocks of a tree. `Path.Before` is the pre-order on paths: a block
   comes before its operands, and the operands of a block come in the order in which
   they are read. It speaks of slot names only, so it orders the paths of any tree and
   of any graph. Slot names determine their position (`listSlot_inj`), and therefore
   no two blocks come before each other (`Path.Before.asymm`). Where two paths part, the
   slots decide which comes first (`Path.before_fork_iff`). -/
namespace BlockCode

theorem listSlot_inj {i j : Nat} (h : listSlot i = listSlot j) : i = j := by
  have h : i.repr = j.repr := (String.append_right_inj "NUM").mp h
  exact Nat.repr_injective h

theorem listSlot_ne_slotA (i : Nat) : listSlot i ≠ slotA := by
  intro h
  have := congrArg String.toList h
  simp [listSlot, slotA] at this

theorem listSlot_ne_slotB (i : Nat) : listSlot i ≠ slotB := by
  intro h
  have := congrArg String.toList h
  simp [listSlot, slotB] at this

/-- The slot is read before the other, where a block has both. -/
def SlotBefore (s t : String) : Prop :=
  (s = slotA ∧ t = slotB) ∨ ∃ i j, i < j ∧ s = listSlot i ∧ t = listSlot j

theorem SlotBefore.asymm {s t : String} (h : SlotBefore s t) (h' : SlotBefore t s) : False := by
  rcases h with ⟨rfl, rfl⟩ | ⟨i, j, hij, rfl, rfl⟩
  · rcases h' with ⟨h, _⟩ | ⟨i, _, _, h, _⟩
    · exact absurd h (by decide)
    · exact listSlot_ne_slotB i h.symm
  · rcases h' with ⟨h, _⟩ | ⟨k, l, hkl, hk, hl⟩
    · exact listSlot_ne_slotA j h
    · have := listSlot_inj hk
      have := listSlot_inj hl
      omega

theorem SlotBefore.irrefl {s : String} (h : SlotBefore s s) : False := h.asymm h

/-- The block at the path comes before the block at the other path. -/
inductive Path.Before : Path → Path → Prop where
  | root {slot : String} {path : Path} : Before [] (slot :: path)
  | slot {s t : String} {p q : Path} : SlotBefore s t → Before (s :: p) (t :: q)
  | deeper {s : String} {p q : Path} : Before p q → Before (s :: p) (s :: q)

theorem Path.Before.asymm {p q : Path} (h : Before p q) : ¬ Before q p := by
  induction h with
  | root => intro h'; cases h'
  | slot hst =>
    intro h'
    cases h' with
    | slot hts => exact hst.asymm hts
    | deeper _ => exact hst.asymm hst
  | deeper _ ih =>
    intro h'
    cases h' with
    | slot hss => exact hss.asymm hss
    | deeper h' => exact ih h'

theorem Path.Before.ne {p q : Path} (h : Before p q) : p ≠ q := by
  rintro rfl
  exact h.asymm h

/-! ## Paths that part -/

/-- Two paths of which neither goes on from the other part at some block. -/
theorem Path.fork_of_not_prefix {p q : Path} (hp : ¬ p <+: q) (hq : ¬ q <+: p) :
    ∃ common s t p' q', p = common ++ s :: p' ∧ q = common ++ t :: q' ∧ s ≠ t := by
  induction p generalizing q with
  | nil => exact absurd List.nil_prefix hp
  | cons s p ih =>
    cases q with
    | nil => exact absurd List.nil_prefix hq
    | cons t q =>
      by_cases hst : s = t
      · subst hst
        rw [List.prefix_cons_inj] at hp hq
        obtain ⟨common, s', t', p', q', rfl, rfl, hne⟩ := ih hp hq
        exact ⟨s :: common, s', t', p', q', rfl, rfl, hne⟩
      · exact ⟨[], s, t, p, q, rfl, rfl, hst⟩

theorem Path.before_fork_iff {common p q : Path} {s t : String} (hst : s ≠ t) :
    Before (common ++ s :: p) (common ++ t :: q) ↔ SlotBefore s t := by
  induction common with
  | nil =>
    constructor
    · intro h
      cases h with
      | slot h => exact h
      | deeper _ => exact absurd rfl hst
    · exact .slot
  | cons slot common ih =>
    rw [← ih]
    constructor
    · intro h
      cases h with
      | slot h => exact h.irrefl.elim
      | deeper h => exact h
    · exact .deeper

/-! ## Slots in order -/

theorem slotBefore_or_of_mem {slots : List String} (h : slots.Pairwise SlotBefore) {s t : String}
    (hs : s ∈ slots) (ht : t ∈ slots) (hne : s ≠ t) : SlotBefore s t ∨ SlotBefore t s := by
  obtain ⟨before, after, rfl⟩ := List.append_of_mem hs
  obtain ⟨_, hafter, hbefore⟩ := List.pairwise_append.mp h
  obtain ht | ht := List.mem_append.mp ht
  · exact .inr (hbefore t ht s List.mem_cons_self)
  · obtain rfl | ht := List.mem_cons.mp ht
    · exact absurd rfl hne
    · exact .inl ((List.pairwise_cons.mp hafter).1 t ht)

theorem split_of_slotBefore {slots : List String} (h : slots.Pairwise SlotBefore) {s t : String}
    (hs : s ∈ slots) (ht : t ∈ slots) (hst : SlotBefore s t) :
    ∃ before between after, slots = before ++ s :: (between ++ t :: after) := by
  obtain ⟨before, rest, rfl⟩ := List.append_of_mem hs
  obtain ⟨_, _, hbefore⟩ := List.pairwise_append.mp h
  obtain ht | ht := List.mem_append.mp ht
  · exact (hst.asymm (hbefore t ht s List.mem_cons_self)).elim
  · obtain rfl | ht := List.mem_cons.mp ht
    · exact hst.irrefl.elim
    · obtain ⟨between, after, rfl⟩ := List.append_of_mem ht
      exact ⟨before, between, after, rfl⟩

end BlockCode
