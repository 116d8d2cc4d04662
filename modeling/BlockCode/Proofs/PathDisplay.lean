import Mathlib
import BlockCode.Block
import BlockCode.Graph
import BlockCode.Proofs.FirstFault

/- What a displayed path says. The path of a failure is shown with its slots joined by slashes, and a
   failure of the root as `<root>`. Joined texts cannot be taken apart in general; here they can,
   because a compilation goes through slots only whose names are letters and digits
   (`IsSlot.isAlphanum`). `display_path_iff` says that the displayed path determines the path, for
   failures of any two compilations, and how to get it back. -/
namespace BlockCode
universe u v

/-! ## Slots on the way of a compilation -/

/-- The names of the slots that a compilation reads. -/
inductive IsSlot : String → Prop where
  | first : IsSlot slotA
  | second : IsSlot slotB
  | item (i : Nat) : IsSlot (listSlot i)

theorem IsSlot.isAlphanum {slot : String} (h : IsSlot slot) : ∀ c ∈ slot.toList, c.isAlphanum := by
  cases h with
  | first => simp [slotA]
  | second => simp [slotB]
  | item i =>
    intro c hc
    rw [listSlot, String.toList_append, Nat.toString_eq_repr, Nat.toList_repr] at hc
    obtain hc | hc := List.mem_append.mp hc
    · obtain rfl | rfl | rfl : c = 'N' ∨ c = 'U' ∨ c = 'M' := by simpa using hc
      all_goals rfl
    · have hdigit : c.isDigit := Nat.isDigit_of_mem_toDigits (by decide) (by decide) hc
      simp [Char.isAlphanum, hdigit]

section
variable {α : Type u} [Node α] {o : Options} {depth : Nat} {node block : α} {path : Path}

theorem isSlot_of_mem_slots {slot : String} (h : slot ∈ (Reading.atDepth o depth node).slots) :
    IsSlot slot := by
  rw [Reading.atDepth] at h
  split at h
  · cases h
  · cases hr : Reading.ofNode o node with
    | fault | constant => rw [hr] at h; cases h
    | operation op slots =>
      rw [hr] at h
      obtain ⟨_, _, _, rfl⟩ | ⟨_, count, _, _, _, rfl⟩ := Reading.ofNode_operation hr
      · obtain rfl | rfl : slot = slotA ∨ slot = slotB := by simpa [Reading.slots] using h
        · exact .first
        · exact .second
      · obtain ⟨i, _, rfl⟩ := List.mem_map.mp h
        exact .item i

theorem Reaches.isSlot (h : Reaches o depth node path block) : ∀ slot ∈ path, IsSlot slot := by
  induction h with
  | root => simp
  | slot hslot _ _ ih => exact List.forall_mem_cons.mpr ⟨isSlot_of_mem_slots hslot, ih⟩

end

/-! ## Joining and splitting -/

theorem Path.display_of_ne_nil {path : Path} (h : path ≠ []) : path.display = "/".intercalate path := by
  rw [display, if_neg (by simpa using h)]

def partsAtSlash (text : String) : List String := (text.split '/').toList.map String.Slice.copy

/-- Names without a slash can be told apart after they are joined. -/
theorem partsAtSlash_intercalate {names : List String} (hne : names ≠ [])
    (h : ∀ name ∈ names, '/' ∉ name.toList) : partsAtSlash ("/".intercalate names) = names := by
  have hsplit := String.toList_split_intercalate h
  rw [if_neg hne] at hsplit
  exact hsplit

section
variable {path path' : Path} (h : ∀ slot ∈ path, IsSlot slot) (h' : ∀ slot ∈ path', IsSlot slot)
include h

theorem slash_not_mem_slot : ∀ slot ∈ path, '/' ∉ slot.toList :=
  fun slot hslot hmem => absurd ((h slot hslot).isAlphanum '/' hmem) (by decide)

theorem partsAtSlash_display (hne : path ≠ []) : partsAtSlash path.display = path := by
  rw [Path.display_of_ne_nil hne]
  exact partsAtSlash_intercalate hne (slash_not_mem_slot h)

theorem display_eq_root_iff : path.display = "<root>" ↔ path = [] := by
  constructor
  · intro hroot
    by_contra hne
    have hpath : partsAtSlash "<root>" = path := hroot ▸ partsAtSlash_display h hne
    have hplain : ∀ name ∈ ["<root>"], '/' ∉ name.toList := by simp
    have hsingle : partsAtSlash "<root>" = ["<root>"] :=
      partsAtSlash_intercalate (List.cons_ne_nil _ _) hplain
    have hslot : IsSlot "<root>" := h _ (by rw [← hpath, hsingle]; simp)
    exact absurd (hslot.isAlphanum '<' (by simp)) (by decide)
  · intro hnil
    rw [hnil]
    rfl

include h' in
theorem display_inj (heq : path.display = path'.display) : path = path' := by
  by_cases hne : path = []
  · rw [hne] at heq
    rw [hne, (display_eq_root_iff h').mp heq.symm]
  · have hne' : path' ≠ [] := by
      intro hnil
      rw [hnil] at heq
      exact hne ((display_eq_root_iff h).mp heq)
    rw [← partsAtSlash_display h hne, heq, partsAtSlash_display h' hne']

end

/-! ## Failures of compilations -/

section
variable {α : Type u} {β : Type v} [Node α] [Node β] {o : Options} {node : α} {e : Failure}

theorem firstFault_of_compile (h : (compile o node).result = .error e) : FirstFault o 0 node e := by
  rw [result_compile] at h
  exact first_fault_of_error (Nat.zero_add _) h

theorem isSlot_of_failure (h : (compile o node).result = .error e) : ∀ slot ∈ e.path, IsSlot slot := by
  obtain ⟨⟨_, hreaches, _⟩, _⟩ := firstFault_of_compile h
  exact hreaches.isSlot

theorem path_eq_nil_iff (h : (compile o node).result = .error e) :
    e.path = [] ↔ ∃ fault, Reading.atDepth o 0 node = .fault fault := by
  obtain ⟨⟨block, hreaches, hfault⟩, _⟩ := firstFault_of_compile h
  constructor
  · intro hnil
    rw [hnil] at hreaches hfault
    cases hreaches
    exact ⟨e.fault, hfault⟩
  · intro hroot
    obtain ⟨fault, hroot⟩ := hroot
    exact (hreaches.eq_of_slots_nil (by rw [hroot]; rfl)).1

/-- The displayed path of a failure determines its path, whatever was compiled and within which limits.
It is `<root>` exactly if the root itself has the fault; any other displayed path, split at the slashes,
is the path. -/
theorem display_path_iff (o o' : Options) (x : α) (y : β) {e e' : Failure}
    (h : (compile o x).result = .error e) (h' : (compile o' y).result = .error e') :
    (e.path.display = e'.path.display ↔ e.path = e'.path) ∧
    (e.path.display = "<root>" ↔ e.path = []) ∧
    (e.path.display = "<root>" ↔ ∃ fault, Reading.atDepth o 0 x = .fault fault) ∧
    (e.path.display ≠ "<root>" → partsAtSlash e.path.display = e.path) := by
  have hslots := isSlot_of_failure h
  have hroot := display_eq_root_iff hslots
  refine ⟨⟨display_inj hslots (isSlot_of_failure h'), congrArg Path.display⟩, hroot,
    hroot.trans (path_eq_nil_iff h), ?_⟩
  intro hne
  apply partsAtSlash_display hslots
  intro hnil
  exact hne (hroot.mpr hnil)

end

/-- A sum, in the second item of which there is a power. -/
def sumWithPower : Block :=
  .list .add [none, some (.binary .subtract none (some (.binary .power none none)))]

/-- A sum of twelve items, the last of which is the sum itself. -/
def lateCircle : Graph where
  cells := #[⟨.list .add, [], [("NUM11", 0)], some 12⟩]

theorem display_path_iff_lateCircle :
    ((compile {} sumWithPower).result = .error ⟨.unimplementedOperator .power, ["NUM1", "B"]⟩ ∧
      (compile { maxDepth := 2 } (⟨0, by decide⟩ : lateCircle.Ref)).result =
        .error ⟨.malformed (.depthExceeded 2), ["NUM11", "NUM11"]⟩ ∧
      (compile { maxDepth := 0 } sumWithPower).result = .error ⟨.malformed (.depthExceeded 0), []⟩) ∧
    Path.display ["NUM1", "B"] ≠ Path.display ["NUM11", "NUM11"] ∧
    Path.display ["NUM1", "B"] ≠ "<root>" ∧
    partsAtSlash (Path.display ["NUM1", "B"]) = ["NUM1", "B"] ∧
    ∃ fault, Reading.atDepth { maxDepth := 0 } 0 sumWithPower = .fault fault := by
  have hpower : (compile {} sumWithPower).result =
      .error ⟨.unimplementedOperator .power, ["NUM1", "B"]⟩ := by decide +kernel
  have hcircle : (compile { maxDepth := 2 } (⟨0, by decide⟩ : lateCircle.Ref)).result =
      .error ⟨.malformed (.depthExceeded 2), ["NUM11", "NUM11"]⟩ := by decide +kernel
  have hdepth : (compile { maxDepth := 0 } sumWithPower).result =
      .error ⟨.malformed (.depthExceeded 0), []⟩ := by decide +kernel
  obtain ⟨hsame, hroot, _, hsplit⟩ := display_path_iff _ _ _ _ hpower hcircle
  obtain ⟨_, _, hfault, _⟩ := display_path_iff _ _ _ _ hdepth hpower
  have hne : Path.display ["NUM1", "B"] ≠ "<root>" := fun h => absurd (hroot.mp h) (by decide)
  exact ⟨⟨hpower, hcircle, hdepth⟩, fun h => absurd (hsame.mp h) (by decide), hne, hsplit hne,
    hfault.mp rfl⟩

end BlockCode
