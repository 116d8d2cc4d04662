import BlockCode.Proofs.PathOrder
import BlockCode.Proofs.Reach

/- Which fault a compilation reports. `compile_error_iff` says that it fails exactly if
   a block with a fault can be reached, and that it then reports the first such block
   in pre-order, with its fault and its path.

   Both halves go by induction on the levels that are left, with the depth of the
   block as their complement: a block that compiles has no fault at or below it
   (`reading_ne_fault_of_ok`), and before the fault that a block reports there is no
   other (`first_fault_of_error`). -/
namespace BlockCode
universe u
variable {α : Type u} [Node α] {o : Options}

/-- The fault and the path are those of the first block with a fault that is reached
from a block at a depth. -/
def FirstFault (o : Options) (depth : Nat) (node : α) (e : Failure) : Prop :=
  (∃ block, Reaches o depth node e.path block ∧
    Reading.atDepth o (depth + e.path.length) block = .fault e.fault) ∧
  ∀ path block fault, Reaches o depth node path block →
    Reading.atDepth o (depth + path.length) block = .fault fault → path = e.path ∨ e.path.Before path

theorem pairwise_operandSlots : [slotA, slotB].Pairwise SlotBefore := by
  simp [SlotBefore]

theorem pairwise_itemSlots (count : Nat) : (itemSlots count).Pairwise SlotBefore := by
  refine List.pairwise_map.mpr (List.pairwise_lt_range.imp ?_)
  intro i j hij
  exact .inr ⟨i, j, hij, rfl, rfl⟩

theorem Reading.pairwise_slots {node : α} {op : Arith} {slots : List String}
    (h : ofNode o node = .operation op slots) : slots.Pairwise SlotBefore := by
  obtain ⟨_, _, _, rfl⟩ | ⟨_, count, _, _, _, rfl⟩ := ofNode_operation h
  · exact pairwise_operandSlots
  · exact pairwise_itemSlots count

theorem reading_ne_fault_of_ok {levels depth : Nat} {node : α} {f : Fragment}
    (hd : depth + levels = o.maxDepth) (h : (Compile.block o levels node).result = .ok f)
    {path : Path} {block : α} (hr : Reaches o depth node path block) (fault : Fault) :
    Reading.atDepth o (depth + path.length) block ≠ .fault fault := by
  induction levels generalizing depth node f path with
  | zero => cases h
  | succ levels ih =>
    have hat : Reading.atDepth o depth node = _ := Reading.atDepth_of_lt (by omega) node
    obtain ⟨c, hc, _⟩ | ⟨op, slots, _, hop, _⟩ := Compile.block_ok h
    · obtain ⟨rfl, rfl⟩ := hr.eq_of_slots_nil (by rw [hat, hc]; rfl)
      simp [hat, hc]
    · cases hr with
      | root => simp [hat, hop]
      | @slot _ _ child _ slot path hslot hchild hr =>
        rw [hat] at hslot
        obtain ⟨g, hg⟩ := Compile.exists_operand_of_ok h slot hslot
        have hd : depth + 1 + levels = o.maxDepth := by omega
        rw [depth_cons]
        exact ih hd ((Compile.operand_ok_iff hchild).mp hg) hr

/-- What a block that does not compile reports is the first fault at or below it. -/
theorem first_fault_of_error {levels depth : Nat} {node : α} {e : Failure}
    (hd : depth + levels = o.maxDepth) (h : (Compile.block o levels node).result = .error e) :
    FirstFault o depth node e := by
  induction levels generalizing depth node e with
  | zero =>
    -- no level is left, so the block is too deep, and nothing below it is read
    cases h
    have hat : Reading.atDepth o depth node = .fault _ := if_pos (by omega)
    refine ⟨⟨node, .root, hat⟩, ?_⟩
    intro path block fault hr _
    exact .inl (hr.eq_of_slots_nil (by rw [hat]; rfl)).1
  | succ levels ih =>
    have hat : Reading.atDepth o depth node = _ := Reading.atDepth_of_lt (by omega) node
    obtain ⟨fault, hf, rfl⟩ | ⟨op, before, slot, after, hop, hbefore, child, e', hchild, he', rfl⟩ :=
      Compile.block_error h
    · refine ⟨⟨node, .root, hat.trans hf⟩, ?_⟩
      intro path block fault hr _
      exact .inl (hr.eq_of_slots_nil (by rw [hat, hf]; rfl)).1
    · have hd' : depth + 1 + levels = o.maxDepth := by omega
      have hlen (path : Path) : depth + (path.length + 1) = depth + 1 + path.length := by omega
      obtain ⟨⟨block, hr, hfault⟩, hfirst⟩ := ih hd' he'
      have hslot : slot ∈ (Reading.atDepth o depth node).slots := by
        rw [hat, hop]; simp [Reading.slots]
      refine ⟨⟨block, .slot hslot hchild hr, by rwa [List.length_cons, hlen]⟩, ?_⟩
      intro path other fault hpath hother
      cases hpath with
      | root => rw [List.length_nil, Nat.add_zero, hat, hop] at hother; cases hother
      | @slot _ _ child' _ slot' path hslot' hchild' hpath =>
        rw [List.length_cons, hlen] at hother
        rw [hat, hop] at hslot'
        -- the fault lies in a slot before the one that failed, in that slot, or after it
        obtain hb | hs := List.mem_append.mp hslot'
        · obtain ⟨g, hg⟩ := hbefore slot' hb
          have hok := (Compile.operand_ok_iff hchild').mp hg
          exact absurd hother (reading_ne_fault_of_ok hd' hok hpath fault)
        · obtain rfl | ha := List.mem_cons.mp hs
          · rw [hchild] at hchild'; cases hchild'
            obtain rfl | hlt := hfirst path other fault hpath hother
            · exact .inl rfl
            · exact .inr (.deeper hlt)
          · have hp := List.pairwise_append.mp (Reading.pairwise_slots hop)
            exact .inr (.slot ((List.pairwise_cons.mp hp.2.1).1 slot' ha))

theorem FirstFault.unique {depth : Nat} {node : α} {e e' : Failure} (h : FirstFault o depth node e)
    (h' : FirstFault o depth node e') : e = e' := by
  obtain ⟨⟨block, hr, hf⟩, hfirst⟩ := h
  obtain ⟨⟨block', hr', hf'⟩, hfirst'⟩ := h'
  have hpath : e.path = e'.path := by
    obtain h | h := hfirst' _ _ _ hr hf
    · exact h
    · obtain h' | h' := hfirst _ _ _ hr' hf'
      · exact h'.symm
      · exact absurd h h'.asymm
  rw [← hpath] at hr' hf'
  cases hr.unique hr'
  have hfault : e.fault = e'.fault := Reading.fault.inj (hf.symm.trans hf')
  cases e
  cases e'
  simp_all

/-- A compilation fails exactly if a block with a fault is reached, and what it reports
is the first one in pre-order. -/
theorem compile_error_iff (o : Options) (node : α) :
    ((∃ e, (compile o node).result = .error e) ↔ ∃ path block fault,
      Reaches o 0 node path block ∧ Reading.atDepth o path.length block = .fault fault) ∧
    ∀ e, (compile o node).result = .error e ↔ FirstFault o 0 node e := by
  have hd : 0 + o.maxDepth = o.maxDepth := Nat.zero_add _
  rw [result_compile]
  cases h : (Compile.block o o.maxDepth node).result with
  | ok f =>
    have hno {path : Path} {block : α} {fault : Fault} (hr : Reaches o 0 node path block) :
        Reading.atDepth o (0 + path.length) block ≠ .fault fault :=
      reading_ne_fault_of_ok hd h hr fault
    refine ⟨⟨?_, ?_⟩, fun e => ⟨?_, ?_⟩⟩
    · intro he
      obtain ⟨e, he⟩ := he
      cases he
    · intro hfaulty
      obtain ⟨path, block, fault, hr, hf⟩ := hfaulty
      exact absurd hf (by simpa using hno hr)
    · intro he
      cases he
    · intro hfirst
      obtain ⟨block, hr, hf⟩ := hfirst.1
      exact absurd hf (hno hr)
  | error e =>
    have hfirst := first_fault_of_error hd h
    obtain ⟨block, hr, hf⟩ := hfirst.1
    rw [Nat.zero_add] at hf
    refine ⟨⟨fun _ => ⟨e.path, block, e.fault, hr, hf⟩, fun _ => ⟨e, rfl⟩⟩, fun e' => ⟨?_, ?_⟩⟩
    · intro he
      cases he
      exact hfirst
    · intro hfirst'
      rw [hfirst.unique hfirst']

end BlockCode
