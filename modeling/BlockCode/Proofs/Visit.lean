import Mathlib
import BlockCode.Block
import BlockCode.Proofs.Spans

/- The blocks that a compilation comes to. `Visits` follows the run: from a block it goes
   on into the slots that are read, one after the other, as long as what was in the
   slots before has compiled. If the compilation succeeds, this is every block that can
   be reached; if not, the last block is the one with the fault.

   The sketch of a tree shows all these blocks (`Reaches.shows`), although it goes through
   the tree in its own way: it shortens long lists, on which a compilation fails, and it
   shows the operands of powers, of which a compilation reads none. `spanOf_of_visits`
   says how the two agree, and what the sketch shows in place of a block with a fault. -/
namespace BlockCode
universe u
variable {α : Type u} [Node α] {o : Options}

/-! ## Following the run -/

/-- The compilation of a block, of which at most `levels` levels are read, comes to
another block by the path. -/
inductive Visits (o : Options) : (levels : Nat) → α → Path → α → Prop where
  | root {levels : Nat} {node : α} : Visits o levels node [] node
  | slot {levels : Nat} {node child block : α} {op : Arith} {before after : List String}
    {slot : String} {path : Path} :
    Reading.ofNode o node = .operation op (before ++ slot :: after) →
    (∀ s ∈ before, ∃ f, (Compile.operand .atomic (Compile.block o levels) node s).result = .ok f) →
    Node.input node slot = some child → Visits o levels child path block →
    Visits o (levels + 1) node (slot :: path) block

theorem Visits.reaches {levels depth : Nat} {node block : α} {path : Path}
    (hd : depth + levels = o.maxDepth) (h : Visits o levels node path block) :
    Reaches o depth node path block := by
  induction h generalizing depth with
  | root => exact .root
  | @slot levels node _ _ _ _ _ _ _ hop _ hchild _ ih =>
    have hat : Reading.atDepth o depth node = _ := Reading.atDepth_of_lt (by omega) node
    refine .slot ?_ hchild (ih (by omega))
    rw [hat, hop]
    simp [Reading.slots]

/-- Below a block that compiles, all blocks that can be reached are visited. -/
theorem Reaches.visits {levels depth : Nat} {node block : α} {path : Path} {f : Fragment}
    (hd : depth + levels = o.maxDepth) (h : (Compile.block o levels node).result = .ok f)
    (hr : Reaches o depth node path block) : Visits o levels node path block := by
  induction levels generalizing depth node f path with
  | zero => cases h
  | succ levels ih =>
    have hat : Reading.atDepth o depth node = _ := Reading.atDepth_of_lt (by omega) node
    cases hr with
    | root => exact .root
    | @slot _ _ child _ slot path hslot hchild hr =>
      rw [hat] at hslot
      have hcompiles := Compile.exists_operand_of_ok h
      obtain ⟨g, hg⟩ := hcompiles slot hslot
      obtain ⟨c, hc, _⟩ | ⟨op, slots, _, hop, _⟩ := Compile.block_ok h
      · rw [hc] at hslot
        cases hslot
      · rw [hop] at hslot hcompiles
        obtain ⟨before, after, rfl⟩ := List.append_of_mem hslot
        refine .slot hop ?_ hchild (ih (by omega) ((Compile.operand_ok_iff hchild).mp hg) hr)
        intro s hs
        exact hcompiles s (List.mem_append_left _ hs)

theorem visits_of_error {levels depth : Nat} {node : α} {e : Failure}
    (hd : depth + levels = o.maxDepth) (h : (Compile.block o levels node).result = .error e) :
    ∃ block, Visits o levels node e.path block ∧
      Reading.atDepth o (depth + e.path.length) block = .fault e.fault := by
  induction levels generalizing depth node e with
  | zero =>
    cases h
    exact ⟨node, .root, if_pos (by simpa using hd.ge)⟩
  | succ levels ih =>
    have hat : Reading.atDepth o depth node = _ := Reading.atDepth_of_lt (by omega) node
    obtain ⟨fault, hf, rfl⟩ | ⟨op, before, slot, after, hop, hbefore, child, e', hchild, he', rfl⟩ :=
      Compile.block_error h
    · exact ⟨node, .root, hat.trans hf⟩
    · obtain ⟨block, hvisits, hfault⟩ := ih (by omega : depth + 1 + levels = o.maxDepth) he'
      rw [← depth_cons depth slot e'.path] at hfault
      exact ⟨block, .slot hop hbefore hchild hvisits, hfault⟩

/-! ## What is read and what is shown -/

/-- At a block without a fault, the slots that are read are the slots that are shown. -/
theorem slots_eq_shownSlots {node : α} (h : ∀ fault, Reading.ofNode o node ≠ .fault fault) :
    (Reading.ofNode o node).slots = shownSlots o node := by
  cases hr : Reading.ofNode o node with
  | fault fault => exact absurd hr (h fault)
  | constant c => simp [shownSlots, (Reading.ofNode_constant hr).1, Reading.slots]
  | operation op slots =>
    obtain ⟨bop, hk, _, rfl⟩ | ⟨lop, count, hk, hc, _, rfl⟩ := Reading.ofNode_operation hr
    · simp [shownSlots, hk, Reading.slots]
    · have hshown : o.shown count = count := by
        have hle := Reading.le_limit_of_operation hr hk hc
        unfold Options.shown
        cases hl : o.maxListItems with
        | none => rfl
        | some limit => exact Nat.min_eq_left (hle limit hl)
      simp [shownSlots, hk, hc, hshown, Reading.slots]

theorem Reaches.shows {depth : Nat} {node block : α} {path : Path}
    (h : Reaches o depth node path block) : Shows o depth node path block := by
  induction h with
  | root => exact .root
  | @slot depth node _ _ slot _ hslot hchild _ ih =>
    by_cases hd : o.maxDepth ≤ depth
    · rw [Reading.atDepth, if_pos hd] at hslot
      cases hslot
    · rw [Reading.atDepth_of_lt (Nat.not_le.mp hd)] at hslot
      refine .slot (Nat.not_le.mp hd) ?_ hchild ih
      rw [← slots_eq_shownSlots]
      · exact hslot
      · intro fault hfault
        rw [hfault] at hslot
        cases hslot

theorem Shows.reaches {depth : Nat} {node block : α} {path : Path}
    (h : Shows o depth node path block) (hok : ∀ p b fault, Reaches o depth node p b →
      Reading.atDepth o (depth + p.length) b ≠ .fault fault) : Reaches o depth node path block := by
  induction h with
  | root => exact .root
  | @slot depth node child _ slot _ hd hslot hchild _ ih =>
    have hat : Reading.atDepth o depth node = _ := Reading.atDepth_of_lt hd node
    have hmem : slot ∈ (Reading.atDepth o depth node).slots := by
      rw [hat, slots_eq_shownSlots]
      · exact hslot
      · intro fault hfault
        exact hok [] node fault .root (hat.trans hfault)
    refine .slot hmem hchild (ih ?_)
    intro p b fault hr
    rw [← depth_cons depth slot p]
    exact hok (slot :: p) b fault (.slot hmem hchild hr)

/-! ## Faults in the sketch -/

/-- What a sketch shows in place of a block that has a fault. -/
def Fault.ShownAs (kind : Kind) (text : String) : Fault → Prop
  | unsupportedLiteral literal => text = literal
  | unimplementedOperator _ => ∃ rest, text = "math_power(" ++ rest
  | unimplemented _ => text = "math_compare"
  | malformed (.depthExceeded _) => text = "…"
  | malformed (.missingField _) => text = "?"
  | malformed .missingItemCount => text = kind.blockType ++ "(..)"
  | malformed (.tooManyItems count limit) =>
    ∃ front, text = front ++ (", …" ++ toString (count - limit) ++ " more)")

theorem shownAs_of_fault {depth : Nat} {node : α} {fault : Fault}
    (h : Reading.atDepth o depth node = .fault fault) :
    fault.ShownAs (Node.kind node) (Sketch.atDepth o depth node).text := by
  by_cases hd : o.maxDepth ≤ depth
  · rw [Reading.atDepth, if_pos hd] at h
    cases h
    rw [Sketch.atDepth_of_le hd]
    rfl
  · have hlevels : o.maxDepth - depth = o.maxDepth - (depth + 1) + 1 := by omega
    rw [Reading.atDepth_of_lt (Nat.not_le.mp hd)] at h
    rw [Sketch.atDepth_eq, hlevels]
    simp only [Outline.ofNode]
    cases Reading.ofNode_fault h with
    | missingField hk ht => rw [hk, ht, Outline.sketch]; rfl
    | unsupportedLiteral hk ht => rw [hk, ht, Outline.sketch]; rfl
    | unimplemented hk => rw [hk, Outline.sketch]; rfl
    | missingItemCount hk hc => rw [hk, hc, Outline.sketch]; rfl
    | unimplementedOperator hk =>
      rw [hk, Outline.text_operation]
      exact ⟨_, by simp only [String.append_assoc]; rfl⟩
    | @tooManyItems op count limit hk hc hl hlt =>
      have hhidden : count - o.shown count = count - limit := by
        simp only [Options.shown, hl, Option.elim_some]
        omega
      have hend (front rest : String) : front ++ (rest ++ " more") ++ ")" = front ++ (rest ++ " more)") := by
        simp only [String.append_assoc]
        rfl
      rw [hk, hc, Outline.text_operation, hhidden, Sketch.more, if_neg (by omega)]
      exact ⟨_, hend _ _⟩

/-- The compilation and the sketch of a tree agree. All blocks that the compilation comes to
have a span of their own in the sketch; if the compilation succeeds no other block has one.
If it fails, the span at the path of the failure shows the fault. -/
theorem spanOf_of_visits (o : Options) (node : α) :
    (∀ path block, Visits o o.maxDepth node path block →
      ∃ span, (Sketch.ofNode o node).spanOf path = some span ∧
        ∀ path', (Sketch.ofNode o node).spanOf path' = some span → path' = path) ∧
    (∀ f, (compile o node).result = .ok f → ∀ path,
      (∃ span, (Sketch.ofNode o node).spanOf path = some span) ↔
        ∃ block, Visits o o.maxDepth node path block) ∧
    ∀ e, (compile o node).result = .error e →
      ∃ block span, Visits o o.maxDepth node e.path block ∧
        (Sketch.ofNode o node).spanOf e.path = some span ∧
        (Sketch.ofNode o node).nearestSpan e.path = span ∧
        e.fault.ShownAs (Node.kind block) ((Sketch.ofNode o node).textAt span) := by
  have hroot : Sketch.ofNode o node = Sketch.atDepth o 0 node := rfl
  have hd : 0 + o.maxDepth = o.maxDepth := Nat.zero_add _
  have hholds {path : Path} {block : α} (h : Visits o o.maxDepth node path block) :
      ∃ before after, Sketch.Holds (Sketch.atDepth o 0 node)
        (Sketch.atDepth o (0 + path.length) block) path before after :=
    Sketch.holds_of_shows (h.reaches hd).shows
  rw [hroot, result_compile]
  refine ⟨?_, ?_, ?_⟩
  · intro path block hvisits
    obtain ⟨_, _, hholds⟩ := hholds hvisits
    exact ⟨_, hholds.span, fun path' h => Sketch.spanOf_inj h hholds.span⟩
  · intro f hf path
    constructor
    · intro h
      obtain ⟨span, hspan⟩ := h
      obtain ⟨block, hshows⟩ := Sketch.shows_of_spanOf hspan
      have hreaches := hshows.reaches fun p b fault hr => reading_ne_fault_of_ok hd hf hr fault
      exact ⟨block, hreaches.visits hd hf⟩
    · intro h
      obtain ⟨block, hvisits⟩ := h
      obtain ⟨_, _, hholds⟩ := hholds hvisits
      exact ⟨_, hholds.span⟩
  · intro e he
    obtain ⟨block, hvisits, hfault⟩ := visits_of_error hd he
    obtain ⟨_, _, hholds⟩ := hholds hvisits
    refine ⟨block, _, hvisits, hholds.span, Sketch.nearestSpan_of_spanOf hholds.span, ?_⟩
    rw [hholds.textAt]
    exact shownAs_of_fault hfault

/-- A difference without its first operand; the second is a product of three items. -/
def halfDifference : Block :=
  .binary .subtract none (some (.list .multiply [some (.number "1"), some (.number "2"), none]))

def halfDifferenceCode : List Instruction :=
  [.push .zero, .push .one, .push .two, .push .zero, .apply .multiply, .apply .multiply,
    .apply .subtract]

/-- One item is shown of a product that may have one, and all are if there is no limit. -/
theorem spanOf_of_visits_halfDifference :
    (compile { maxListItems := some 1 } halfDifference).result =
      .error ⟨.malformed (.tooManyItems 3 1), ["B"]⟩ ∧
    (Sketch.ofNode { maxListItems := some 1 } halfDifference).spanOf ["B"] = some ⟨23, 56⟩ ∧
    (Sketch.ofNode { maxListItems := some 1 } halfDifference).nearestSpan ["B"] = ⟨23, 56⟩ ∧
    (∃ front, (Sketch.ofNode { maxListItems := some 1 } halfDifference).textAt ⟨23, 56⟩ =
      front ++ ", …2 more)") ∧
    (∃ f, (compile {} halfDifference).result = .ok f) ∧
    (Sketch.ofNode {} halfDifference).spanOf ["B", "NUM1"] = some ⟨52, 53⟩ ∧
    ∃ block, Visits {} 128 halfDifference ["B", "NUM1"] block := by
  have hfails : (compile { maxListItems := some 1 } halfDifference).result =
      .error ⟨.malformed (.tooManyItems 3 1), ["B"]⟩ := by decide +kernel
  have hspan : (Sketch.ofNode { maxListItems := some 1 } halfDifference).spanOf ["B"] =
      some ⟨23, 56⟩ := by decide +kernel
  have hitem : (Sketch.ofNode {} halfDifference).spanOf ["B", "NUM1"] = some ⟨52, 53⟩ := by
    decide +kernel
  obtain ⟨_, _, hfault⟩ := spanOf_of_visits { maxListItems := some 1 } halfDifference
  obtain ⟨block, span, _, hspan', hnearest, hshown⟩ := hfault _ hfails
  obtain rfl := Option.some.inj (hspan'.symm.trans hspan)
  have hcompiles : (compile {} halfDifference).result = .ok ⟨halfDifferenceCode, .atomic⟩ := by
    decide +kernel
  obtain ⟨_, hsame, _⟩ := spanOf_of_visits {} halfDifference
  exact ⟨hfails, hspan, hnearest, hshown, ⟨_, hcompiles⟩, hitem, (hsame _ hcompiles _).mp ⟨_, hitem⟩⟩

end BlockCode
