import Mathlib
import BlockCode.Proofs.Limits
import BlockCode.Proofs.StackBalance
import BlockCode.Proofs.Visit

/- What a compilation logs. `slotsRead` lists the slots that are read at and below a block without
   compiling anything: every slot of a block in order, and after a slot those of the block in it.
   `listsSlots_slotsRead` says that this is every slot of every block that can be reached, once, in
   pre-order.

   `Logs` ties a run to such a list: a run that succeeds logs all of it, a run that fails logs it up
   to the slot at the path of the failure. It goes through everything that a compilation is made of
   (`Logs.bind`, `Logs.mapM`, `operand_logs`), which gives `compile_logs`. -/
namespace BlockCode
universe u v

/-! ## Slots -/

/-- A slot: the path of the block that has it, its name, and the block in it, if there is one. -/
structure SlotAt (α : Type u) where
  owner : Path
  slot : String
  input : Option α

namespace SlotAt
variable {α : Type u}

def path (s : SlotAt α) : Path := s.owner ++ [s.slot]

/-- The slot, seen from one block further up. -/
def under (slot : String) (s : SlotAt α) : SlotAt α := { s with owner := slot :: s.owner }

def event (s : SlotAt α) : Event :=
  if s.input.isSome then .resolving s.slot .atomic else .substituting s.slot .atomic

theorem path_under (slot : String) (s : SlotAt α) : (s.under slot).path = slot :: s.path := rfl

theorem map_event_under (slot : String) (reads : List (SlotAt α)) :
    (reads.map (under slot)).map event = reads.map event := by
  rw [List.map_map]
  rfl

theorem path_ne_nil (s : SlotAt α) : s.path ≠ [] := by simp [path]

end SlotAt

section
variable {α : Type u} [Node α]

/-- What is read for a slot of a block: the slot, and what is read below the block in it. -/
def slotReads (below : α → List (SlotAt α)) (node : α) (slot : String) : List (SlotAt α) :=
  ⟨[], slot, Node.input node slot⟩ :: ((Node.input node slot).elim [] below).map (SlotAt.under slot)

/-- The slots that are read at and below a block, of which at most `levels` levels are read. -/
def slotsRead (o : Options) : (levels : Nat) → α → List (SlotAt α)
  | 0, _ => []
  | levels + 1, node => (Reading.ofNode o node).slots.flatMap (slotReads (slotsRead o levels) node)

/-- The list has every slot that is read, at every block that can be reached, once, in pre-order. -/
structure ListsSlots (o : Options) (depth : Nat) (node : α) (reads : List (SlotAt α)) : Prop where
  mem_iff : ∀ s, s ∈ reads ↔ ∃ block, Reaches o depth node s.owner block ∧
    s.slot ∈ (Reading.atDepth o (depth + s.owner.length) block).slots ∧
    s.input = Node.input block s.slot
  preorder : reads.Pairwise fun s t => s.path.Before t.path

variable {o : Options}

theorem mem_slotReads_iff {below : α → List (SlotAt α)} {node : α} {slot : String} {s : SlotAt α} :
    s ∈ slotReads below node slot ↔ s = ⟨[], slot, Node.input node slot⟩ ∨
      ∃ child t, Node.input node slot = some child ∧ t ∈ below child ∧ s = t.under slot := by
  unfold slotReads
  cases Node.input node slot <;> simp [eq_comm]

theorem mem_slotsRead_iff {levels depth : Nat} (hd : depth + levels = o.maxDepth) {node : α}
    (s : SlotAt α) :
    s ∈ slotsRead o levels node ↔ ∃ block, Reaches o depth node s.owner block ∧
      s.slot ∈ (Reading.atDepth o (depth + s.owner.length) block).slots ∧
      s.input = Node.input block s.slot := by
  induction levels generalizing depth node s with
  | zero =>
    -- the block is too deep, and none of its slots is read
    have hat : Reading.atDepth o depth node = .fault _ := if_pos (by omega)
    simp only [slotsRead, List.not_mem_nil, false_iff]
    rintro ⟨block, hr, hslot, _⟩
    obtain ⟨howner, rfl⟩ := hr.eq_of_slots_nil (by rw [hat]; rfl)
    rw [howner, List.length_nil, Nat.add_zero, hat] at hslot
    cases hslot
  | succ levels ih =>
    have hat : Reading.atDepth o depth node = _ := Reading.atDepth_of_lt (by omega) node
    have hd' : depth + 1 + levels = o.maxDepth := by omega
    simp only [slotsRead, List.mem_flatMap, mem_slotReads_iff]
    constructor
    · rintro ⟨slot, hslot, rfl | ⟨child, t, hchild, ht, rfl⟩⟩
      · exact ⟨node, .root, by simpa [hat] using hslot, rfl⟩
      · obtain ⟨block, hr, hmem, hinput⟩ := (ih hd' t).mp ht
        refine ⟨block, .slot (by rwa [hat]) hchild hr, ?_, hinput⟩
        rwa [SlotAt.under, depth_cons]
    · rintro ⟨block, hr, hmem, hinput⟩
      obtain ⟨owner, name, input⟩ := s
      cases hr with
      | root => exact ⟨name, by simpa [hat] using hmem, .inl (by rw [← hinput])⟩
      | @slot _ _ child _ slot path hslot hchild hr =>
        rw [depth_cons] at hmem
        rw [hat] at hslot
        exact ⟨slot, hslot, .inr ⟨child, ⟨path, name, input⟩, hchild,
          (ih hd' ⟨path, name, input⟩).mpr ⟨block, hr, hmem, hinput⟩, rfl⟩⟩

theorem path_of_mem_slotReads {below : α → List (SlotAt α)} {node : α} {slot : String}
    {s : SlotAt α} (h : s ∈ slotReads below node slot) : ∃ path, s.path = slot :: path := by
  obtain rfl | ⟨_, t, _, _, rfl⟩ := mem_slotReads_iff.mp h
  · exact ⟨[], rfl⟩
  · exact ⟨t.path, rfl⟩

theorem pairwise_slotsRead (levels : Nat) (node : α) :
    (slotsRead o levels node).Pairwise fun s t => s.path.Before t.path := by
  induction levels generalizing node with
  | zero => exact .nil
  | succ levels ih =>
    have hslots : (Reading.ofNode o node).slots.Pairwise SlotBefore := by
      cases hr : Reading.ofNode o node with
      | operation op slots => exact Reading.pairwise_slots hr
      | fault | constant => exact .nil
    refine List.pairwise_flatMap.mpr ⟨?_, ?_⟩
    · -- within a slot: its own entry first, then what is below
      intro slot _
      refine List.pairwise_cons.mpr ⟨?_, ?_⟩
      · intro t ht
        obtain ⟨t, _, rfl⟩ := List.mem_map.mp ht
        rw [SlotAt.path_under]
        refine .deeper ?_
        obtain ⟨s, path, hpath⟩ := List.exists_cons_of_ne_nil t.path_ne_nil
        rw [hpath]
        exact .root
      · refine List.pairwise_map.mpr ?_
        cases Node.input node slot with
        | none => exact .nil
        | some child => exact (ih child).imp .deeper
    · -- between slots: the slots decide
      refine hslots.imp ?_
      intro slot slot' hslot s hs t ht
      obtain ⟨path, hpath⟩ := path_of_mem_slotReads hs
      obtain ⟨path', hpath'⟩ := path_of_mem_slotReads ht
      rw [hpath, hpath']
      exact .slot hslot

theorem listsSlots_slotsRead {levels depth : Nat} (hd : depth + levels = o.maxDepth) (node : α) :
    ListsSlots o depth node (slotsRead o levels node) :=
  ⟨mem_slotsRead_iff hd, pairwise_slotsRead levels node⟩

end

/-! ## Runs and their logs -/

/-- The events tell of the slots up to the one that leads to the path. -/
def CutAt {α : Type u} (reads : List (SlotAt α)) (path : Path) (events : List Event) : Prop :=
  ∃ before s after, reads = before ++ s :: after ∧ s.path = path ∧ s.input.isSome = true ∧
    events = (before ++ [s]).map SlotAt.event

/-- The run tells of all slots if it succeeds, and of those up to the failing block if it fails. -/
structure Logs {α : Type u} {β : Type v} (x : Traced β) (reads : List (SlotAt α)) : Prop where
  ok : ∀ b, x.result = .ok b → x.events = reads.map SlotAt.event
  error : ∀ e, x.result = .error e → CutAt reads e.path x.events

/-- As `Logs`, for a block: it may have failed itself, before any of its slots was read. -/
def BlockLogs {α : Type u} {β : Type v} (x : Traced β) (reads : List (SlotAt α)) : Prop :=
  Logs x reads ∨ ∃ e, x.result = .error e ∧ e.path = [] ∧ x.events = []

namespace CutAt
variable {α : Type u} {reads : List (SlotAt α)} {path : Path} {events : List Event}

theorem append (h : CutAt reads path events) (more : List (SlotAt α)) :
    CutAt (reads ++ more) path events := by
  obtain ⟨before, s, after, rfl, hpath, hsome, hevents⟩ := h
  exact ⟨before, s, after ++ more, by simp, hpath, hsome, hevents⟩

theorem prepend (h : CutAt reads path events) (earlier : List (SlotAt α)) :
    CutAt (earlier ++ reads) path (earlier.map SlotAt.event ++ events) := by
  obtain ⟨before, s, after, rfl, hpath, hsome, rfl⟩ := h
  exact ⟨earlier ++ before, s, after, by simp, hpath, hsome, by simp⟩

theorem under (h : CutAt reads path events) (slot : String) :
    CutAt (reads.map (SlotAt.under slot)) (slot :: path) events := by
  obtain ⟨before, s, after, rfl, rfl, hsome, rfl⟩ := h
  refine ⟨before.map (SlotAt.under slot), s.under slot, after.map (SlotAt.under slot), by simp, rfl,
    hsome, ?_⟩
  rw [← SlotAt.map_event_under slot, List.map_append]
  rfl

end CutAt

namespace Logs
variable {α : Type u} {β γ : Type v}

theorem of_ok {x : Traced β} {b : β} {reads : List (SlotAt α)} (hb : x.result = .ok b)
    (hevents : x.events = reads.map SlotAt.event) : Logs x reads where
  ok _ _ := hevents
  error e he := by rw [hb] at he; cases he

theorem of_error {x : Traced β} {e : Failure} {reads : List (SlotAt α)} (he : x.result = .error e)
    (hcut : CutAt reads e.path x.events) : Logs x reads where
  ok b hb := by rw [he] at hb; cases hb
  error e' he' := by rw [he] at he'; cases he'; exact hcut

theorem pure (b : β) : Logs (Pure.pure b : Traced β) ([] : List (SlotAt α)) := of_ok rfl rfl

theorem bind {x : Traced β} {f : β → Traced γ} {reads reads' : List (SlotAt α)} (hx : Logs x reads)
    (hf : ∀ b, Logs (f b) reads') : Logs (x >>= f) (reads ++ reads') := by
  change Logs (x.andThen f) (reads ++ reads')
  cases h : x.result with
  | error e =>
    rw [Traced.andThen_eq_of_error h]
    exact of_error rfl ((hx.error e h).append reads')
  | ok b =>
    rw [Traced.andThen_eq_of_ok h, hx.ok b h]
    constructor
    · intro c hc
      rw [List.map_append]
      exact congrArg _ ((hf b).ok c hc)
    · intro e he
      exact ((hf b).error e he).prepend reads

theorem mapM {ι : Type} {f : ι → Traced β} {g : ι → List (SlotAt α)} (h : ∀ i, Logs (f i) (g i))
    (l : List ι) : Logs (l.mapM f) (l.flatMap g) := by
  induction l with
  | nil => exact .pure []
  | cons i l ih =>
    have hrest (b : β) : Logs (l.mapM f >>= fun bs => Pure.pure (b :: bs)) (l.flatMap g ++ []) :=
      ih.bind fun bs => .pure (b :: bs)
    rw [List.append_nil] at hrest
    rw [List.mapM_cons, List.flatMap_cons]
    exact (h i).bind hrest

end Logs

theorem BlockLogs.ok {α : Type u} {β : Type v} {x : Traced β} {reads : List (SlotAt α)} {b : β}
    (h : BlockLogs x reads) (hb : x.result = .ok b) : x.events = reads.map SlotAt.event := by
  obtain hlogs | ⟨e, he, _⟩ := h
  · exact hlogs.ok b hb
  · rw [hb] at he
    cases he

namespace Compile
variable {α : Type u} [Node α] {o : Options}

theorem operand_logs {compile : α → Traced Fragment} {below : α → List (SlotAt α)}
    (h : ∀ child, BlockLogs (compile child) (below child)) (node : α) (slot : String) :
    Logs (operand .atomic compile node slot) (slotReads below node slot) := by
  unfold operand slotReads
  cases Node.input node slot with
  | none => exact .of_ok rfl rfl
  | some child =>
    change Logs ((Traced.log _).andThen _) _
    rw [Traced.andThen_eq_of_ok rfl, Traced.within]
    cases hc : (compile child).result with
    | ok f =>
      refine .of_ok rfl ?_
      rw [Option.elim_some, List.map_cons, SlotAt.map_event_under, ← (h child).ok hc]
      rfl
    | error e =>
      refine .of_error rfl ?_
      obtain hlogs | ⟨e', he', hpath, hevents⟩ := h child
      · exact ((hlogs.error e hc).under slot).prepend [⟨[], slot, some child⟩]
      · -- the block in the slot has failed, and the slot is the last that is told of
        rw [hc] at he'
        cases he'
        exact ⟨[], ⟨[], slot, some child⟩, _, rfl, by rw [hpath]; rfl, rfl, by rw [hevents]; rfl⟩

theorem block_logs (o : Options) (levels : Nat) (node : α) :
    BlockLogs (block o levels node) (slotsRead o levels node) := by
  induction levels generalizing node with
  | zero => exact .inr ⟨_, rfl, rfl, rfl⟩
  | succ levels ih =>
    rw [block_succ, slotsRead]
    cases Reading.ofNode o node with
    | fault fault => exact .inr ⟨_, rfl, rfl, rfl⟩
    | constant c => exact .inl (.of_ok rfl rfl)
    | operation op slots =>
      have hslots := Logs.mapM (operand_logs ih node) slots
      have hlogs : Logs (operation (operand .atomic (block o levels) node) op slots)
          (slots.flatMap (slotReads (slotsRead o levels) node) ++ []) := hslots.bind fun fs => .pure _
      rw [List.append_nil] at hlogs
      exact .inl hlogs

end Compile

/-! ## Slots without a block and blocks that are numbers -/

section
variable {α : Type u} [Node α] {o : Options}

theorem countP_flatMap_of_forall₂ {ι β γ δ : Type*} {p : γ → Bool} {q : δ → Bool} {F : β → List γ}
    {G : ι → List δ} {l : List ι} {m : List β}
    (h : List.Forall₂ (fun i b => (F b).countP p = (G i).countP q) l m) :
    (m.flatMap F).countP p = (l.flatMap G).countP q := by
  induction h with
  | nil => rfl
  | cons hib _ ih => simp only [List.flatMap_cons, List.countP_append, hib, ih]

def isNumber (node : α) : Bool := Node.kind node == .number

/-- A push stands in the code for every empty slot and for every number. -/
theorem Compile.countP_push {levels : Nat} {node : α} {f : Fragment}
    (h : (block o levels node).result = .ok f) :
    f.code.countP Instruction.isPush =
      (slotsRead o levels node).countP (fun s => s.input.all isNumber) +
        if isNumber node then 1 else 0 := by
  induction levels generalizing node f with
  | zero => cases h
  | succ levels ih =>
    obtain ⟨c, hc, rfl⟩ | ⟨op, slots, fs, hop, hfs, rfl⟩ := block_ok h
    · simp [slotsRead, hc, Reading.slots, isNumber, (Reading.ofNode_constant hc).1, Fragment.constant,
        Instruction.isPush]
    · have hkind : isNumber node = false := by
        obtain ⟨_, hk, _⟩ | ⟨_, _, hk, _⟩ := Reading.ofNode_operation hop <;> simp [isNumber, hk]
      have hslot {slot : String} {g : Fragment}
          (hg : (operand .atomic (block o levels) node slot).result = .ok g) :
          g.code.countP Instruction.isPush =
            (slotReads (slotsRead o levels) node slot).countP fun s => s.input.all isNumber := by
        unfold slotReads
        obtain ⟨hi, rfl⟩ | ⟨child, hi, hg⟩ := operand_ok hg
        · simp [hi, Fragment.constant, Instruction.isPush]
        · simp [hi, ih hg, List.countP_map, List.countP_cons, SlotAt.under, Function.comp_def]
      have hslots := countP_flatMap_of_forall₂ (hfs.imp fun _ _ hg => hslot hg)
      rw [List.countP_append, (Instruction.countP_operators op _).1, hslots, slotsRead, hop, hkind]
      simp [Reading.slots]

theorem countP_input_all (reads : List (SlotAt α)) :
    reads.countP (fun s => s.input.all isNumber) =
      reads.countP (fun s => s.input.isNone) + reads.countP (fun s => s.input.any isNumber) := by
  induction reads with
  | nil => rfl
  | cons s reads ih =>
    simp only [List.countP_cons, ih]
    cases s.input <;> simp <;> omega

/-- The paths of the numbers among the blocks in the slots, and of the root if it is one. -/
def numberPaths (node : α) (reads : List (SlotAt α)) : List Path :=
  (if isNumber node then [[]] else []) ++
    (reads.filter fun s => s.input.any isNumber).map SlotAt.path

theorem length_numberPaths (node : α) (reads : List (SlotAt α)) :
    (numberPaths node reads).length =
      reads.countP (fun s => s.input.any isNumber) + if isNumber node then 1 else 0 := by
  unfold numberPaths
  split <;> simp [List.countP_eq_length_filter, Nat.add_comm]

namespace ListsSlots
variable {depth : Nat} {node : α} {reads : List (SlotAt α)}

/-- The blocks that can be reached are the root and those in the slots. -/
theorem reaches_iff (h : ListsSlots o depth node reads) {path : Path} {block : α} :
    Reaches o depth node path block ↔
      (path = [] ∧ block = node) ∨ ∃ s ∈ reads, s.path = path ∧ s.input = some block := by
  obtain rfl | ⟨front, slot, rfl⟩ := path.eq_nil_or_concat'
  · constructor
    · intro hr
      cases hr
      exact .inl ⟨rfl, rfl⟩
    · rintro (⟨_, rfl⟩ | ⟨s, _, hpath, _⟩)
      · exact .root
      · exact absurd hpath s.path_ne_nil
  · rw [reaches_concat_iff]
    constructor
    · rintro ⟨owner, hr, hslot, hchild⟩
      have hmem := (h.mem_iff ⟨front, slot, some block⟩).mpr ⟨owner, hr, hslot, hchild.symm⟩
      exact .inr ⟨_, hmem, rfl, rfl⟩
    · rintro (⟨hnil, _⟩ | ⟨s, hs, hpath, hinput⟩)
      · simp at hnil
      · obtain ⟨rfl, hslot⟩ := List.append_inj' hpath rfl
        obtain rfl : s.slot = slot := by simpa using hslot
        obtain ⟨owner, hr, hmem, hsame⟩ := (h.mem_iff s).mp hs
        exact ⟨owner, hr, hmem, hsame.symm.trans hinput⟩

theorem mem_numberPaths_iff (h : ListsSlots o depth node reads) (path : Path) :
    path ∈ numberPaths node reads ↔
      ∃ block, Reaches o depth node path block ∧ Node.kind block = .number := by
  simp only [numberPaths, h.reaches_iff, List.mem_append, List.mem_map, List.mem_filter]
  constructor
  · rintro (hpath | ⟨s, ⟨hs, hany⟩, rfl⟩)
    · split at hpath
      · next hnumber =>
        exact ⟨node, .inl ⟨by simpa using hpath, rfl⟩, by simpa [isNumber] using hnumber⟩
      · cases hpath
    · cases hinput : s.input with
      | none => simp [hinput] at hany
      | some block =>
        exact ⟨block, .inr ⟨s, hs, rfl, hinput⟩, by simpa [hinput, isNumber] using hany⟩
  · rintro ⟨block, ⟨rfl, rfl⟩ | ⟨s, hs, rfl, hinput⟩, hk⟩
    · exact .inl (by simp [isNumber, hk])
    · exact .inr ⟨s, ⟨hs, by simp [hinput, isNumber, hk]⟩, rfl⟩

theorem nodup_numberPaths (h : ListsSlots o depth node reads) : (numberPaths node reads).Nodup := by
  have hbelow : ((reads.filter fun s => s.input.any isNumber).map SlotAt.path).Nodup :=
    List.pairwise_map.mpr ((h.preorder.filter _).imp Path.Before.ne)
  have hroot : [] ∉ (reads.filter fun s => s.input.any isNumber).map SlotAt.path := by
    intro hmem
    obtain ⟨s, _, hpath⟩ := List.mem_map.mp hmem
    exact s.path_ne_nil hpath
  unfold numberPaths
  split
  · exact List.nodup_cons.mpr ⟨hroot, hbelow⟩
  · exact hbelow

theorem ncard_numbers (h : ListsSlots o depth node reads) :
    {path | ∃ block, Reaches o depth node path block ∧ Node.kind block = .number}.ncard =
      reads.countP (fun s => s.input.any isNumber) + if isNumber node then 1 else 0 := by
  have hset : {path | ∃ block, Reaches o depth node path block ∧ Node.kind block = .number} =
      ((numberPaths node reads).toFinset : Set Path) := by
    ext path
    simp [h.mem_numberPaths_iff]
  rw [hset, Set.ncard_coe_finset, List.toFinset_card_of_nodup h.nodup_numberPaths,
    length_numberPaths]

end ListsSlots

end

/-! ## The log of a compilation -/

/-- An event as it is shown: its level, its words, and its particulars by name. -/
def Event.shown (e : Event) : String × String × List (String × String) :=
  (e.level, e.message, e.details)

def SlotAt.shown {α : Type u} (s : SlotAt α) : String × String × List (String × String) :=
  ("TRACE", if s.input.isSome then "resolving operand" else "empty slot, substituting 0",
    [("slot", s.slot), ("context", "Atomic")])

theorem SlotAt.shown_event {α : Type u} (s : SlotAt α) : s.event.shown = s.shown := by
  unfold event shown
  split <;> rfl

theorem SlotAt.map_shown_event {α : Type u} (reads : List (SlotAt α)) :
    (reads.map event).map Event.shown = reads.map shown := by
  simp [shown_event]

theorem countP_substituting {α : Type u} (reads : List (SlotAt α)) :
    (reads.map SlotAt.event).countP (fun e => e.message == "empty slot, substituting 0") =
      reads.countP fun s => s.input.isNone := by
  rw [List.countP_map]
  congr 1
  funext s
  obtain ⟨owner, slot, _ | child⟩ := s
  · rfl
  · simp [SlotAt.event, Event.message]

variable {α : Type u} [Node α]

theorem events_compile_ok {o : Options} {node : α} {f : Fragment}
    (h : (compile o node).result = .ok f) :
    (compile o node).events = (slotsRead o o.maxDepth node).map SlotAt.event ++
      [.compiled (Node.kind node) f.length f.precedence] := by
  rw [result_compile] at h
  rw [← (Compile.block_logs o o.maxDepth node).ok h]
  change ((Compile.block o o.maxDepth node).andThen _).events = _
  rw [Traced.andThen_eq_of_ok h]
  rfl

theorem events_compile_error {o : Options} {node : α} {e : Failure}
    (h : (compile o node).result = .error e) :
    (compile o node).events = (Compile.block o o.maxDepth node).events := by
  rw [result_compile] at h
  change ((Compile.block o o.maxDepth node).andThen _).events = _
  rw [Traced.andThen_eq_of_error h]

/-- A compilation that succeeds logs every slot that is read, in pre-order, and then what it made of
the root; the empty slots and the numbers that it came to are the pushes of the code. A compilation
that fails logs the slots up to the one with the block that failed, and nothing if that is the
root. -/
theorem compile_logs (o : Options) (node : α) :
    ListsSlots o 0 node (slotsRead o o.maxDepth node) ∧
    (∀ f, (compile o node).result = .ok f →
      (compile o node).events.map Event.shown = (slotsRead o o.maxDepth node).map SlotAt.shown ++
        [("DEBUG", "compiled block tree", [("kind", (Node.kind node).blockType),
          ("len", toString f.length), ("order", f.precedence.name)])] ∧
      (compile o node).events.countP (fun event => event.message == "empty slot, substituting 0") +
          {path | ∃ block, Visits o o.maxDepth node path block ∧ Node.kind block = .number}.ncard =
        f.code.countP Instruction.isPush) ∧
    ∀ e, (compile o node).result = .error e →
      (e.path = [] → (compile o node).events = []) ∧
      (e.path ≠ [] → ∃ before owner slot child after,
        slotsRead o o.maxDepth node = before ++ ⟨owner, slot, some child⟩ :: after ∧
        e.path = owner ++ [slot] ∧
        (compile o node).events.map Event.shown = before.map SlotAt.shown ++
          [("TRACE", "resolving operand", [("slot", slot), ("context", "Atomic")])]) := by
  have hd : 0 + o.maxDepth = o.maxDepth := Nat.zero_add _
  have hlists : ListsSlots o 0 node (slotsRead o o.maxDepth node) := listsSlots_slotsRead hd node
  refine ⟨hlists, ?_, ?_⟩
  · intro f hf
    rw [events_compile_ok hf]
    refine ⟨by rw [List.map_append, SlotAt.map_shown_event]; rfl, ?_⟩
    rw [result_compile] at hf
    have hvisits (path : Path) (block : α) :
        Visits o o.maxDepth node path block ↔ Reaches o 0 node path block :=
      ⟨fun h => h.reaches hd, fun h => h.visits hd hf⟩
    simp only [hvisits]
    rw [hlists.ncard_numbers, Compile.countP_push hf, countP_input_all, List.countP_append,
      countP_substituting]
    simp [Event.message, Nat.add_assoc]
  · intro e he
    rw [events_compile_error he]
    rw [result_compile] at he
    obtain hlogs | ⟨e', he', hpath, hevents⟩ := Compile.block_logs o o.maxDepth node
    · obtain ⟨before, ⟨owner, slot, input⟩, after, hreads, hpath, hsome, hevents⟩ := hlogs.error e he
      obtain ⟨child, rfl⟩ := Option.isSome_iff_exists.mp hsome
      refine ⟨fun hnil => absurd (hpath.trans hnil) (SlotAt.path_ne_nil _), fun _ => ?_⟩
      refine ⟨before, owner, slot, child, after, hreads, hpath.symm, ?_⟩
      rw [hevents, SlotAt.map_shown_event, List.map_append]
      rfl
    · rw [he] at he'
      cases he'
      exact ⟨fun _ => hevents, fun hne => absurd hpath hne⟩

/-- Of the sum with a shared operand one slot is empty, and it comes to a number four times; its code
has five pushes. The sum with a comparison in it is left at the comparison, after all other
slots. -/
theorem compile_logs_sharedSum :
    (compile {} (⟨0, by decide⟩ : sharedSum.Ref)).result = .ok ⟨sharedSumCode, .atomic⟩ ∧
    {path | ∃ block, Visits {} 128 (⟨0, by decide⟩ : sharedSum.Ref) path block ∧
      Node.kind block = .number}.ncard = 4 ∧
    (compile {} nestedDifference).result = .error ⟨.unimplemented "math_compare", ["NUM1"]⟩ ∧
    ∃ before : List (SlotAt Block), (compile {} nestedDifference).events.map Event.shown =
      before.map SlotAt.shown ++
        [("TRACE", "resolving operand", [("slot", "NUM1"), ("context", "Atomic")])] := by
  have hok : (compile {} (⟨0, by decide⟩ : sharedSum.Ref)).result = .ok ⟨sharedSumCode, .atomic⟩ := by
    decide +kernel
  have hfails : (compile {} nestedDifference).result =
      .error ⟨.unimplemented "math_compare", ["NUM1"]⟩ := by decide +kernel
  have hempty : (compile {} (⟨0, by decide⟩ : sharedSum.Ref)).events.countP
      (fun event => event.message == "empty slot, substituting 0") = 1 := by decide +kernel
  obtain ⟨_, hlogs, _⟩ := compile_logs {} (⟨0, by decide⟩ : sharedSum.Ref)
  have hcount := (hlogs _ hok).2
  rw [hempty] at hcount
  have hpushes : sharedSumCode.countP Instruction.isPush = 5 := by decide
  obtain ⟨_, _, hcut⟩ := compile_logs {} nestedDifference
  obtain ⟨before, owner, slot, _, _, _, hpath, hevents⟩ := (hcut _ hfails).2 (by decide)
  have hslot : ([] : Path) ++ ["NUM1"] = owner ++ [slot] := hpath
  obtain rfl : slot = "NUM1" := by simpa using (List.append_inj' hslot rfl).2.symm
  refine ⟨hok, ?_, hfails, before, hevents⟩
  simp only [hpushes] at hcount
  omega

end BlockCode
