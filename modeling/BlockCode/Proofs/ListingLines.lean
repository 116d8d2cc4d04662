import Mathlib
import BlockCode.Fragment
import BlockCode.Text
import BlockCode.Proofs.Numeral

/- What can be read off a listing. Split into lines, it has four lines at its head, a line for each
   instruction, and a last one (`lines_listing`). The lines of the instructions are the ones that are
   set in by four blanks; in each of them stands an address, as a row of digits, and after two
   blanks a byte. `listing_faithful` says that these are the addresses and the bytes of the code, in
   order, and that no two fragments have the same listing.

   The lines are found again because none of them has a line break in it (`IsLine`); the address and
   the byte in a line are found again because the digits of the address end at a blank, however
   many there are. -/
namespace BlockCode

/-! ## Lines -/

namespace Text

/-- The text has nothing in it that ends a line. -/
def IsLine (cs : List Char) : Prop := ∀ c ∈ cs, c ≠ '\n' ∧ c ≠ '\r'

@[simp] theorem isLine_nil : IsLine [] := List.forall_mem_nil _

@[simp] theorem isLine_cons {c : Char} {cs : List Char} :
    IsLine (c :: cs) ↔ (c ≠ '\n' ∧ c ≠ '\r') ∧ IsLine cs :=
  List.forall_mem_cons

@[simp] theorem isLine_append {cs ds : List Char} : IsLine (cs ++ ds) ↔ IsLine cs ∧ IsLine ds :=
  List.forall_mem_append

theorem isLine_of_isDigit {cs : List Char} (h : ∀ c ∈ cs, c.isDigit) : IsLine cs := by
  intro c hc
  have hdigit := h c hc
  constructor <;> rintro rfl <;> exact absurd hdigit (by decide)

theorem lines_append {line : List Char} (h : IsLine line) (rest : List Char) :
    lines (line ++ '\n' :: rest) = line :: lines rest := by
  induction line with
  | nil => rw [List.nil_append, lines]
  | cons c line ih =>
    obtain ⟨⟨hn, hr⟩, hline⟩ := List.forall_mem_cons.mp h
    rw [List.cons_append, lines, ih hline]
    · intro h
      exact hn h
    · intro cs h
      exact absurd h hr

/-- Lines that are ended one by one are found again. -/
theorem lines_flatMap {ls : List (List Char)} (h : ∀ line ∈ ls, IsLine line) (rest : List Char) :
    lines (ls.flatMap (· ++ ['\n']) ++ rest) = ls ++ lines rest := by
  induction ls with
  | nil => rfl
  | cons line ls ih =>
    obtain ⟨hline, hls⟩ := List.forall_mem_cons.mp h
    rw [List.flatMap_cons, List.append_assoc, List.append_assoc, List.singleton_append,
      lines_append hline, ih hls, List.cons_append]

/-! ## Hexadecimal digits -/

namespace Hex

/-- The number for which an upper-case hexadecimal digit stands. -/
def value? (c : Char) : Option Nat :=
  if c.isDigit then some (c.toNat - '0'.toNat)
  else if 'A' ≤ c ∧ c ≤ 'F' then some (10 + (c.toNat - 'A'.toNat))
  else none

def byte? : List Char → Option UInt8
  | [high, low] =>
    (value? high).bind fun h => (value? low).map fun l => UInt8.ofNat (16 * h + l)
  | _ => none

theorem value?_digit (n : Fin 16) : value? (digit n) = some n.val := by
  revert n
  decide

theorem isLine_digits (b : UInt8) : IsLine (digits b) := by
  have hdigit : ∀ n, digit n ≠ '\n' ∧ digit n ≠ '\r' := by decide
  simp [IsLine, digits, hdigit]

theorem byte?_digits (b : UInt8) : byte? (digits b) = some b := by
  have hb := b.toNat_lt
  have hvalue : 16 * (b.toNat / 16 % 16) + b.toNat % 16 = b.toNat := by omega
  simp only [digits, byte?, value?_digit, Fin.ofNat, Option.bind_some, Option.map_some, hvalue,
    UInt8.ofNat_toNat]

end Hex

end Text

theorem Precedence.name_inj {p q : Precedence} (h : p.name = q.name) : p = q := by
  have hnodup : ((Enumerated.values : List Precedence).map name).Nodup := by decide
  exact List.inj_on_of_nodup_map hnodup (Enumerated.complete p) (Enumerated.complete q) h

/-! ## The lines of a listing -/

namespace Fragment

def headLines (f : Fragment) : List (List Char) :=
  ["CodeFragment \x7b".toList, "  order: ".toList ++ f.precedence.name.toList,
    "  max_stack_size: ".toList ++ Nat.toDigits 10 f.peak,
    if f.isEmpty then "  instructions: []".toList else "  instructions:".toList]

/-- The line of the instruction at an address, without what ends it. -/
def codeLine (i : Instruction) (addr : Nat) : List Char :=
  "    ".toList ++ (address addr).toList ++ "  ".toList ++ Text.Hex.digits i.toByte ++ "  ".toList ++
    (instructionText i).toList

def codeLines (f : Fragment) : List (List Char) := f.code.zipIdx.map fun x => codeLine x.1 x.2

theorem toList_listingLine (i : Instruction) (addr : Nat) :
    (listingLine i addr).toList = codeLine i addr ++ ['\n'] := by
  -- `simp` and `rw` would first derive equations for these, which takes long where there is much text
  unfold listingLine codeLine
  simp

theorem toList_listing (f : Fragment) :
    f.listing.toList = (f.headLines ++ f.codeLines).flatMap (· ++ ['\n']) ++ ['\x7d'] := by
  have hcode : (String.join (f.code.zipIdx.map fun x => listingLine x.1 x.2)).toList =
      f.codeLines.flatMap (· ++ ['\n']) := by
    simp [codeLines, String.toList_join, List.flatMap_map, toList_listingLine]
  unfold listing headLines
  cases hempty : f.isEmpty with
  | true =>
    have hnone : f.codeLines = [] := by simp [codeLines, List.isEmpty_iff.mp hempty]
    simp [hnone]
  | false => simp [hcode]

theorem isDigit_address (addr : Nat) : ∀ c ∈ (address addr).toList, c.isDigit := by
  intro c hc
  rw [address, String.toList_ofList, List.leftpad] at hc
  obtain hc | hc := List.mem_append.mp hc
  · rw [List.eq_of_mem_replicate hc]
    rfl
  · exact Nat.isDigit_of_mem_toDigits (by decide) (by decide) hc

theorem isLine_instructionText (i : Instruction) : Text.IsLine (instructionText i).toList := by
  unfold instructionText
  cases i with
  | push c =>
    have hmnemonic : Text.IsLine (Instruction.push c).mnemonic.toList := by
      rw [Instruction.mnemonic]
      split <;> simp
    have hblanks (n : Nat) : Text.IsLine (List.replicate n ' ') := by
      intro x hx
      rw [List.eq_of_mem_replicate hx]
      decide
    have hnumeral : Text.IsLine c.numeral.toList := by
      cases c <;> simp [Constant.numeral]
    simp [Instruction.operand?, List.rightpad, hmnemonic, hblanks, hnumeral]
  | apply op =>
    cases op <;> simp [Instruction.operand?, Instruction.mnemonic, Arith.mnemonic]

theorem isLine_codeLine (i : Instruction) (addr : Nat) : Text.IsLine (codeLine i addr) := by
  have haddress : Text.IsLine (address addr).toList := Text.isLine_of_isDigit (isDigit_address addr)
  unfold codeLine
  simp [haddress, Text.Hex.isLine_digits, isLine_instructionText]

theorem isLine_headLines (f : Fragment) : ∀ line ∈ f.headLines, Text.IsLine line := by
  have horder : Text.IsLine f.precedence.name.toList := by
    cases f.precedence <;> simp [Precedence.name]
  have hpeak : Text.IsLine (Nat.toDigits 10 f.peak) :=
    Text.isLine_of_isDigit fun c hc => Nat.isDigit_of_mem_toDigits (by decide) (by decide) hc
  unfold headLines
  cases f.isEmpty <;> simp [horder, hpeak]

/-- A listing has four lines at its head, one for each instruction, and a last one. -/
theorem lines_listing (f : Fragment) :
    Text.lines f.listing.toList = f.headLines ++ f.codeLines ++ [['\x7d']] := by
  have hlines : ∀ line ∈ f.headLines ++ f.codeLines, Text.IsLine line := by
    intro line hline
    obtain hline | hline := List.mem_append.mp hline
    · exact isLine_headLines f line hline
    · obtain ⟨x, _, rfl⟩ := List.mem_map.mp hline
      exact isLine_codeLine x.1 x.2
  rw [toList_listing, Text.lines_flatMap hlines]
  rfl

end Fragment

/-! ## Reading lines -/

/-- The lines of a listing that are set in by four blanks. -/
def instructionLines (listing : String) : List (List Char) :=
  (Text.lines listing.toList).filter ("    ".toList.isPrefixOf ·)

/-- The address in a line: the digits after the blanks. -/
def addressIn (line : List Char) : List Char := (Decimal.takeDigits (line.drop 4)).1

/-- The byte in a line: two hexadecimal digits after the address and two blanks. -/
def byteIn? (line : List Char) : Option UInt8 :=
  Text.Hex.byte? (((Decimal.takeDigits (line.drop 4)).2.drop 2).take 2)

/-- The digits write down a number, with zeros in front of it up to the fourth digit and none beyond. -/
structure IsAddress (digits : List Char) (n : Nat) : Prop where
  isDigit : ∀ c ∈ digits, c.isDigit
  value : Decimal.ofDigits digits = n
  length : 4 ≤ digits.length
  padding : 4 < digits.length → digits.head? ≠ some '0'

/-- The line shows an instruction at an address. -/
structure ShowsInstruction (line : List Char) (addr : Nat) (i : Instruction) : Prop where
  address : IsAddress (addressIn line) addr
  start : "    ".toList ++ addressIn line <+: line
  byte : (byteIn? line).map Instruction.ofByte = some (.ok i)

namespace Fragment

theorem instructionLines_listing (f : Fragment) : instructionLines f.listing = f.codeLines := by
  have hhead : f.headLines.filter ("    ".toList.isPrefixOf ·) = [] := by
    unfold headLines
    cases f.isEmpty <;> simp
  have hcode : f.codeLines.filter ("    ".toList.isPrefixOf ·) = f.codeLines := by
    refine List.filter_eq_self.mpr ?_
    intro line hline
    obtain ⟨x, _, rfl⟩ := List.mem_map.mp hline
    unfold codeLine
    simp
  rw [instructionLines, lines_listing, List.filter_append, List.filter_append, hhead, hcode]
  simp

theorem takeDigits_codeLine (i : Instruction) (addr : Nat) :
    Decimal.takeDigits ((codeLine i addr).drop 4) = ((address addr).toList,
      "  ".toList ++ Text.Hex.digits i.toByte ++ "  ".toList ++ (instructionText i).toList) := by
  rw [← Decimal.takeDigits_append (isDigit_address addr) (by simp)]
  unfold codeLine
  simp

theorem isAddress_address (addr : Nat) : IsAddress (address addr).toList addr := by
  have hzeros (n : Nat) : Decimal.ofDigits (List.replicate n '0') = 0 := by
    induction n with
    | zero => rfl
    | succ n ih => rw [List.replicate_succ', Decimal.ofDigits_append, ih]; rfl
  have hlength : (address addr).toList.length = max 4 (Nat.toDigits 10 addr).length := by
    rw [address, String.toList_ofList, List.length_leftpad]
  refine ⟨isDigit_address addr, ?_, ?_, ?_⟩
  · rw [address, String.toList_ofList, List.leftpad, Decimal.ofDigits_append, hzeros]
    have hvalue : Decimal.ofDigits (Nat.toDigits 10 addr) = addr := Nat.ofDigitChars_ten_toDigits
    rw [hvalue, Nat.zero_mul, Nat.zero_add]
  · rw [hlength]
    exact Nat.le_max_left ..
  · intro hlong hzero
    -- more than four digits are the digits of the number itself
    have hdigits : (address addr).toList = Nat.toDigits 10 addr := by
      have hpad : 4 - (Nat.toDigits 10 addr).length = 0 := by omega
      rw [address, String.toList_ofList, List.leftpad, hpad]
      rfl
    rw [hdigits] at hzero hlong
    rw [Decimal.eq_zero_of_head?_toDigits hzero] at hlong
    exact absurd hlong (by decide)

theorem showsInstruction_codeLine (i : Instruction) (addr : Nat) :
    ShowsInstruction (codeLine i addr) addr i := by
  have haddress : addressIn (codeLine i addr) = (address addr).toList := by
    rw [addressIn, takeDigits_codeLine]
  refine ⟨?_, ?_, ?_⟩
  · rw [haddress]
    exact isAddress_address addr
  · rw [haddress]
    unfold codeLine
    simp
  · have hbyte : byteIn? (codeLine i addr) = Text.Hex.byte? (Text.Hex.digits i.toByte) := by
      rw [byteIn?, takeDigits_codeLine]
      rfl
    rw [hbyte, Text.Hex.byte?_digits]
    simp [Instruction.ofByte, Instruction.ofByte?_toByte]

theorem getElem?_codeLines {f : Fragment} {k : Nat} (hk : k < f.code.length) :
    f.codeLines[k]? = some (codeLine f.code[k] k) := by
  simp [codeLines, hk]

theorem length_codeLines (f : Fragment) : f.codeLines.length = f.code.length := by
  simp [codeLines]

/-! ## Telling fragments apart -/

theorem precedence_eq_of_listing {f g : Fragment} (h : f.listing = g.listing) :
    f.precedence = g.precedence := by
  have hlines : f.headLines ++ f.codeLines ++ [['\x7d']] = g.headLines ++ g.codeLines ++ [['\x7d']] := by
    rw [← lines_listing, ← lines_listing, h]
  have hsecond := congrArg (fun lines => lines[1]?) hlines
  unfold headLines at hsecond
  simp only [List.cons_append, List.getElem?_cons_succ, List.getElem?_cons_zero,
    Option.some.injEq, List.append_cancel_left_eq] at hsecond
  exact Precedence.name_inj (String.toList_inj.mp hsecond)

theorem code_eq_of_listing {f g : Fragment} (h : f.listing = g.listing) : f.code = g.code := by
  have hlines : f.codeLines = g.codeLines := by
    rw [← instructionLines_listing, ← instructionLines_listing, h]
  have hlength : f.code.length = g.code.length := by
    rw [← length_codeLines, hlines, length_codeLines]
  refine List.ext_getElem hlength ?_
  intro k hf hg
  have hline : codeLine f.code[k] k = codeLine g.code[k] k := by
    have hboth := getElem?_codeLines hf
    rw [hlines, getElem?_codeLines hg] at hboth
    exact (Option.some.inj hboth).symm
  have hbyte := (showsInstruction_codeLine f.code[k] k).byte
  rw [hline, (showsInstruction_codeLine g.code[k] k).byte] at hbyte
  exact (Except.ok.inj (Option.some.inj hbyte)).symm

/-- The listing of a fragment determines its code and its precedence. Besides five lines it has one for
each instruction: the lines that are set in by four blanks, of which the `k`-th shows the address `k`
in at least four digits and a byte that is read as the `k`-th instruction. -/
theorem listing_faithful (f : Fragment) :
    (∀ g : Fragment, f.listing = g.listing ↔ f.code = g.code ∧ f.precedence = g.precedence) ∧
    (Text.lines f.listing.toList).length = f.code.length + 5 ∧
    (instructionLines f.listing).length = f.code.length ∧
    ∀ k (hk : k < f.code.length), ∃ line, (instructionLines f.listing)[k]? = some line ∧
      ShowsInstruction line k f.code[k] := by
  refine ⟨?_, ?_, ?_, ?_⟩
  · intro g
    constructor
    · intro h
      exact ⟨code_eq_of_listing h, precedence_eq_of_listing h⟩
    · intro h
      obtain ⟨code, precedence⟩ := f
      obtain ⟨code', precedence'⟩ := g
      obtain ⟨hcode, hprecedence⟩ : code = code' ∧ precedence = precedence' := h
      rw [hcode, hprecedence]
  · have hhead : f.headLines.length = 4 := rfl
    rw [lines_listing, List.length_append, List.length_append, hhead, length_codeLines,
      List.length_singleton]
    omega
  · rw [instructionLines_listing, length_codeLines]
  · intro k hk
    rw [instructionLines_listing]
    exact ⟨codeLine f.code[k] k, getElem?_codeLines hk, showsInstruction_codeLine f.code[k] k⟩

/-- So many constants and then an addition. -/
def longCode (n : Nat) : Fragment := ⟨List.replicate n (.push .one) ++ [.apply .add], .comma⟩

/-- After ten thousand constants the address of the addition has five digits. -/
theorem listing_faithful_longCode :
    (instructionLines (longCode 10000).listing).length = 10001 ∧
    (∃ line, (instructionLines (longCode 10000).listing)[10000]? = some line ∧
      ShowsInstruction line 10000 (.apply .add) ∧ 4 < (addressIn line).length) ∧
    (longCode 10000).listing ≠ (⟨(longCode 10000).code, .atomic⟩ : Fragment).listing := by
  obtain ⟨hsame, _, hlength, hlines⟩ := listing_faithful (longCode 10000)
  have hcode (n : Nat) : (longCode n).code.length = n + 1 := by simp [longCode]
  have hadd (n : Nat) (hn : n < (longCode n).code.length) : (longCode n).code[n] = .apply .add := by
    simp [longCode]
  have hlast : 10000 < (longCode 10000).code.length := by
    rw [hcode]
    exact Nat.lt_succ_self _
  obtain ⟨line, hline, hshows⟩ := hlines 10000 hlast
  rw [hadd 10000 hlast] at hshows
  refine ⟨hlength.trans (hcode 10000), ⟨line, hline, hshows, ?_⟩, ?_⟩
  · have hlt := Decimal.ofDigits_lt hshows.address.isDigit
    rw [hshows.address.value] at hlt
    have hpow : (10 : Nat) ^ 4 < 10 ^ (addressIn line).length := hlt
    exact (Nat.pow_lt_pow_iff_right (by decide)).mp hpow
  · intro h
    exact absurd ((hsame _).mp h).2 (by decide)

end Fragment

end BlockCode
