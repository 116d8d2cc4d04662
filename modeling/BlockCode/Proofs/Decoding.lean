import Mathlib
import BlockCode.Proofs.RoundTrip

/- Which bytes can be read, and what is said of the others. `Reads` ties a reader to the
   bytes that spell its values: it takes off the front what spells a value and nothing
   else, and a problem that is not the end of the bytes stays a problem, whatever follows.
   From this alone, more bytes change no answer but "the end of the bytes" (`Reads.append`),
   and that is the answer for every beginning of what is read (`Reads.endOfInput`).

   `Reads` goes through everything that a reader is made of, from `reads_decode` for numbers
   to `reads_decodeFragment`. A number has one shortest spelling, `Varint.encode`, and so a
   fragment has one too (`SpellsFragment.shortest`). `decodeFragment_leftToRight` has the
   results. -/
namespace BlockCode.Wire

/-! ## Readers -/

/-- The reader takes the bytes that spell a value off the front, and takes nothing else; a problem
that is not the end of the bytes is there whatever follows. -/
structure Reads {α : Type} (spells : α → List UInt8 → Prop) (decode : Decoder α) : Prop where
  sound : ∀ {bytes a rest}, decode bytes = .ok (a, rest) →
    ∃ used, bytes = used ++ rest ∧ spells a used
  complete : ∀ {a used}, spells a used → ∀ rest, decode (used ++ rest) = .ok (a, rest)
  settled : ∀ {bytes e}, decode bytes = .error e → e ≠ .endOfInput →
    ∀ more, decode (bytes ++ more) = .error e

/-- Goes on where a reader has stopped; a problem ends the reading. -/
def Decoder.andThen {α β : Type} (decode : Decoder α) (next : α → Decoder β) : Decoder β :=
  fun bytes =>
    match decode bytes with
    | .error e => .error e
    | .ok (a, rest) => next a rest

namespace Reads
variable {α β : Type} {spells : α → List UInt8 → Prop} {decode : Decoder α}

theorem append (h : Reads spells decode) {bytes rest : List UInt8} {a : α}
    (hread : decode bytes = .ok (a, rest)) (more : List UInt8) :
    decode (bytes ++ more) = .ok (a, rest ++ more) := by
  obtain ⟨used, rfl, hspells⟩ := h.sound hread
  rw [List.append_assoc]
  exact h.complete hspells (rest ++ more)

/-- A reader finds no end before the end of what it reads. -/
theorem endOfInput (h : Reads spells decode) {used front : List UInt8} {a : α}
    (hspells : spells a used) (hfront : front <+: used) (hne : front ≠ used) :
    decode front = .error .endOfInput := by
  obtain ⟨back, rfl⟩ := hfront
  have hused : decode (front ++ back) = .ok (a, []) := by simpa using h.complete hspells []
  cases hread : decode front with
  | ok read =>
    -- it would have stopped there with the rest of the bytes too
    have hshort := h.append hread back
    rw [hused] at hshort
    have hback : [] = read.2 ++ back := congrArg Prod.snd (Except.ok.inj hshort)
    simp [(List.append_eq_nil_iff.mp hback.symm).2] at hne
  | error e =>
    by_cases he : e = .endOfInput
    · rw [he]
    · have hfails := h.settled hread he back
      rw [hused] at hfails
      cases hfails

theorem congr {spells' : α → List UInt8 → Prop} (h : Reads spells decode)
    (hiff : ∀ a bytes, spells a bytes ↔ spells' a bytes) : Reads spells' decode where
  sound hread := by simpa only [hiff] using h.sound hread
  complete hspells := h.complete ((hiff _ _).mpr hspells)
  settled := h.settled

theorem done (a : α) : Reads (fun b bytes => b = a ∧ bytes = []) fun bytes => .ok (a, bytes) where
  sound hread := by cases hread; exact ⟨[], rfl, rfl, rfl⟩
  complete := by rintro b used ⟨rfl, rfl⟩ rest; rfl
  settled hread := by cases hread

/-- What two readers read one after the other is spelled by what they read, put together. -/
theorem andThen {next : α → Decoder β} {spells' : α → β → List UInt8 → Prop}
    (h : Reads spells decode) (hnext : ∀ a, Reads (spells' a) (next a)) :
    Reads (fun b bytes => ∃ a front back, bytes = front ++ back ∧ spells a front ∧ spells' a b back)
      (Decoder.andThen decode next) where
  sound {bytes b rest} hread := by
    unfold Decoder.andThen at hread
    cases hfirst : decode bytes with
    | error e => rw [hfirst] at hread; cases hread
    | ok read =>
      obtain ⟨a, middle⟩ := read
      rw [hfirst] at hread
      obtain ⟨front, rfl, hfront⟩ := h.sound hfirst
      obtain ⟨back, rfl, hback⟩ := (hnext a).sound hread
      exact ⟨front ++ back, (List.append_assoc _ _ _).symm, a, front, back, rfl, hfront, hback⟩
  complete := by
    rintro b used ⟨a, front, back, rfl, hfront, hback⟩ rest
    rw [Decoder.andThen, List.append_assoc, h.complete hfront]
    exact (hnext a).complete hback rest
  settled {bytes e} hread he more := by
    unfold Decoder.andThen at hread ⊢
    cases hfirst : decode bytes with
    | error e' =>
      rw [hfirst] at hread
      cases hread
      rw [h.settled hfirst he more]
    | ok read =>
      obtain ⟨a, middle⟩ := read
      rw [hfirst] at hread
      rw [h.append hfirst more]
      exact (hnext a).settled hread he more

end Reads

/-! ## Shortest spellings -/

/-- What is written is no longer than the bytes, and only as long if it is the same bytes. -/
def NoLonger (written bytes : List UInt8) : Prop :=
  written.length ≤ bytes.length ∧ (written.length = bytes.length → written = bytes)

theorem NoLonger.append {written written' bytes bytes' : List UInt8} (h : NoLonger written bytes)
    (h' : NoLonger written' bytes') : NoLonger (written ++ written') (bytes ++ bytes') := by
  obtain ⟨hle, heq⟩ := h
  obtain ⟨hle', heq'⟩ := h'
  unfold NoLonger
  rw [List.length_append, List.length_append]
  refine ⟨by omega, ?_⟩
  intro hlen
  rw [heq (by omega), heq' (by omega)]

theorem NoLonger.flatMap {α : Type} {encode : α → List UInt8} {as : List α}
    {parts : List (List UInt8)} (h : List.Forall₂ (fun a part => NoLonger (encode a) part) as parts) :
    NoLonger (as.flatMap encode) parts.flatten := by
  induction h with
  | nil => exact ⟨Nat.le_refl _, fun _ => rfl⟩
  | cons ha _ ih => exact ha.append ih

/-! ## Numbers -/

namespace Varint

/-- The bytes spell the number, which has at most so many bits, and are no more than that takes. -/
def SpellsWithin (bits n : Nat) (bytes : List UInt8) : Prop :=
  Spells n bytes ∧ bytes.length ≤ bits / 7 + 1 ∧ n < 2 ^ bits

theorem spells_of_decodeUpTo {bound full n : Nat} {bytes rest : List UInt8} (hpos : 0 < bound)
    (hbound : bound ≤ 128) (h : decodeUpTo bound full bytes = .ok (n, rest)) :
    ∃ used, bytes = used ++ rest ∧ Spells n used ∧ used.length ≤ full + 1 ∧ n < bound * 128 ^ full := by
  induction full generalizing bytes n with
  | zero =>
    cases bytes with
    | nil => simp [decodeUpTo] at h
    | cons b bytes =>
      simp only [decodeUpTo] at h
      split at h
      · next hb =>
        cases h
        exact ⟨[b], rfl, .last (by omega), by simp, by simpa using hb⟩
      · cases h
  | succ full ih =>
    cases bytes with
    | nil => simp [decodeUpTo] at h
    | cons b bytes =>
      rw [Nat.pow_succ, ← Nat.mul_assoc]
      simp only [decodeUpTo] at h
      split at h
      · next hb =>
        cases h
        have hroom : 0 < bound * 128 ^ full := by positivity
        exact ⟨[b], rfl, .last hb, by simp, by omega⟩
      · next hb =>
        split at h
        · next m rest' hm =>
          cases h
          obtain ⟨used, rfl, hspells, hlen, hm⟩ := ih hm
          have hbyte := b.toNat_lt
          exact ⟨b :: used, rfl, .more (by omega) hspells, by simpa using hlen, by omega⟩
        · cases h

theorem decodeUpTo_settled {bound full : Nat} {bytes : List UInt8} {e : Error}
    (h : decodeUpTo bound full bytes = .error e) (he : e ≠ .endOfInput) (more : List UInt8) :
    decodeUpTo bound full (bytes ++ more) = .error e := by
  induction full generalizing bytes with
  | zero =>
    cases bytes with
    | nil => simp [decodeUpTo, Ne.symm he] at h
    | cons b bytes =>
      simp only [List.cons_append, decodeUpTo] at h ⊢
      split at h
      · cases h
      · next hb => rw [if_neg hb]; exact h
  | succ full ih =>
    cases bytes with
    | nil => simp [decodeUpTo, Ne.symm he] at h
    | cons b bytes =>
      simp only [List.cons_append, decodeUpTo] at h ⊢
      split at h
      · cases h
      · next hb =>
        split at h
        · cases h
        · next hfails =>
          cases h
          rw [if_neg hb, ih hfails]

theorem reads_decode (bits : Nat) : Reads (SpellsWithin bits) (decode bits) where
  sound h := by
    have hpos : 0 < Nat.pow 2 (bits % 7) := Nat.pow_pos (by decide)
    have hsmall : Nat.pow 2 (bits % 7) ≤ 128 :=
      Nat.pow_le_pow_right (by decide : 0 < 2) (by omega : bits % 7 ≤ 7)
    obtain ⟨used, hused, hspells, hlen, hn⟩ := spells_of_decodeUpTo hpos hsmall h
    exact ⟨used, hused, hspells, hlen, by rwa [two_pow_eq] at hn⟩
  complete h := decode_of_spells h.1 h.2.1 h.2.2
  settled h := decodeUpTo_settled h

/-- No spelling is shorter than the one that is written, and no other is as short. -/
theorem Spells.shortest {n : Nat} {bytes : List UInt8} (h : Spells n bytes) :
    NoLonger (encode n) bytes := by
  induction h with
  | @last b hb => simp [NoLonger, encode_of_lt hb]
  | @more b n bytes hb hspells ih =>
    have hbyte := b.toNat_lt
    cases n with
    | zero =>
      -- the last bytes add nothing, so one byte is enough
      have hpos := hspells.length_pos
      rw [NoLonger, encode_of_lt (by omega)]
      simp only [List.length_cons, List.length_nil]
      omega
    | succ n =>
      have hfirst : (b.toNat - 128 + 128 * (n + 1)) % 128 + 128 = b.toNat := by omega
      have hrest : (b.toNat - 128 + 128 * (n + 1)) / 128 = n + 1 := by omega
      rw [NoLonger, encode_of_le (by omega), hfirst, hrest]
      simpa [NoLonger] using ih

end Varint

/-! ## Values of enumerated types and rows of them -/

/-- The value at a position, for which no byte is read. -/
def lookUp {α : Type} [Enumerated α] (n : Nat) : Decoder α := fun bytes =>
  match Enumerated.ofIndex? n with
  | some a => .ok (a, bytes)
  | none => .error .badIndex

theorem decodeIndex_eq {α : Type} [Enumerated α] :
    (decodeIndex : Decoder α) = Decoder.andThen (Varint.decode 32) lookUp := by
  funext bytes
  unfold decodeIndex Decoder.andThen lookUp
  cases Varint.decode 32 bytes <;> rfl

theorem reads_lookUp {α : Type} [DecidableEq α] [Enumerated α] (n : Nat) :
    Reads (fun (a : α) bytes => n = Enumerated.index a ∧ bytes = []) (lookUp n) := by
  unfold lookUp
  cases ha : (Enumerated.ofIndex? n : Option α) with
  | some a =>
    obtain rfl := (Enumerated.ofIndex?_eq_some_iff n a).mp ha
    refine (Reads.done a).congr ?_
    intro b bytes
    rw [← Enumerated.ofIndex?_eq_some_iff, ha, Option.some.injEq, eq_comm]
  | none =>
    refine ⟨fun hread => ?_, ?_, fun hread _ _ => hread⟩
    · cases hread
    · rintro b used ⟨rfl, rfl⟩ rest
      rw [Enumerated.ofIndex?_index] at ha
      cases ha

theorem reads_decodeIndex {α : Type} [DecidableEq α] [Enumerated α] :
    Reads (fun a : α => Varint.SpellsWithin 32 (Enumerated.index a)) decodeIndex := by
  rw [decodeIndex_eq]
  refine ((Varint.reads_decode 32).andThen reads_lookUp).congr ?_
  intro a bytes
  constructor
  · rintro ⟨n, front, back, rfl, hn, rfl, rfl⟩
    rwa [List.append_nil]
  · intro h
    exact ⟨_, bytes, [], (List.append_nil _).symm, h, rfl, rfl⟩

theorem decodeMany_succ {α : Type} (decode : Decoder α) (count : Nat) :
    decodeMany decode (count + 1) = Decoder.andThen decode fun a =>
      Decoder.andThen (decodeMany decode count) fun as bytes => .ok (a :: as, bytes) := by
  funext bytes
  simp only [decodeMany, Decoder.andThen]
  cases decode bytes with
  | error e => rfl
  | ok read =>
    obtain ⟨a, rest⟩ := read
    dsimp only
    cases decodeMany decode count rest <;> rfl

theorem reads_decodeMany {α : Type} {spells : α → List UInt8 → Prop} {decode : Decoder α}
    (h : Reads spells decode) (count : Nat) :
    Reads (fun as bytes => ∃ parts, bytes = parts.flatten ∧ as.length = count ∧
      List.Forall₂ spells as parts) (decodeMany decode count) := by
  induction count with
  | zero =>
    refine (Reads.done []).congr ?_
    intro as bytes
    constructor
    · rintro ⟨rfl, rfl⟩
      exact ⟨[], rfl, rfl, .nil⟩
    · rintro ⟨parts, rfl, hlen, hparts⟩
      obtain rfl := List.length_eq_zero_iff.mp hlen
      cases hparts
      exact ⟨rfl, rfl⟩
  | succ count ih =>
    rw [decodeMany_succ]
    refine (h.andThen fun a => ih.andThen fun as => Reads.done (a :: as)).congr ?_
    intro as bytes
    constructor
    · rintro ⟨a, front, _, rfl, ha, as, _, _, rfl, ⟨parts, rfl, hlen, hparts⟩, rfl, rfl⟩
      exact ⟨front :: parts, by simp, by simpa using hlen, .cons ha hparts⟩
    · rintro ⟨parts, rfl, hlen, hparts⟩
      cases hparts with
      | nil => simp at hlen
      | @cons a front as parts ha hparts =>
        exact ⟨a, front, parts.flatten, rfl, ha, as, parts.flatten, [], by simp,
          ⟨parts, rfl, by simpa using hlen, hparts⟩, rfl, rfl⟩

/-! ## Fragments -/

/-- The bytes spell the fragment, and spell every number in it in no more bytes than its bits
take. -/
def Readable (f : Fragment) (bytes : List UInt8) : Prop :=
  ∃ count code precedence, bytes = count ++ code.flatten ++ precedence ∧
    Varint.SpellsWithin 64 f.length count ∧
    List.Forall₂ (fun i b => Varint.SpellsWithin 32 (Enumerated.index i) b) f.code code ∧
    Varint.SpellsWithin 32 (Enumerated.index f.precedence) precedence

theorem Readable.spells {f : Fragment} {bytes : List UInt8} (h : Readable f bytes) :
    SpellsFragment f bytes := by
  obtain ⟨count, code, precedence, hbytes, hcount, hcode, hprecedence⟩ := h
  exact ⟨count, code, precedence, hbytes, hcount.1, hcode.imp fun _ _ h => h.1, hprecedence.1⟩

theorem decodeFragment_eq :
    decodeFragment = Decoder.andThen (Varint.decode 64) fun count =>
      Decoder.andThen (decodeMany decodeIndex count) fun code =>
        Decoder.andThen decodeIndex fun precedence bytes => .ok (⟨code, precedence⟩, bytes) := by
  funext bytes
  simp only [decodeFragment, Decoder.andThen]
  cases Varint.decode 64 bytes with
  | error e => rfl
  | ok read =>
    obtain ⟨count, rest⟩ := read
    dsimp only
    cases decodeMany (decodeIndex : Decoder Instruction) count rest with
    | error e => rfl
    | ok read =>
      obtain ⟨code, rest⟩ := read
      dsimp only
      cases (decodeIndex rest : Except Error (Precedence × List UInt8)) <;> rfl

theorem reads_decodeFragment : Reads Readable decodeFragment := by
  rw [decodeFragment_eq]
  refine ((Varint.reads_decode 64).andThen fun count =>
    (reads_decodeMany reads_decodeIndex count).andThen fun code =>
      reads_decodeIndex.andThen fun precedence => Reads.done (⟨code, precedence⟩ : Fragment)).congr ?_
  intro f bytes
  constructor
  · rintro ⟨_, front, _, rfl, hcount, code, _, _, rfl, ⟨parts, rfl, rfl, hparts⟩, precedence, back, _,
      rfl, hprecedence, rfl, rfl⟩
    exact ⟨front, parts, back, by simp, hcount, hparts, hprecedence⟩
  · rintro ⟨front, parts, back, rfl, hcount, hparts, hprecedence⟩
    exact ⟨f.length, front, parts.flatten ++ back, by simp, hcount, f.code, parts.flatten, back, rfl,
      ⟨parts, rfl, rfl, hparts⟩, f.precedence, back, [], by simp, hprecedence, rfl, rfl⟩

theorem SpellsFragment.shortest {f : Fragment} {bytes : List UInt8} (h : SpellsFragment f bytes) :
    NoLonger (encodeFragment f) bytes := by
  obtain ⟨count, code, precedence, rfl, hcount, hcode, hprecedence⟩ := h
  have hcode : NoLonger (f.code.flatMap encodeIndex) code.flatten :=
    .flatMap (hcode.imp fun _ _ h => h.shortest)
  exact (hcount.shortest.append hcode).append hprecedence.shortest

/-- Fragments are read from left to right. Exactly the bytes that begin with a spelling of a fragment
are read as that fragment; with more bytes behind them they are read as before, the beginnings of
the spelling have come to an end too early, and the fragment is written in no more bytes, in as
many only if in these. Any other problem remains whatever bytes follow. -/
theorem decodeFragment_leftToRight (bytes : List UInt8) :
    (∀ f rest, decodeFragment bytes = .ok (f, rest) ↔
      ∃ used, bytes = used ++ rest ∧ Readable f used) ∧
    (∀ f used rest, bytes = used ++ rest → decodeFragment bytes = .ok (f, rest) →
      (∀ more, decodeFragment (bytes ++ more) = .ok (f, rest ++ more)) ∧
      (∀ front, front <+: used → front ≠ used → decodeFragment front = .error .endOfInput) ∧
      (encodeFragment f).length ≤ used.length ∧
      ((encodeFragment f).length = used.length ↔ encodeFragment f = used)) ∧
    ∀ e, e ≠ .endOfInput → decodeFragment bytes = .error e →
      ∀ more, decodeFragment (bytes ++ more) = .error e := by
  have hreads := reads_decodeFragment
  refine ⟨?_, ?_, fun e he hfails => hreads.settled hfails he⟩
  · intro f rest
    constructor
    · exact hreads.sound
    · rintro ⟨used, rfl, hused⟩
      exact hreads.complete hused rest
  · intro f used rest hbytes hread
    obtain ⟨used', hbytes', hused⟩ := hreads.sound hread
    obtain rfl : used = used' := List.append_cancel_right (hbytes.symm.trans hbytes')
    obtain ⟨hle, heq⟩ := hused.spells.shortest
    exact ⟨hreads.append hread, fun front hfront hne => hreads.endOfInput hused hfront hne, hle, heq,
      congrArg List.length⟩

/-- One instruction, with its number, its position and the precedence each in more bytes than they
take. -/
def overlongBytes : List UInt8 := [0x81, 0x80, 0x00, 0x82, 0x80, 0x80, 0x80, 0x00, 0x90, 0x00]

/-- The long spelling is read, with or without bytes behind it, and not before its end; the fragment is
written in three bytes. A position that no instruction has is refused as soon as it is there. -/
theorem decodeFragment_leftToRight_overlong :
    decodeFragment (overlongBytes ++ [0xFF]) = .ok (⟨[.push .one], .loosest⟩, [0xFF]) ∧
    (∀ more, decodeFragment (overlongBytes ++ [0xFF] ++ more) =
      .ok (⟨[.push .one], .loosest⟩, [0xFF] ++ more)) ∧
    decodeFragment overlongBytes.dropLast = .error .endOfInput ∧
    encodeFragment ⟨[.push .one], .loosest⟩ ≠ overlongBytes ∧
    decodeFragment [0x02, 0x0E] = .error .badIndex ∧
    ∀ more, decodeFragment ([0x02, 0x0E] ++ more) = .error .badIndex := by
  have hread : decodeFragment (overlongBytes ++ [0xFF]) = .ok (⟨[.push .one], .loosest⟩, [0xFF]) := by
    decide +kernel
  have hfails : decodeFragment [0x02, 0x0E] = .error .badIndex := by decide +kernel
  obtain ⟨_, hused, _⟩ := decodeFragment_leftToRight (overlongBytes ++ [0xFF])
  obtain ⟨hmore, hfront, _, hsame⟩ := hused _ overlongBytes _ rfl hread
  obtain ⟨_, _, hsettled⟩ := decodeFragment_leftToRight [0x02, 0x0E]
  refine ⟨hread, hmore, hfront _ (List.dropLast_prefix _) (by decide), ?_, hfails,
    hsettled _ (by decide) hfails⟩
  rw [ne_eq, ← hsame]
  decide +kernel

end BlockCode.Wire
