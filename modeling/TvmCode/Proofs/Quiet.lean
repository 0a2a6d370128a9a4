import TvmCode.Proofs.Coupling
import TvmCode.Proofs.Dispatch.Declarations
import TvmCode.Proofs.Dispatch.Lookup
import TvmCode.Proofs.Listing.Digits
import TvmCode.Proofs.Listing.WholeBytes

/-!
# Quiet and signaling arithmetic

The byte `B7` in front of an arithmetic instruction makes it quiet, which its name shows by a `Q` at the end
(`Text.quieted`). As declarations, the quiet instructions are the signaling ones with one more opcode and such a name
(`CodePage.arithmetic_quiet`), so that the same look-up finds the one behind the byte and the other without it
(`CodePage.find?_quiet`). What follows the opcodes is decoded in the same way (`Form.alongside_quieten`). Together: a
step over the quiet form is that over the signaling form, eight bits further (`CodePage.step_quiet`).
-/

namespace TvmCode

/-! ## Names -/

namespace Text

/-- Characters with a `Q` at the end of the first word. -/
def quietedChars : List Char → List Char
  | [] => ['Q']
  | c :: cs => if c = ' ' then 'Q' :: c :: cs else c :: quietedChars cs

/-- A text with a `Q` at the end of its first word. -/
def quieted (text : String) : String := String.ofList (quietedChars text.toList)

/-- What comes after the first word does not matter. -/
theorem quieted_append {head : String} (h : ' ' ∈ head.toList) (tail : String) :
    quieted (head ++ tail) = quieted head ++ tail := by
  have happend : ∀ cs : List Char, ' ' ∈ cs → quietedChars (cs ++ tail.toList) = quietedChars cs ++ tail.toList := by
    intro cs hcs
    induction cs with
    | nil => cases hcs
    | cons c cs ih =>
      by_cases hc : c = ' '
      · simp only [List.cons_append, quietedChars, if_pos hc]
      · have hrest : ' ' ∈ cs := (List.mem_cons.mp hcs).resolve_left (Ne.symm hc)
        simp only [List.cons_append, quietedChars, if_neg hc, ih hrest]
  rw [quieted, String.toList_append, happend _ h, String.ofList_append, String.ofList_toList, quieted]

end Text

namespace Template

/-- A template with a `Q` at the end of the first word of its first piece. -/
def quieten : Template → Template
  | [] => []
  | head :: rest => Text.quieted head :: rest

/-- The first word does not depend on the operands. -/
def named : Template → Bool
  | [] => false
  | [_] => true
  | head :: _ :: _ => head.toList.contains ' '

/-- The operands come behind the first word. -/
theorem fill_quieten {text : Template} (h : text.named = true) (values : List Int) :
    text.quieten.fill values = (text.fill values).map Text.quieted := by
  match text with
  | [_] => simp [quieten, fill, fillPlaces]
  | head :: piece :: pieces =>
    have hhead : ' ' ∈ head.toList := by simpa [named] using h
    rw [quieten, fill, fill, Option.map_map]
    exact congrArg (fun f => (fillPlaces (piece :: pieces) values).map f)
      (funext fun tail => (Text.quieted_append hhead tail).symm)

end Template

/-! ## Instructions -/

/-- A form that shows its texts with a `Q`. -/
def Form.quieten : Form → Form
  | .line text operands refs => .line text.quieten operands refs
  | .select choices => .select (choices.map fun choice => (choice.1, choice.2.1.quieten, choice.2.2))
  | form => form

/-- A form of lines without references, each with a first word that does not depend on the operands. -/
def Form.named : Form → Bool
  | .line text _ 0 => text.named
  | .select choices => choices.all fun choice => choice.2.1.named
  | _ => false

/-- Such a form lists no continuation. -/
theorem Form.decode_of_named {f : Form} (h : f.named = true) (nested nested' : Nested) :
    f.decode nested = f.decode nested' := by
  cases f with
  | line | select => rfl
  | blocks | register | smallInt | bigInt | literal | inlineBody | debugText => cases h

/-- An instruction behind the byte that makes it quiet. -/
def Instr.quieten (i : Instr) : Instr := ⟨⟨0xb7, 8⟩ :: i.opcodes, i.form.quieten⟩

theorem lookup_map {α β : Type} (f : α → β) (key : Nat) (choices : List (Nat × α)) :
    (choices.map fun choice => (choice.1, f choice.2)).lookup key = (choices.lookup key).map f := by
  induction choices with
  | nil => rfl
  | cons choice choices ih =>
    rw [List.map_cons, List.lookup_cons, List.lookup_cons, ih]
    cases key == choice.1 <;> rfl

/-- A text is filled with the same operands. -/
theorem Template.alongside_quieten {P : Coupling} (hdigits : P.faults .tooManyDigits .tooManyDigits) {text : Template}
    (h : text.named = true) (values : List Int) :
    P.Alongside (fun e e' => e' = Text.quieted e) (text.shown values) (text.quieten.shown values) := by
  refine .shown hdigits ?_
  rw [fill_quieten h]
  cases text.fill values with
  | none => exact .none
  | some e => exact .some rfl

/-- **Forms are decoded in the same way with a `Q`**, where the reads of numbers go alongside. -/
theorem Form.alongside_quieten {P : Coupling} (hnat : ∀ width, P.Alongside Eq (Decoder.nat width) (Decoder.nat width))
    (hdigits : P.faults .tooManyDigits .tooManyDigits) {f : Form} (h : f.named = true) (nested : Nested) :
    P.Alongside (Option.Rel fun text text' => text' = Text.quieted text) (f.decode nested)
      (f.quieten.decode nested) := by
  cases f with
  | line text operands refs =>
    cases refs with
    | zero =>
      refine .bind (.operands hnat operands) fun vs vs' hvs => .bind (R := Eq) (.pure rfl) fun _ _ _ => ?_
      subst hvs
      exact .bind (Template.alongside_quieten hdigits h vs) fun e e' he => .pure (.some he)
    | succ refs => cases h
  | select choices =>
    refine .bind (hnat 8) fun key key' hkey => ?_
    subst hkey
    rw [lookup_map (fun choice : Template × List Operand => (choice.1.quieten, choice.2)) key choices]
    cases hlook : choices.lookup key with
    | none => exact .pure .none
    | some choice =>
      have hnamed := List.all_eq_true.mp h _ (Form.mem_of_lookup hlook)
      refine .bind (.operands hnat choice.2) fun vs vs' hvs => ?_
      subst hvs
      exact .bind (Template.alongside_quieten hdigits hnamed vs) fun e e' he => .pure (.some he)
  | blocks | register | smallInt | bigInt | literal | inlineBody | debugText => cases h

/-! ## Declarations -/

namespace CodePage

/-- Quiet arithmetic is signaling arithmetic behind the byte `B7` and with a `Q`. -/
theorem arithmetic_quiet : arithmetic .quiet = Record.mapList Instr.quieten (arithmetic .signaling) := by rfl

theorem named_arithmetic : Record.allList (fun i => i.form.named) (arithmetic .signaling) = true := by decide

theorem conflictFree_arithmetic : Record.ConflictFree (arithmetic .signaling) := by decide

variable {s q : Slice} {b : UInt8}

/-- What code page zero leads to under a byte of arithmetic. -/
theorem zero_of_arithmetic (hlo : 0xa0 ≤ b.toNat) (hhi : b.toNat ≤ 0xc3) (hne : b.toNat ≠ 0xb7) :
    zero b.toNat = Record.tableOf (arithmetic .signaling) b.toNat := by
  let before := stack ++ constants
  let after := numbers.drop (arithmetic .signaling).length ++ serialization ++ control ++ [.group 0xf4 dictionaries] ++
    application
  have hsplit : zeroRecords = before ++ (arithmetic .signaling ++ after) := rfl
  have hbefore : ∀ r ∈ before, r.stop ≤ 0xa0 := by decide
  have hafter : ∀ r ∈ after, r.first = 0xb7 ∧ r.stop = 0xb8 ∨ 0xc4 ≤ r.first := by decide
  rw [(Table.build_eq_ok_iff.mp build_zero).2, hsplit]
  -- the declarations around those of arithmetic cover none of its bytes
  refine Record.tableOf_between ?_ ?_
  · intro r hr hcov
    have hstop := hbefore r hr
    rw [Record.covers_iff] at hcov
    omega
  · intro r hr hcov
    have hbounds := hafter r hr
    rw [Record.covers_iff] at hcov
    omega

/-- What code page zero leads to under the byte that makes arithmetic quiet. -/
theorem zero_of_quiet : zero 0xb7 = .table (Record.tableOf (arithmetic .quiet)) := by
  obtain ⟨hfree, hzero⟩ := Table.build_eq_ok_iff.mp build_zero
  have hmem : .group 0xb7 (arithmetic .quiet) ∈ zeroRecords := by simp [zeroRecords, numbers]
  rw [hzero, Record.tableOf_of_covers (Record.conflictFree_iff.mp hfree).2.1 hmem rfl, Record.slot]

end CodePage

/-! ## Slices -/

/-- The second slice shows a byte and then the bits of the first. -/
structure Slice.Behind (b : UInt8) (s q : Slice) : Prop where
  left : s.Sound
  right : q.Sound
  bits : q.bits = bitsOfByte b ++ s.bits

namespace Slice.Behind

variable {b : UInt8} {s q : Slice}

theorem remainingBits (h : s.Behind b q) : q.remainingBits = 8 + s.remainingBits := by
  rw [← h.right.length_bits, ← h.left.length_bits, h.bits, List.length_append, length_bitsOfByte]

/-- Behind the byte the bits are the same. -/
theorem bits_drop (h : s.Behind b q) (n : Nat) : (q.dropBits (8 + n)).bits = (s.dropBits n).bits := by
  rw [bits_dropBits, bits_dropBits, h.bits, ← List.drop_drop, List.drop_left' (length_bitsOfByte b)]

end Slice.Behind

/-- The same cursor in both slices: so many bits are taken from the first, and the byte besides from the second. -/
def Coupling.behind (s q : Slice) : Coupling where
  cursors c c' := ∃ n ≤ s.remainingBits, c = ⟨s.dropBits n, []⟩ ∧ c' = ⟨q.dropBits (8 + n), []⟩
  faults f f' := (∃ n width, f = .underflow (s.bitPos + n) width .bits ∧
      f' = .underflow (q.bitPos + (8 + n)) width .bits) ∨ (f = .tooManyDigits ∧ f' = .tooManyDigits)
  excused _ := False
  parts _ _ := False
  cells _ _ := False
  bodies _ _ := False

/-- Numbers are read alongside. -/
theorem Coupling.behind_nat {b : UInt8} {s q : Slice} (h : s.Behind b q) (width : Int) :
    (behind s q).Alongside Eq (Decoder.nat width) (Decoder.nat width) := by
  rintro _ _ ⟨n, hn, rfl, rfl⟩
  have hlen := h.remainingBits
  by_cases hroom : 0 ≤ width ∧ n + width.toNat ≤ s.remainingBits
  · obtain ⟨w, rfl⟩ := Int.eq_ofNat_of_zero_le hroom.1
    rw [Int.toNat_natCast] at hroom
    rw [Decoder.nat_apply (h.left.dropBits hn) (by rw [Slice.remainingBits_dropBits]; omega),
      Decoder.nat_apply (h.right.dropBits (by omega)) (by rw [Slice.remainingBits_dropBits]; omega), h.bits_drop,
      Slice.dropBits_dropBits, Slice.dropBits_dropBits, Nat.add_assoc]
    exact ⟨rfl, n + w, hroom.2, rfl, rfl⟩
  · have hs := h.left.valid.1
    have hq := h.right.valid.1
    unfold Slice.remainingBits at hroom hlen
    rw [Decoder.nat_eq, Decoder.takeBits_apply, Decoder.takeBits_apply,
      if_neg (by simp only [Slice.dropBits]; omega), if_neg (by simp only [Slice.dropBits]; omega)]
    refine Or.inr ⟨?_, n, hn, rfl, rfl⟩
    by_cases hwidth : Text.Writable width
    · rw [Fault.short_of_writable hwidth, Fault.short_of_writable hwidth]
      exact Or.inl ⟨n, width, rfl, rfl⟩
    · rw [Fault.short_of_not_writable hwidth, Fault.short_of_not_writable hwidth]
      exact Or.inr ⟨rfl, rfl⟩

/-! ## Steps -/

/-- A step over the first slice, and one over the second that takes eight bits more: the same text with a `Q`, the same
failure eight bits further, or nothing that is known in both. -/
inductive Step.Quieted (s q : Slice) : Step → Step → Prop
  | line (text : String) (n : Nat) :
    Quieted s q (.line text ⟨s.dropBits n, []⟩) (.line (Text.quieted text) ⟨q.dropBits (8 + n), []⟩)
  | unknown : Quieted s q .unknown .unknown
  | undecodable (n : Nat) : Quieted s q (.undecodable ⟨s.dropBits n, []⟩) (.undecodable ⟨q.dropBits (8 + n), []⟩)
  | underflow (m n : Nat) (width : Int) :
    Quieted s q (.failed (.underflow (s.bitPos + m) width .bits) ⟨s.dropBits n, []⟩)
      (.failed (.underflow (q.bitPos + (8 + m)) width .bits) ⟨q.dropBits (8 + n), []⟩)

namespace CodePage

variable {s q : Slice} {b : UInt8}

/-- A quiet instruction is found behind its byte where the signaling one is found without it. -/
theorem find?_quiet (hlo : 0xa0 ≤ b.toNat) (hhi : b.toNat ≤ 0xc3) (hne : b.toNat ≠ 0xb7) (h : s.Behind 0xb7 q)
    (hfirst : bitsOfByte b <+: s.bits) :
    zero.find? q = (zero.find? s).map Instr.quieten ∧ ∀ i, zero.find? s = some i → i.form.named = true := by
  have hsignaling : zero.find? s = (Record.tableOf (arithmetic .signaling)).find? s := by
    rw [Slice.find?_of_byte _ h.left hfirst, Slice.find?_of_byte _ h.left hfirst, zero_of_arithmetic hlo hhi hne]
  have hquiet : zero.find? q = ((Slot.table (Record.tableOf (arithmetic .signaling))).map Instr.quieten).find? s := by
    have hbyte : bitsOfByte 0xb7 <+: q.bits := h.bits ▸ List.prefix_append _ _
    have hrest : (q.dropBits 8).Sound := h.right.dropBits (by rw [h.remainingBits]; omega)
    rw [Slice.find?_of_byte _ h.right hbyte]
    show (zero 0xb7).find? _ = _
    -- behind the byte `B7` stand the bits of the other slice, and the table is that of its bytes with other names
    rw [zero_of_quiet, arithmetic_quiet, Slot.find?_of_bits_eq _ hrest h.left (h.bits_drop 0)]
    exact congrArg (fun t => (Slot.table t).find? s) (funext (Record.tableOf_mapList _ _))
  refine ⟨by rw [hquiet, Slot.find?_map, hsignaling]; rfl, ?_⟩
  -- whatever is found was declared
  intro i hi
  rw [hsignaling, Table.find?, Slot.find?_eq_some_iff] at hi
  obtain ⟨path, hfollow, -⟩ := hi
  have hbuild := Table.build_eq_ok_iff.mpr ⟨conflictFree_arithmetic, rfl⟩
  exact ((Table.follow?_build hbuild).mp hfollow).of_all named_arithmetic

/-- Arithmetic has small operands, and lists no continuation for which a number might have too many digits. -/
theorem decode_ne_tooManyDigits {i : Instr} (hfind : zero.find? s = some i) (hnamed : i.form.named = true)
    (nested : Nested) (c k : Cursor) : i.decode nested c ≠ .error .tooManyDigits k := by
  have hplain : Nested.Writes fun _ _ => ⟨.ok "", []⟩ := fun _ _ => nofun
  rw [Instr.decode, Form.decode_of_named hnamed nested fun _ _ => ⟨.ok "", []⟩]
  exact (Instr.writes_decode hplain (modest_zero s i hfind)).fault c k

/-- **Quiet and signaling arithmetic agree.** Put the byte `B7` in front of bits that start with a byte of arithmetic. A
step over them shows the same text with a `Q` at the end of its first word and takes eight bits more; or both steps meet
nothing that is known, or the same bits that are none; or both run out of bits, for the same width and eight bits
further. -/
theorem step_quiet (hlo : 0xa0 ≤ b.toNat) (hhi : b.toNat ≤ 0xc3) (hne : b.toNat ≠ 0xb7) (h : s.Behind 0xb7 q)
    (hfirst : bitsOfByte b <+: s.bits) (nested : Nested) :
    Step.Quieted s q (step zero.find? nested s) (step zero.find? nested q) := by
  obtain ⟨hfind, hnamed⟩ := find?_quiet hlo hhi hne h hfirst
  cases hs : zero.find? s with
  | none =>
    rw [hs] at hfind
    rw [step_of_find?_none hs, step_of_find?_none hfind]
    exact .unknown
  | some i =>
    rw [hs] at hfind
    obtain ⟨hroom, hdec⟩ := decode_of_find? h.left hs nested []
    obtain ⟨-, hdec'⟩ := decode_of_find? h.right hfind nested []
    have hagree := Form.alongside_quieten (Coupling.behind_nat h) (Or.inr ⟨rfl, rfl⟩) (hnamed i hs) nested _ _
      ⟨_, hroom, rfl, rfl⟩
    have hsame : i.quieten.decode nested ⟨q, []⟩ = i.form.quieten.decode nested ⟨q.dropBits (8 + _), []⟩ := hdec'
    rw [← hdec, ← hsame] at hagree
    rcases hagree.both fun _ => id with ⟨r, r', _, _, hl, hr, hrel, n, -, rfl, rfl⟩ |
      ⟨f, f', _, _, hl, hr, hfault, n, -, rfl, rfl⟩
    · cases hrel with
      | none =>
        rw [step_of_decode_none hs hl, step_of_decode_none hfind hr]
        exact .undecodable n
      | some htext =>
        rw [step_of_decode faithful_zero h.left hs hl, step_of_decode faithful_zero h.right hfind hr, htext]
        exact .line _ n
    · rw [step_of_decode_error hs hl, step_of_decode_error hfind hr]
      rcases hfault with ⟨m, width, rfl, rfl⟩ | ⟨rfl, -⟩
      · exact .underflow m n width
      · exact absurd hl (decode_ne_tooManyDigits hs (hnamed i hs) nested _ _)

/-- The addition of a constant. -/
def addition : Slice := .ofCell ⟨[0xa6, 0xff], 16, [], false⟩

/-- The quiet addition of a constant, within the bytes of a cell. -/
def quietAddition : Slice := ⟨⟨[0x16, 0xf4, 0xdf, 0xe0], 27, [], false⟩, 3, 27, 0, 0⟩

theorem step_quiet_addition :
    let nested : Nested := fun _ _ => ⟨.ok "", []⟩
    addition.Behind 0xb7 quietAddition ∧
      step zero.find? nested addition = .line "ADDCONST -1" ⟨addition.dropBits 16, []⟩ ∧
      step zero.find? nested quietAddition = .line "ADDCONSTQ -1" ⟨quietAddition.dropBits 24, []⟩ := by
  intro nested
  have hcell : quietAddition.cell.WellFormed := .intro (by decide) (by decide) (by decide) nofun
  have hbehind : addition.Behind 0xb7 quietAddition :=
    ⟨Slice.sound_ofCell (.intro (by decide) (by decide) (by decide) nofun),
      ⟨⟨by decide, by decide, by decide, by decide⟩, hcell⟩, by decide⟩
  have hmem : .byte 0xa6 (Mode.signaling.immediate "ADDCONST" 0xa6 (.sint 8)) ∈ zeroRecords := by
    simp [zeroRecords, numbers, arithmetic]
  have hfind := find?_eq_some_iff.mpr
    ⟨[0xa6], .byte hmem, show addition.Starts [0xa6] from ⟨by decide, by decide, trivial⟩⟩
  have hline : step zero.find? nested addition = .line "ADDCONST -1" ⟨addition.dropBits 16, []⟩ :=
    step_of_decode faithful_zero hbehind.left hfind rfl
  have hquiet := step_quiet (b := 0xa6) (by decide) (by decide) (by decide) hbehind (by decide) nested
  refine ⟨hbehind, hline, ?_⟩
  rw [hline] at hquiet
  generalize hcursor : (⟨addition.dropBits 16, []⟩ : Cursor) = c at hquiet
  generalize step zero.find? nested quietAddition = stepped at hquiet
  cases hquiet with
  | line text n =>
    obtain rfl : 16 = n := by simpa [Slice.dropBits] using congrArg (fun c => c.slice.bitPos) hcursor
    rfl

end CodePage

end TvmCode
