import TvmCode.Proofs.Dispatch.Lookup
import TvmCode.Proofs.Hex
import TvmCode.Proofs.Listing.WholeBytes
import TvmCode.Proofs.Operand

/-!
# Bit strings in instructions

Six encodings carry a bit string (`CodePage.literals`): after the opcode and some bits that have to be zero, a number
`n` says that `8 * n + extra` bits follow, which are the string with its completion tag. Whatever the number is, the
first bytes of such an encoding lead to its instruction (`CodePage.find?_literal`), and that takes the payload together
with what is in front of it and shows the string (`Literal.takes_decode`). So what is shown can be read back
(`CodePage.step_literal`).
-/

namespace TvmCode

/-! ## Bytes of which the first bits are known -/

/-- Of a byte whose first bits are known the value is known up to the other bits. -/
theorem exists_byte_of_prefix {front bits : List Bool} (hfront : front.length ≤ 8) (hroom : 8 ≤ bits.length)
    (h : front <+: bits) :
    ∃ b : UInt8, bitsOfByte b <+: bits ∧ natOfBits front * 2 ^ (8 - front.length) ≤ b.toNat ∧
      b.toNat < (natOfBits front + 1) * 2 ^ (8 - front.length) := by
  have hlen : (bits.take 8).length = 8 := by
    rw [List.length_take]
    omega
  have hbyte := bitsOfByte_natOfBits hlen
  have hvalue : (UInt8.ofNat (natOfBits (bits.take 8))).toNat / 2 ^ (8 - front.length) = natOfBits front := by
    rw [← natOfBits_bitsOfByte, hbyte, ← Nat.shiftRight_eq_div_pow, natOfBits_take_shiftRight hfront hroom,
      ← List.prefix_iff_eq_take.mp h]
  refine ⟨_, hbyte ▸ List.take_prefix 8 bits, ?_, ?_⟩
  · rw [← hvalue]
    exact Nat.div_mul_le_self _ _
  · rw [← hvalue]
    exact Nat.lt_mul_of_div_lt (Nat.lt_succ_self _) (Nat.two_pow_pos _)

/-! ## Encodings -/

/-- An encoding that carries a bit string: the text in front of the string, the opcode, how many bits have to be zero,
how many give the number of bytes, and how many bits the payload has besides these bytes. -/
structure Literal where
  lead : String
  code : Nat
  width : Nat
  reserved : Nat
  size : Nat
  extra : Nat
deriving DecidableEq

namespace Literal

/-- The instruction. -/
def instr (l : Literal) : Instr := ⟨[⟨l.code, l.width⟩], .literal l.lead l.reserved l.size l.extra⟩

/-- What stands in front of a payload of `n` bytes and of the bits besides them. -/
def front (l : Literal) (n : Nat) : List Bool :=
  bitsOfNat l.width l.code ++ (List.replicate l.reserved false ++ bitsOfNat l.size n)

/-- The bits of a payload are shown without their completion tag. -/
theorem takes_payload (lead : String) (payload : List Bool) :
    (do return some (lead ++ (← Decoder.bits payload.length).trimMarker.toHex) : Decoder (Option String)).Takes payload
      (some (lead ++ hexOfBits (natOfBits (dropTag payload)) (dropTag payload).length)) := by
  rw [Decoder.bits_eq, ← Decoder.takeBits_map Slice.front _ fun p => some (lead ++ p.trimMarker.toHex)]
  refine .takeBits rfl fun s hs h => ?_
  have hroom := hs.length_le_of_prefix h
  rw [Slice.toHex_trimMarker (hs.front hroom), Slice.bits_front hroom, ← List.prefix_iff_eq_take.mp h]

variable {l : Literal} {n : Nat} {payload : List Bool}

/-- An encoding is decoded to its payload without the completion tag. -/
theorem takes_decode (hcode : l.code < 2 ^ l.width) (hn : n < 2 ^ l.size) (hlen : payload.length = 8 * n + l.extra)
    (nested : Nested) :
    (l.instr.decode nested).Takes (l.front n ++ payload)
      (some (l.lead ++ hexOfBits (natOfBits (dropTag payload)) (dropTag payload).length)) := by
  have hzeros := natOfBits_replicate_false l.reserved
  have hreserved : (Decoder.nat l.reserved).Takes (List.replicate l.reserved false) 0 := hzeros ▸ .nat (by simp)
  have hnumber : natOfBits (bitsOfNat l.size n) = n := by rw [natOfBits_bitsOfNat, Nat.mod_eq_of_lt hn]
  have hsize : (Decoder.nat l.size).Takes (bitsOfNat l.size n) n := by
    conv_rhs => rw [← hnumber]
    exact .nat (by simp)
  rw [front, List.append_assoc, List.append_assoc]
  refine .bind (Instr.takes_opcode hcode) (.bind hreserved (.bind hsize ?_))
  rw [if_pos rfl, ← hlen]
  exact takes_payload l.lead payload

end Literal

namespace CodePage

/-- The encodings of code page zero that carry a bit string: constants in three sizes, a store and two tests. -/
def literals : List Literal := [
  ⟨"PUSHSLICE x", 0x8b, 8, 0, 4, 4⟩,
  ⟨"PUSHSLICE x", 0x8c, 8, 2, 5, 1⟩,
  ⟨"PUSHSLICE x", 0x8d, 8, 3, 7, 6⟩,
  ⟨"STSLICECONST x", 0x19f, 9, 2, 3, 2⟩,
  ⟨"SDBEGINS ", 0x35ca, 14, 0, 7, 3⟩,
  ⟨"SDBEGINSQ ", 0x35cb, 14, 0, 7, 3⟩]

/-- Where an encoding is filed: under the byte that is its opcode, or behind a byte under the bytes that start with the
rest of its opcode. -/
inductive Filed (l : Literal) : Prop
  | byte (b : UInt8) (hmem : .byte b.toNat l.instr ∈ zeroRecords) (hcode : bitsOfNat l.width l.code = bitsOfByte b)
  | span (b : UInt8) (inner : List (Record Instr)) (lo hi : Int) (more : List Bool)
    (hgroup : .group b.toNat inner ∈ zeroRecords) (hspan : .span lo hi l.instr ∈ inner)
    (hcode : bitsOfNat l.width l.code = bitsOfByte b ++ more) (hmore : more.length ≤ 8)
    (hlo : lo ≤ (natOfBits more * 2 ^ (8 - more.length) : Nat))
    (hhi : ((natOfBits more + 1) * 2 ^ (8 - more.length) : Nat) ≤ hi)
    (hroom : 16 ≤ l.width + l.reserved + l.size + l.extra)

theorem filed_literals : ∀ l ∈ literals, Filed l := by
  have hconstants : ∀ r ∈ constants, r ∈ zeroRecords := fun r hr => by simp [zeroRecords, hr]
  have hserialization : ∀ r ∈ serialization, r ∈ zeroRecords := fun r hr => by simp [zeroRecords, hr]
  have hstoring := hserialization (.group 0xcf storing) (by simp [serialization])
  have hloading := hserialization (.group 0xd7 loading) (by simp [serialization])
  simp only [literals, List.forall_mem_cons, List.not_mem_nil, false_implies, implies_true, and_true]
  refine ⟨?_, ?_, ?_, ?_, ?_, ?_⟩
  · exact .byte 0x8b (hconstants _ (by simp [constants, Literal.instr])) (by decide)
  · exact .byte 0x8c (hconstants _ (by simp [constants, Literal.instr])) (by decide)
  · exact .byte 0x8d (hconstants _ (by simp [constants, Literal.instr])) (by decide)
  · exact .span 0xcf storing 0x80 0x100 [true] hstoring (by simp [storing, Literal.instr]) (by decide) (by decide)
      (by decide) (by decide) (by decide)
  · exact .span 0xd7 loading 0x28 0x2c [false, false, true, false, true, false] hloading
      (by simp [loading, Literal.instr]) (by decide) (by decide) (by decide) (by decide) (by decide)
  · exact .span 0xd7 loading 0x2c 0x30 [false, false, true, false, true, true] hloading
      (by simp [loading, Literal.instr]) (by decide) (by decide) (by decide) (by decide) (by decide)

variable {l : Literal} {n : Nat} {payload : List Bool} {s : Slice}

/-- **An encoding that carries a bit string is found** by its first bytes, whatever the size of its payload is. -/
theorem find?_literal (hl : l ∈ literals) (hlen : payload.length = 8 * n + l.extra) (hs : s.Sound)
    (h : l.front n ++ payload <+: s.bits) : zero.find? s = some l.instr := by
  obtain ⟨rest, hbits⟩ := h
  rw [Literal.front, List.append_assoc, List.append_assoc] at hbits
  cases filed_literals l hl with
  | byte b hmem hcode =>
    rw [hcode] at hbits
    refine find?_eq_some_iff.mpr ⟨[b].map UInt8.toNat, .byte hmem, ?_⟩
    rw [Slice.starts_iff hs, ← hbits]
    simp
  | span b inner lo hi more hgroup hspan hcode hmore hlo hhi hroom =>
    have hwidth := congrArg List.length hcode
    rw [length_bitsOfNat, List.length_append, length_bitsOfByte] at hwidth
    rw [hcode, List.append_assoc] at hbits
    -- what follows the first byte makes up one more, which starts with the rest of the opcode
    generalize hrest : more ++ _ = after at hbits
    have hafter : 8 ≤ after.length := by
      rw [← hrest]
      simp only [List.length_append, List.length_replicate, length_bitsOfNat, hlen]
      omega
    obtain ⟨c, hc, hlow, hhigh⟩ := exists_byte_of_prefix hmore hafter (hrest ▸ List.prefix_append more _)
    refine find?_eq_some_iff.mpr ⟨[b, c].map UInt8.toNat, .group hgroup (.span hspan (by omega) (by omega)), ?_⟩
    rw [Slice.starts_iff hs, ← hbits]
    simpa using hc

/-- **Bit strings in instructions are read back.** Let one of the encodings be followed by a payload of the size that it
gives, wherever in a cell and whatever comes after. Then its instruction is listed, and just the opcode, the size and
the payload are taken. A payload of a bit string, a one and zeros is shown as hexadecimal text that stands for just this
bit string, and one of zeros alone is shown as no text. -/
theorem step_literal (hl : l ∈ literals) (hn : n < 2 ^ l.size) (hlen : payload.length = 8 * n + l.extra)
    (nested : Nested) (hs : s.Sound) (h : l.front n ++ payload <+: s.bits) :
    ∃ hex, step zero.find? nested s =
        .line (l.lead ++ hex) ⟨s.dropBits (l.width + l.reserved + l.size + payload.length), []⟩ ∧
      (∀ bits zeros, payload = bits ++ true :: List.replicate zeros false → Text.bitsOfHex? hex = some bits) ∧
      (payload = List.replicate payload.length false → hex = "") := by
  have hcode : ∀ l ∈ literals, l.code < 2 ^ l.width := by decide
  have hdecode := Literal.takes_decode (hcode l hl) hn hlen nested s [] hs h
  have htotal : (l.front n ++ payload).length = l.width + l.reserved + l.size + payload.length := by
    simp only [Literal.front, List.length_append, List.length_replicate, length_bitsOfNat]
    omega
  rw [htotal] at hdecode
  refine ⟨_, step_of_decode faithful_zero hs (find?_literal hl hlen hs h) hdecode, ?_, ?_⟩
  · rintro bits zeros rfl
    rw [dropTag_append_tag, Text.bitsOfHex?_hexOfBits]
  · intro hzeros
    rw [hzeros, dropTag_replicate_false]
    rfl

/-- Six bits that are stored by code within a byte, and a test for no bits. -/
theorem step_two_literals :
    let nested : Nested := fun _ _ => ⟨.ok "", []⟩
    let stored : Slice := ⟨⟨[0x19, 0xf0, 0xdb, 0x10], 28, [], false⟩, 3, 28, 0, 0⟩
    let tested : Slice := .ofCell ⟨[0xd7, 0x28, 0x00], 24, [], false⟩
    (∃ hex, step zero.find? nested stored = .line ("STSLICECONST x" ++ hex) ⟨stored.dropBits 24, []⟩ ∧
      Text.bitsOfHex? hex = some [true, false, true, true, false, true]) ∧
    step zero.find? nested tested = .line "SDBEGINS " ⟨tested.dropBits 24, []⟩ := by
  intro nested stored tested
  have hstored : stored.Sound :=
    ⟨⟨by decide, by decide, by decide, by decide⟩, .intro (by decide) (by decide) (by decide) nofun⟩
  have htested : tested.Sound := Slice.sound_ofCell (.intro (by decide) (by decide) (by decide) nofun)
  constructor
  · have hlit : ⟨"STSLICECONST x", 0x19f, 9, 2, 3, 2⟩ ∈ literals := by decide
    have hlen : ([true, false, true, true, false, true] ++ true :: List.replicate 3 false).length = 8 * 1 + 2 := rfl
    obtain ⟨hex, hstep, hread, -⟩ := step_literal hlit (by decide) hlen nested hstored (by decide)
    exact ⟨hex, hstep, hread _ 3 rfl⟩
  · have hlit : ⟨"SDBEGINS ", 0x35ca, 14, 0, 7, 3⟩ ∈ literals := by decide
    have hlen : (List.replicate 3 false).length = 8 * 0 + 3 := rfl
    obtain ⟨hex, hstep, -, hempty⟩ := step_literal hlit (by decide) hlen nested htested (by decide)
    rw [hempty rfl] at hstep
    exact hstep

end CodePage

end TvmCode
