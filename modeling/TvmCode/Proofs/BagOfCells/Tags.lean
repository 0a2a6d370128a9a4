import TvmCode.Proofs.BagOfCells.Accepting
import TvmCode.Proofs.Hex

/-!
# Completion tags of bytes and of slices

A completion tag is taken away in two places. `BagOfCells.stripTag` looks at the last of some bytes, clears the tag
there and drops the byte when nothing is left in it; `Slice.trimMarker` takes all bits of a slice as one number and
moves the end of the slice. Of whole bytes they leave the same bits, and `stripTag` refuses just the bytes of which the
last is zero or missing (`BagOfCells.stripTag_eq_error_iff`), where a slice would lose more than the last byte. All this
together is `BagOfCells.stripTag_agrees`.
-/

namespace TvmCode

namespace Slice

/-- A window without bounds of its own is the whole of a cell. -/
theorem ofBounds_whole (c : Cell) : ofBounds c 0 (-1) 0 (-1) = .ok (ofCell c) := by
  have hend : ((-1 : Int) < 0) := by decide
  simp only [ofBounds, if_pos hend]
  rw [if_neg (by omega), if_neg (by omega)]
  rfl

/-- The slice of all bits of some bytes. -/
def ofBytes (data : List UInt8) : Slice := ofCell ⟨data, 8 * data.length, [], false⟩

section Bytes

variable {data : List UInt8} (h : data.length ≤ 127)
include h

/-- Bytes that are not too many make a cell. -/
theorem ofParts_ofBytes :
    Cell.ofParts data (8 * data.length : Nat) [] false = .ok ⟨data, 8 * data.length, [], false⟩ :=
  Cell.ofParts_eq_ok false (by unfold maxBits; omega) (Nat.zero_le _) (by omega)

theorem wellFormed_ofBytes : Cell.WellFormed ⟨data, 8 * data.length, [], false⟩ :=
  (Cell.wellFormed_iff_ofParts (by simp)).mpr (ofParts_ofBytes h)

theorem sound_ofBytes : (ofBytes data).Sound := sound_ofCell (wellFormed_ofBytes h)

theorem bits_ofBytes : (ofBytes data).bits = bitsOfBytes data := by
  rw [ofBytes, bits_ofCell (wellFormed_ofBytes h), Cell.bits, ← length_bitsOfBytes, List.take_length]

end Bytes

section Tagged

variable {bits : List Bool} (h : bits.length ≤ 1015)
include h

theorem length_tagged_le : (bytesOfBits (bits ++ [true])).length ≤ 127 := by
  rw [length_bytesOfBits, List.length_append, List.length_singleton]
  omega

/-- Of bits with a one and zeros behind them the bits are left. -/
theorem bits_trimMarker_tagged : (ofBytes (bytesOfBits (bits ++ [true]))).trimMarker.bits = bits := by
  have hlen := length_tagged_le h
  rw [bits_trimMarker (sound_ofBytes hlen), bits_ofBytes hlen, bitsOfBytes_bytesOfBits, List.append_assoc,
    List.singleton_append, dropTag_append_tag]

theorem remainingBits_trimMarker_tagged :
    (ofBytes (bytesOfBits (bits ++ [true]))).trimMarker.remainingBits = bits.length := by
  rw [← (sound_ofBytes (length_tagged_le h)).trimMarker.length_bits, bits_trimMarker_tagged h]

end Tagged

end Slice

namespace BagOfCells

/-- Bytes are refused just when the last of them is zero or missing. -/
theorem stripTag_eq_error_iff {data : List UInt8} {e : BagError} :
    stripTag data = .error e ↔ e = .missingTag ∧ (data = [] ∨ data.getLast? = some 0) := by
  have hlast : (data.getLastD 0).toNat = 0 ↔ data = [] ∨ data.getLast? = some 0 := by
    rcases List.eq_nil_or_concat' data with rfl | ⟨front, last, rfl⟩
    · simp
    · simp [← UInt8.toNat_inj]
  rw [← hlast]
  unfold stripTag
  by_cases hzero : (data.getLastD 0).toNat = 0
  · rw [if_pos hzero, Except.error.injEq, eq_comm]
    exact (and_iff_left hzero).symm
  · rw [if_neg hzero]
    exact ⟨nofun, fun h => absurd h.2 hzero⟩

/-- **The two ways of taking a completion tag away agree.** Bytes are refused just when the last of them is zero or
missing. Of up to 127 bytes that end otherwise, as many bits are left as of the slice of them, in bytes that hold just
the bits left of the slice, with zeros up to the end of the last byte, and that make a cell of these bits. Up to 1015
bits with a one and zeros behind them, up to a whole number of bytes, are given back in both ways. -/
theorem stripTag_agrees :
    (∀ data e, stripTag data = .error e ↔ e = .missingTag ∧ (data = [] ∨ data.getLast? = some 0)) ∧
    (∀ data last, data.length ≤ 127 → data.getLast? = some last → last ≠ 0 →
      let s := Slice.ofBytes data
      Cell.ofParts data (8 * data.length : Nat) [] false = .ok s.cell ∧ Slice.ofBounds s.cell 0 (-1) 0 (-1) = .ok s ∧
      ∃ rest count c, stripTag data = .ok (rest, count) ∧ s.trimMarker.remainingBits = count ∧
        rest.length = (count + 7) / 8 ∧
        bitsOfBytes rest = s.trimMarker.bits ++ List.replicate (padding count) false ∧
        Cell.ofParts rest count [] false = .ok c ∧ c.bits = s.trimMarker.bits) ∧
    ∀ bits : List Bool, bits.length ≤ 1015 →
      let data := bytesOfBits (bits ++ [true])
      bitsOfBytes data = bits ++ true :: List.replicate (padding (bits.length + 1)) false ∧ data.length ≤ 127 ∧
        stripTag data = .ok (bytesOfBits bits, bits.length) ∧ (Slice.ofBytes data).trimMarker.bits = bits := by
  refine ⟨fun _ _ => stripTag_eq_error_iff, ?_, ?_⟩
  · intro data last hlen hlast hne s
    have htag : (data.getLastD 0).toNat ≠ 0 := by
      rw [List.getLastD_eq_getLast?, hlast]
      simpa [← UInt8.toNat_inj] using hne
    obtain ⟨bits, rfl⟩ := exists_tagged htag
    have hbits : bits.length ≤ 1015 := by
      rw [length_bytesOfBits, List.length_append, List.length_singleton] at hlen
      omega
    have hleft : s.trimMarker.bits = bits := Slice.bits_trimMarker_tagged hbits
    rw [hleft]
    refine ⟨Slice.ofParts_ofBytes hlen, Slice.ofBounds_whole _, _, _, .ofBits bits [], stripTag_tagged bits,
      Slice.remainingBits_trimMarker_tagged hbits, length_bytesOfBits bits, bitsOfBytes_bytesOfBits bits, ?_,
      Cell.bits_ofBits bits []⟩
    exact Cell.ofParts_eq_ok false (by unfold maxBits; omega) (Nat.zero_le _) (length_bytesOfBits bits)
  · intro bits hbits data
    refine ⟨?_, Slice.length_tagged_le hbits, stripTag_tagged bits, Slice.bits_trimMarker_tagged hbits⟩
    rw [bitsOfBytes_bytesOfBits, List.length_append, List.length_singleton, List.append_assoc, List.singleton_append]

/-- A tag in a byte of its own, one within a byte, and bytes that end with a zero. -/
theorem stripTag_agrees_own_byte :
    let s := Slice.ofBytes [0xb5, 0x80]
    (∃ rest, stripTag [0xb5, 0x80] = .ok (rest, 8) ∧ s.trimMarker.remainingBits = 8 ∧
      bitsOfBytes rest = s.trimMarker.bits) ∧
    stripTag (bytesOfBits ([false, false, true] ++ [true])) = .ok ([0x20], 3) ∧
    stripTag [0xb5, 0x00] = .error .missingTag := by
  intro s
  obtain ⟨hrefused, hagrees, hgiven⟩ := stripTag_agrees
  refine ⟨?_, (hgiven [false, false, true] (by decide)).2.2.1, (hrefused _ _).mpr ⟨rfl, Or.inr rfl⟩⟩
  obtain ⟨-, -, rest, count, -, hstrip, hcount, -, hbits, -, -⟩ :=
    hagrees [0xb5, 0x80] 0x80 (by decide) rfl (by decide)
  obtain rfl : count = 8 := by
    rw [← hcount]
    decide +kernel
  exact ⟨rest, hstrip, hcount, by simpa [padding] using hbits⟩

end BagOfCells

end TvmCode
