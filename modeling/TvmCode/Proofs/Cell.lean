import Mathlib.Data.List.Forall2
import TvmCode.Proofs.Bits

/-!
# Cells as bit strings

A cell is a string of up to 1023 bits with up to four references. `Cell.WellFormed` holds of the trees that
`Cell.ofParts` makes, and `Cell.bits` is the bit string of a cell.

- a run of bits within a cell is read as the number that these bits spell (`Cell.bitsAt_eq`);
- `Cell.ofBits` makes the cell of given bits and references (`Cell.bits_ofBits`, `Cell.wellFormed_ofBits`);
- two trees are alike (`Cell.BitEq`) when they have the same shape, bits and exotic marks, whatever the last byte
  of a cell holds beyond its bits.
-/

namespace TvmCode

namespace Cell

/-- A tree of cells that keep the bounds on bits and references and have as many bytes as their bits need. -/
inductive WellFormed : Cell → Prop
  | intro {c : Cell} (bits : c.bitLen ≤ maxBits) (refs : c.refs.length ≤ maxRefs)
      (data : c.data.length = (c.bitLen + 7) / 8) (children : ∀ d ∈ c.refs, WellFormed d) : WellFormed c

namespace WellFormed

variable {c : Cell}

theorem bitLen_le (h : c.WellFormed) : c.bitLen ≤ maxBits := by
  cases h; assumption

theorem refs_le (h : c.WellFormed) : c.refs.length ≤ maxRefs := by
  cases h; assumption

theorem length_data (h : c.WellFormed) : c.data.length = (c.bitLen + 7) / 8 := by
  cases h; assumption

theorem of_mem_refs (h : c.WellFormed) {d : Cell} (hd : d ∈ c.refs) : d.WellFormed := by
  cases h with
  | intro _ _ _ children => exact children d hd

end WellFormed

/-- Parts within the bounds make a cell. -/
theorem ofParts_eq_ok {data : List UInt8} {bitLen : Nat} {refs : List Cell} (exotic : Bool) (hbits : bitLen ≤ maxBits)
    (hrefs : refs.length ≤ maxRefs) (hdata : data.length = (bitLen + 7) / 8) :
    ofParts data bitLen refs exotic = .ok ⟨data, bitLen, refs, exotic⟩ := by
  rw [ofParts, if_neg (by omega), if_neg (by omega), if_neg (by simpa using hdata)]
  rfl

/-- The cells that `Cell.ofParts` makes over well-formed references are the well-formed ones. -/
theorem wellFormed_iff_ofParts {data : List UInt8} {bitLen : Nat} {refs : List Cell} {exotic : Bool}
    (hrefs : ∀ d ∈ refs, d.WellFormed) :
    WellFormed ⟨data, bitLen, refs, exotic⟩ ↔ ofParts data bitLen refs exotic = .ok ⟨data, bitLen, refs, exotic⟩ := by
  constructor
  · rintro ⟨hbits, hcount, hdata, -⟩
    exact ofParts_eq_ok exotic hbits hcount hdata
  · intro h
    unfold ofParts at h
    split at h
    · cases h
    · split at h
      · cases h
      · split at h
        · cases h
        · refine ⟨?_, ?_, ?_, hrefs⟩
          · simp only; omega
          · simp only; omega
          · simp_all

/-! ## Bits -/

/-- The bits of a cell. -/
def bits (c : Cell) : List Bool := (bitsOfBytes c.data).take c.bitLen

theorem WellFormed.length_bits {c : Cell} (h : c.WellFormed) : c.bits.length = c.bitLen := by
  rw [bits, List.length_take, length_bitsOfBytes, h.length_data]
  omega

/-- The bytes that hold a run of bits have further bits in front of it and behind it. -/
theorem bitsOfBytes_window (data : List UInt8) (pos width : Nat) (h : (pos + width + 7) / 8 ≤ data.length) :
    ∃ before after, bitsOfBytes ((data.drop (pos / 8)).take ((pos + width + 7) / 8 - pos / 8))
        = before ++ ((bitsOfBytes data).drop pos).take width ++ after ∧
      after.length = (pos + width + 7) / 8 * 8 - (pos + width) := by
  set bs := bitsOfBytes data with hbs
  have hlen : bs.length = 8 * data.length := length_bitsOfBytes data
  refine ⟨(bs.drop (8 * (pos / 8))).take (pos - 8 * (pos / 8)),
    (bs.drop (pos + width)).take ((pos + width + 7) / 8 * 8 - (pos + width)), ?_, ?_⟩
  · rw [bitsOfBytes_take, bitsOfBytes_drop, ← hbs]
    -- the run of bytes is cut at the two ends of the run of bits
    have h₁ : bs.drop pos = (bs.drop (8 * (pos / 8))).drop (pos - 8 * (pos / 8)) := by
      rw [List.drop_drop]; congr 1; omega
    have h₂ : bs.drop (pos + width) = ((bs.drop (8 * (pos / 8))).drop (pos - 8 * (pos / 8))).drop width := by
      rw [List.drop_drop, List.drop_drop]; congr 1; omega
    rw [h₂, h₁, List.append_assoc, ← List.take_add, ← List.take_add]
    congr 1
    omega
  · rw [List.length_take, List.length_drop, hlen]
    omega

/-- A run of bits of a cell is read as the number that the bits spell. -/
theorem bitsAt_eq {c : Cell} (hc : c.WellFormed) {pos width : Nat} (h : pos + width ≤ c.bitLen) :
    c.bitsAt pos width = natOfBits ((c.bits.drop pos).take width) := by
  have hdata := hc.length_data
  obtain ⟨before, after, hwin, hafter⟩ := bitsOfBytes_window c.data pos width (by omega)
  have hrun : (c.bits.drop pos).take width = ((bitsOfBytes c.data).drop pos).take width := by
    rw [bits, List.drop_take, List.take_take]
    congr 1
    omega
  have hlen : (((bitsOfBytes c.data).drop pos).take width).length = width := by
    rw [List.length_take, List.length_drop, length_bitsOfBytes]
    omega
  rw [bitsAt, ← natOfBits_bitsOfBytes, hwin, ← hafter, natOfBits_shiftRight, Nat.shiftLeft_eq, Nat.one_mul, hrun]
  have hmod := natOfBits_mod before (((bitsOfBytes c.data).drop pos).take width)
  rwa [hlen] at hmod

theorem bitsAt_lt (c : Cell) (pos width : Nat) : c.bitsAt pos width < 2 ^ width := by
  rw [bitsAt, Nat.one_shiftLeft]
  exact Nat.mod_lt _ (Nat.two_pow_pos _)

/-! ## The cell of given bits -/

/-- The cell that holds given bits and references, with zeros after the last bit. -/
def ofBits (bits : List Bool) (refs : List Cell) : Cell := ⟨bytesOfBits bits, bits.length, refs, false⟩

@[simp] theorem bits_ofBits (bits : List Bool) (refs : List Cell) : (ofBits bits refs).bits = bits := by
  simp [ofBits, Cell.bits, bitsOfBytes_bytesOfBits]

@[simp] theorem refs_ofBits (bits : List Bool) (refs : List Cell) : (ofBits bits refs).refs = refs := rfl

theorem wellFormed_ofBits {bits : List Bool} {refs : List Cell} (hbits : bits.length ≤ maxBits)
    (hcount : refs.length ≤ maxRefs) (hrefs : ∀ d ∈ refs, d.WellFormed) : (ofBits bits refs).WellFormed :=
  ⟨hbits, hcount, length_bytesOfBits bits, hrefs⟩

/-! ## Trees with the same bits -/

/-- Two trees of the same shape, bits and exotic marks. -/
inductive BitEq : Cell → Cell → Prop
  | intro {c d : Cell} (bits : c.bits = d.bits) (exotic : c.exotic = d.exotic)
      (count : c.refs.length = d.refs.length) (children : ∀ p ∈ c.refs.zip d.refs, BitEq p.1 p.2) : BitEq c d

namespace BitEq

variable {c d : Cell}

theorem bits_eq (h : BitEq c d) : c.bits = d.bits := by
  cases h; assumption

theorem refs_alike (h : BitEq c d) : List.Forall₂ BitEq c.refs d.refs := by
  cases h with
  | intro _ _ count children => exact List.forall₂_iff_zip.mpr ⟨count, fun hab => children _ hab⟩

/-- A tree is like itself. -/
theorem refl (c : Cell) : BitEq c c := by
  refine ⟨rfl, rfl, rfl, ?_⟩
  rintro ⟨a, b⟩ hab
  obtain ⟨hmem, rfl⟩ : a ∈ c.refs ∧ a = b := by
    obtain ⟨i, hi, hget⟩ := List.mem_iff_getElem.mp hab
    simp only [List.getElem_zip, Prod.mk.injEq] at hget
    exact ⟨hget.1 ▸ List.getElem_mem _, hget.1.symm.trans hget.2⟩
  have := sizeOf_lt_of_mem_refs hmem
  exact refl a
termination_by sizeOf c

end BitEq

end Cell

end TvmCode
