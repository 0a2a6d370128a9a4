import TvmCode.Proofs.Slice

/-!
# Bits at any position

The bit of a cell at a position is one of the byte whose number is an eighth of the position, counted from its high end
(`Cell.bitAt`). A run of bits within a cell is read as the number that the bits at its positions spell, wherever in a
byte it starts and ends (`Cell.bitsAt_eq_bitAt`). So a run may be read in parts: its number is put together from those
of the parts (`Cell.bitsAt_add`), and a slice ends in the same place (`Slice.readNat_add_iff`). All this together is
`Cell.bitsAt_unaligned`.
-/

namespace TvmCode

/-! ## Bits by position -/

theorem getElem?_bitsOfByte (b : UInt8) {i : Nat} (h : i < 8) :
    (bitsOfByte b)[i]? = some (b.toNat.testBit (7 - i)) := by
  rw [bitsOfByte, List.getElem?_map, List.getElem?_range h]
  rfl

/-- A bit of bytes lies in the byte whose number is an eighth of its position. -/
theorem getElem?_bitsOfBytes (bytes : List UInt8) (i : Nat) :
    (bitsOfBytes bytes)[i]? = bytes[i / 8]?.map fun b => b.toNat.testBit (7 - i % 8) := by
  induction bytes generalizing i with
  | nil => rfl
  | cons b bytes ih =>
    rw [bitsOfBytes_cons]
    by_cases h : i < 8
    · rw [List.getElem?_append_left (by simpa using h), getElem?_bitsOfByte b h, Nat.div_eq_of_lt h, Nat.mod_eq_of_lt h]
      rfl
    · obtain ⟨j, rfl⟩ := Nat.exists_eq_add_of_le' (Nat.le_of_not_lt h)
      rw [List.getElem?_append_right (by simp), length_bitsOfByte, Nat.add_sub_cancel, ih, Nat.add_mod_right,
        Nat.add_div_right _ (by decide), List.getElem?_cons_succ]

namespace Cell

/-- The bit of the data at a position, where each byte is counted from its high end. -/
def bitAt (c : Cell) (i : Nat) : Bool := (c.data.getD (i / 8) 0).toNat.testBit (7 - i % 8)

section Reading

variable {c : Cell} (hc : c.WellFormed)
include hc

theorem getElem?_bits {i : Nat} (h : i < c.bitLen) : c.bits[i]? = some (c.bitAt i) := by
  have hdata := hc.length_data
  have hbyte : i / 8 < c.data.length := by omega
  rw [bits, List.getElem?_take_of_lt h, getElem?_bitsOfBytes, List.getElem?_eq_getElem hbyte]
  simp [bitAt, hbyte]

/-- **A run of bits is read as the number that the bits at its positions spell.** -/
theorem bitsAt_eq_bitAt {pos width : Nat} (h : pos + width ≤ c.bitLen) :
    c.bitsAt pos width = natOfBits ((List.range' pos width).map c.bitAt) := by
  have hrun : (c.bits.drop pos).take width = (List.range' pos width).map c.bitAt := by
    refine List.ext_getElem? fun i => ?_
    by_cases hi : i < width
    · rw [List.getElem?_take_of_lt hi, List.getElem?_drop, getElem?_bits hc (by omega), List.getElem?_map,
        List.getElem?_range' hi, Nat.one_mul]
      rfl
    · rw [List.getElem?_take, if_neg hi, List.getElem?_eq_none (by simpa using hi)]
  rw [bitsAt_eq hc h, hrun]

/-- A run of bits is read in two parts. -/
theorem bitsAt_add {pos m n : Nat} (h : pos + (m + n) ≤ c.bitLen) :
    c.bitsAt pos (m + n) = c.bitsAt pos m * 2 ^ n + c.bitsAt (pos + m) n := by
  have hparts : List.range' pos (m + n) = List.range' pos m ++ List.range' (pos + m) n := by
    rw [List.range'_append_1]
  rw [bitsAt_eq_bitAt hc h, bitsAt_eq_bitAt hc (show pos + m ≤ c.bitLen by omega),
    bitsAt_eq_bitAt hc (show pos + m + n ≤ c.bitLen by omega), hparts, List.map_append, natOfBits_append,
    List.length_map, List.length_range']

end Reading

end Cell

/-! ## Reading in parts -/

namespace Slice

variable {s : Slice}

/-- A number is read where there are bits enough, and these are left behind. -/
theorem readNat_eq_ok_iff (hs : s.Valid) {width n : Nat} {t : Slice} :
    s.readNat width = .ok (n, t) ↔
      width ≤ s.remainingBits ∧ n = s.cell.bitsAt s.bitPos width ∧ t = s.dropBits width := by
  have hpos := hs.1
  unfold readNat requireBits remainingBits
  by_cases h : width ≤ s.bitEnd - s.bitPos
  · rw [if_neg (by omega), Except.map, Int.toNat_natCast, Except.ok.injEq, Prod.mk.injEq]
    simp only [h, true_and, eq_comm]
  · rw [if_pos (by omega)]
    simp [Except.map, h]

/-- **One read comes to the same as two.** Where the bits of both are read at once, the first read gives the higher part
of the number and the second the lower, and the slice ends in the same place; and where both can be read one after the
other, they can be at once. -/
theorem readNat_add_iff (hs : s.Sound) {m k n : Nat} {t : Slice} :
    s.readNat (m + k : Nat) = .ok (n, t) ↔
      ∃ u, s.readNat m = .ok (n / 2 ^ k, u) ∧ u.readNat k = .ok (n % 2 ^ k, t) := by
  have hpos := hs.valid.1
  have hend := hs.valid.2.1
  have hparts : m + k ≤ s.remainingBits →
      s.cell.bitsAt s.bitPos (m + k) = s.cell.bitsAt s.bitPos m * 2 ^ k + s.cell.bitsAt (s.bitPos + m) k := by
    unfold remainingBits
    exact fun h => Cell.bitsAt_add hs.cell (by omega)
  have hlow := Cell.bitsAt_lt s.cell (s.bitPos + m) k
  constructor
  · intro hread
    obtain ⟨hroom, rfl, rfl⟩ := (readNat_eq_ok_iff hs.valid).mp hread
    have hfirst : m ≤ s.remainingBits := by omega
    refine ⟨s.dropBits m, (readNat_eq_ok_iff hs.valid).mpr ⟨hfirst, ?_, rfl⟩,
      (readNat_eq_ok_iff (hs.dropBits hfirst).valid).mpr ⟨?_, ?_, ?_⟩⟩
    · rw [hparts hroom, Nat.mul_comm, Nat.mul_add_div (Nat.two_pow_pos k), Nat.div_eq_of_lt hlow, Nat.add_zero]
    · rw [remainingBits_dropBits]
      omega
    · rw [hparts hroom, Nat.mul_comm, Nat.mul_add_mod, Nat.mod_eq_of_lt hlow]
      rfl
    · rw [dropBits_dropBits]
  · rintro ⟨u, hread, hread'⟩
    obtain ⟨hfirst, hhigh, rfl⟩ := (readNat_eq_ok_iff hs.valid).mp hread
    obtain ⟨hsecond, hrest, rfl⟩ := (readNat_eq_ok_iff (hs.dropBits hfirst).valid).mp hread'
    rw [remainingBits_dropBits] at hsecond
    have hroom : m + k ≤ s.remainingBits := by omega
    refine (readNat_eq_ok_iff hs.valid).mpr ⟨hroom, ?_, dropBits_dropBits s m k⟩
    rw [hparts hroom, ← hhigh]
    show n = n / 2 ^ k * 2 ^ k + (s.dropBits m).cell.bitsAt (s.dropBits m).bitPos k
    rw [← hrest, Nat.div_add_mod']

end Slice

/-- **Bits are extracted at any position.** Wherever in a byte a run of bits of a cell starts and ends, it is read as
the number that the bits at its positions spell, and so it may be read in two parts, cut anywhere. A slice of the cell
gives a number just where it has bits enough; the two parts of this number are what two reads one after the other give,
and these end where the one read does. -/
theorem Cell.bitsAt_unaligned {c : Cell} (hc : c.WellFormed) :
    (∀ pos width, pos + width ≤ c.bitLen →
      c.bitsAt pos width = natOfBits ((List.range' pos width).map c.bitAt)) ∧
    (∀ pos m k, pos + (m + k) ≤ c.bitLen →
      c.bitsAt pos (m + k) = c.bitsAt pos m * 2 ^ k + c.bitsAt (pos + m) k) ∧
    ∀ s : Slice, s.cell = c → s.Valid → ∀ m k : Nat,
      ((∃ p, s.readNat (m + k : Nat) = .ok p) ↔ m + k ≤ s.remainingBits) ∧
      ∀ (n : Nat) (t : Slice), s.readNat (m + k : Nat) = .ok (n, t) ↔
        ∃ u, s.readNat m = .ok (n / 2 ^ k, u) ∧ u.readNat k = .ok (n % 2 ^ k, t) := by
  refine ⟨fun _ _ h => bitsAt_eq_bitAt hc h, fun _ _ _ h => bitsAt_add hc h, ?_⟩
  rintro s rfl hs m k
  refine ⟨⟨?_, fun h => ⟨_, (Slice.readNat_eq_ok_iff hs).mpr ⟨h, rfl, rfl⟩⟩⟩,
    fun n t => Slice.readNat_add_iff ⟨hs, hc⟩⟩
  rintro ⟨p, hread⟩
  exact ((Slice.readNat_eq_ok_iff hs).mp hread).1

/-- A run over three bytes that starts and ends within one, cut within the second byte, and behind the first for a
slice. -/
theorem Cell.bitsAt_unaligned_three_bytes :
    let c : Cell := ⟨[0xb4, 0x9f, 0x70], 20, [], false⟩
    let s : Slice := ⟨c, 2, 19, 0, 0⟩
    c.bitsAt 3 14 = natOfBits ((List.range' 3 14).map c.bitAt) ∧ c.bitsAt 3 14 = 0b10100100111110 ∧
      c.bitsAt 3 (8 + 6) = c.bitsAt 3 8 * 2 ^ 6 + c.bitsAt (3 + 8) 6 ∧
      (∃ u, s.readNat 6 = .ok (0b110100, u) ∧ u.readNat 9 = .ok (0b100111110, s.dropBits 15)) ∧
      ¬∃ p, s.readNat (9 + 9 : Nat) = .ok p := by
  intro c s
  have hc : c.WellFormed := .intro (by decide) (by decide) (by decide) nofun
  have hs : s.Valid := ⟨by decide, by decide, by decide, by decide⟩
  obtain ⟨hspells, hsplits, hreads⟩ := Cell.bitsAt_unaligned hc
  have hwhole : s.readNat (6 + 9 : Nat) = .ok (0b110100100111110, s.dropBits 15) :=
    (Slice.readNat_eq_ok_iff hs).mpr ⟨by decide, by decide, rfl⟩
  refine ⟨hspells 3 14 (by decide), by decide, hsplits 3 8 6 (by decide), ?_, ?_⟩
  · exact ((hreads s rfl hs 6 9).2 _ _).mp hwhole
  · rw [(hreads s rfl hs 9 9).1]
    decide

end TvmCode
