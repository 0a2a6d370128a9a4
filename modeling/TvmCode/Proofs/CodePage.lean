import TvmCode.CodePage.Zero
import TvmCode.Proofs.Dispatch
import TvmCode.Proofs.Instruction

/-!
# The consistency of code page zero

Each instruction of a code page is filed under some bytes and checks its opcode with a width of its own. An instruction
fits its bytes (`Instr.fits`) when its opcodes are the first bits of them, when it takes at least these bytes and takes
whole bytes altogether, and when its texts have a place for each operand. For a run of bytes it is enough to look at
the two ends of the run (`Instr.fits_between`), so that the check of all records (`Record.fitList`) is short.

The records of code page zero are tidy and fit (`CodePage.tidy_zeroRecords`, `CodePage.fit_zeroRecords`), so its table
is built (`CodePage.build_zero`), and whatever it finds at the front of a slice fits what stands there, namely the bytes
that it was found by (`CodePage.fits_reach`, `CodePage.fits_of_find?`).
-/

namespace TvmCode

/-! ## Instructions and their bytes -/

namespace Instr

/-- The opcodes are the first of the `bits` bits of a number, all these bits are taken, and whole bytes altogether. -/
def fits (i : Instr) (value bits : Nat) : Bool :=
  Opcode.agree i.opcodes value bits && decide (bits ≤ Opcode.total i.opcodes + i.form.width) &&
    (Opcode.total i.opcodes + i.form.width) % 8 == 0 && i.form.shaped

variable {i : Instr} {value bits : Nat}

theorem fits_iff : i.fits value bits = true ↔
    Opcode.agree i.opcodes value bits = true ∧ bits ≤ Opcode.total i.opcodes + i.form.width ∧
      (Opcode.total i.opcodes + i.form.width) % 8 = 0 ∧ i.form.shaped = true := by
  simp only [fits, Bool.and_eq_true, decide_eq_true_eq, beq_iff_eq, and_assoc]

/-- An instruction that fits two numbers fits those between. -/
theorem fits_between {lo hi : Nat} (hlo : i.fits lo bits = true) (hhi : i.fits hi bits = true) (h₁ : lo ≤ value)
    (h₂ : value ≤ hi) : i.fits value bits = true := by
  obtain ⟨hagree, hrest⟩ := fits_iff.mp hlo
  exact fits_iff.mpr ⟨Opcode.agree_between hagree (fits_iff.mp hhi).1 h₁ h₂, hrest⟩

/-- An instruction that fits the first bits of a slice passes its check, and then what follows is decoded. -/
theorem decode_of_fits {nested : Nested} {s : Slice} (hs : s.Sound) (hbits : bits ≤ s.remainingBits)
    (h : i.fits (natOfBits (s.bits.take bits)) bits = true) (notes : List Note) :
    i.decode nested ⟨s, notes⟩ = i.form.decode nested ⟨s.dropBits (Opcode.total i.opcodes), notes⟩ := by
  obtain ⟨us, hcheck⟩ := Opcode.each_check_eq_ok hs hbits (fits_iff.mp h).1 notes
  rw [decode, Decoder.bind_apply, hcheck]

/-- An instruction that fits the first bits of a slice takes them and whole bytes, if it shows a text. -/
theorem bitPos_of_decode {nested : Nested} {s : Slice} (hs : s.Sound) (hbits : bits ≤ s.remainingBits)
    (h : i.fits (natOfBits (s.bits.take bits)) bits = true) {notes : List Note} {text : String} {k : Cursor}
    (hdec : i.decode nested ⟨s, notes⟩ = .ok (some text) k) :
    ∃ m, k.slice.bitPos = s.bitPos + 8 * m ∧ bits ≤ 8 * m := by
  obtain ⟨-, hwidth, hwhole, hshaped⟩ := fits_iff.mp h
  rw [decode_of_fits hs hbits h] at hdec
  obtain ⟨m, hm⟩ := Form.width_of_decode hshaped hdec
  refine ⟨(Opcode.total i.opcodes + i.form.width) / 8 + m, ?_, ?_⟩
  · simp only [Slice.dropBits] at hm
    omega
  · omega

/-- An instruction that fits the first bits of a slice takes no reference, if it shows no text. -/
theorem refPos_of_decode {nested : Nested} {s : Slice} (hs : s.Sound) (hbits : bits ≤ s.remainingBits)
    (h : i.fits (natOfBits (s.bits.take bits)) bits = true) {notes : List Note} {k : Cursor}
    (hdec : i.decode nested ⟨s, notes⟩ = .ok none k) : k.slice.refPos = s.refPos := by
  rw [decode_of_fits hs hbits h] at hdec
  exact Form.refPos_of_decode hdec

end Instr

/-! ## Records -/

namespace Record

mutual

/-- The instructions of a record fit the bytes they are filed under, those before them being the `bits` bits of a
number. -/
def fit (value bits : Nat) : Record Instr → Bool
  | .byte code i => i.fits (value * 256 + code.toNat) (bits + 8)
  | .span lo hi i => i.fits (value * 256 + lo.toNat) (bits + 8) && i.fits (value * 256 + (hi.toNat - 1)) (bits + 8)
  | .group code records => fitList (value * 256 + code.toNat) (bits + 8) records

/-- The instructions of records fit the bytes they are filed under. -/
def fitList (value bits : Nat) : List (Record Instr) → Bool
  | [] => true
  | r :: rs => fit value bits r && fitList value bits rs

end

theorem fit_of_mem {value bits : Nat} {records : List (Record Instr)} (h : fitList value bits records = true)
    {r : Record Instr} (hr : r ∈ records) : r.fit value bits = true := by
  induction records with
  | nil => cases hr
  | cons q records ih =>
    rw [fitList, Bool.and_eq_true] at h
    rcases List.mem_cons.mp hr with rfl | hr
    · exact h.1
    · exact ih h.2 hr

end Record

/-- The number that bytes spell behind a number. -/
def pathValue (value : Nat) (path : List Nat) : Nat := path.foldl (fun n b => n * 256 + b) value

/-- What records declare fits the way it is filed under. -/
theorem fits_of_declares {value bits : Nat} {records : List (Record Instr)} {path : List Nat} {i : Instr}
    (h : Record.fitList value bits records = true) (hdecl : Declares records path i) :
    i.fits (pathValue value path) (bits + 8 * path.length) = true := by
  induction hdecl generalizing value bits with
  | byte hmem => exact Record.fit_of_mem h hmem
  | @span records lo hi b i hmem hlo hhi =>
    have hfit := Record.fit_of_mem h hmem
    rw [Record.fit, Bool.and_eq_true] at hfit
    exact Instr.fits_between hfit.1 hfit.2 (by simp only [pathValue, List.foldl]; omega)
      (by simp only [pathValue, List.foldl]; omega)
  | @group records inner b path i hmem _ ih =>
    have hfit := ih (Record.fit_of_mem h hmem)
    rw [List.length_cons, Nat.mul_add, Nat.add_comm (8 * path.length), ← Nat.add_assoc]
    exact hfit

/-- The first bytes of a slice spell the number of its first bits. -/
theorem pathValue_eq {s : Slice} (hs : s.Sound) {path : List Nat} (h : s.Starts path) (value : Nat) :
    pathValue value path = value * 2 ^ (8 * path.length) + natOfBits (s.bits.take (8 * path.length)) := by
  induction path generalizing s value with
  | nil => simp [pathValue]
  | cons b path ih =>
    obtain ⟨hroom, hbyte, hrest⟩ := h
    have hle := hrest.length_le
    have hlen := hs.length_bits
    rw [Slice.remainingBits_dropBits] at hle
    rw [Slice.bitsAt_eq hs hroom] at hbyte
    have hsplit := take_eq_take_append s.bits (w := 8) (n := 8 * (path.length + 1)) (by omega)
    have hrestLen : ((s.bits.drop 8).take (8 * (path.length + 1) - 8)).length = 8 * path.length := by
      rw [List.length_take, List.length_drop]; omega
    have hstep : pathValue value (b :: path) = pathValue (value * 256 + b) path := rfl
    rw [hstep, ih (hs.dropBits hroom) hrest, List.length_cons, hsplit, natOfBits_append, hrestLen, hbyte,
      Slice.bits_dropBits, Nat.mul_add 8, Nat.mul_one, Nat.add_sub_cancel, pow_add]
    ring

/-! ## Code page zero -/

namespace CodePage

/-- No two records of code page zero cover the same byte. -/
theorem tidy_zeroRecords : Record.tidyList 0 zeroRecords = true := by decide +kernel

/-- Every instruction of code page zero fits the bytes it is filed under. -/
theorem fit_zeroRecords : Record.fitList 0 0 zeroRecords = true := by decide +kernel

/-- The table of code page zero is the one that its records build. -/
theorem build_zero : Table.build zeroRecords = .ok zero :=
  Table.build_ofRecords (Table.exists_build tidy_zeroRecords)

/-- What code page zero finds is what its records declare for the first bytes. -/
theorem find?_eq_some_iff {s : Slice} {i : Instr} :
    zero.find? s = some i ↔ ∃ path, Declares zeroRecords path i ∧ s.Starts path := by
  rw [Table.find?, Slot.find?_eq_some_iff]
  simp only [Table.follow?_build build_zero]

/-- An instruction that code page zero finds fits the bytes that it was found by, and is found again as long as these
are there. -/
theorem fits_reach {s : Slice} (hs : s.Sound) {i : Instr} (h : zero.find? s = some i) :
    0 < zero.reach s ∧ 8 * zero.reach s ≤ s.remainingBits ∧
      i.fits (natOfBits (s.bits.take (8 * zero.reach s))) (8 * zero.reach s) = true ∧
      ∀ bitEnd refEnd, s.bitPos + 8 * zero.reach s ≤ bitEnd → zero.find? (s.withEnds bitEnd refEnd) = some i := by
  obtain ⟨path, hdecl, hstart⟩ := find?_eq_some_iff.mp h
  have hreach : zero.reach s = path.length := Slot.reach_eq_length ((Table.follow?_build build_zero).mpr hdecl) hstart
  have hfit := fits_of_declares fit_zeroRecords hdecl
  rw [pathValue_eq hs hstart, Nat.zero_mul, Nat.zero_add, Nat.zero_add] at hfit
  rw [hreach]
  refine ⟨?_, hstart.length_le, hfit, ?_⟩
  · cases hdecl <;> simp
  · intro bitEnd refEnd hroom
    exact find?_eq_some_iff.mpr ⟨path, hdecl, hstart.withEnds hroom⟩

/-- An instruction that code page zero finds fits what stands at the front of the slice, and is found again as long as
the bits that it fits are there. -/
theorem fits_of_find? {s : Slice} (hs : s.Sound) {i : Instr} (h : zero.find? s = some i) :
    ∃ bits, 0 < bits ∧ bits ≤ s.remainingBits ∧ i.fits (natOfBits (s.bits.take bits)) bits = true ∧
      ∀ bitEnd refEnd, s.bitPos + bits ≤ bitEnd → zero.find? (s.withEnds bitEnd refEnd) = some i := by
  obtain ⟨hpos, hroom, hfits, hagain⟩ := fits_reach hs h
  exact ⟨8 * zero.reach s, by omega, hroom, hfits, hagain⟩

/-- An instruction that code page zero finds passes its check. -/
theorem decode_of_find? {s : Slice} (hs : s.Sound) {i : Instr} (h : zero.find? s = some i) (nested : Nested)
    (notes : List Note) :
    Opcode.total i.opcodes ≤ s.remainingBits ∧
      i.decode nested ⟨s, notes⟩ = i.form.decode nested ⟨s.dropBits (Opcode.total i.opcodes), notes⟩ := by
  obtain ⟨bits, -, hroom, hfits, -⟩ := fits_of_find? hs h
  exact ⟨(Opcode.total_le (Instr.fits_iff.mp hfits).1).trans hroom, Instr.decode_of_fits hs hroom hfits notes⟩

end CodePage

end TvmCode
