import TvmCode.Cell.Slice
import TvmCode.Proofs.Cell

/-!
# Slices as bits and references

What a slice shows is a bit string and a list of references (`Slice.bits`, `Slice.refs`); where it lies in which cell
is not seen.

- the reads of a sound slice take from the front of the two lists (`Slice.bitsAt_eq`, `Slice.bits_dropBits`,
  `Slice.refs_dropRefs`);
- what a decoder leaves is the slice less some bits and references at the front (`Slice.Advance`);
- a window is cut or stretched by `Slice.withEnds`;
- two slices are twins when they show the same bits and like references (`Slice.Twin`), and twins have the same
  hexadecimal text, also without a completion tag (`Slice.Twin.toHex_eq`, `Slice.Twin.trimMarker`).
-/

namespace TvmCode.Slice

/-- A window within a well-formed cell. -/
structure Sound (s : Slice) : Prop where
  valid : s.Valid
  cell : s.cell.WellFormed

/-- The bits left. -/
def bits (s : Slice) : List Bool := (s.cell.bits.drop s.bitPos).take s.remainingBits

/-- The references left. -/
def refs (s : Slice) : List Cell := (s.cell.refs.drop s.refPos).take s.remainingRefs

/-- The whole of a well-formed cell is a sound slice. -/
theorem sound_ofCell {c : Cell} (hc : c.WellFormed) : (ofCell c).Sound :=
  ⟨⟨Nat.zero_le _, Nat.le_refl _, Nat.zero_le _, Nat.le_refl _⟩, hc⟩

theorem bits_ofCell {c : Cell} (hc : c.WellFormed) : (ofCell c).bits = c.bits := by
  simp [bits, ofCell, remainingBits, ← hc.length_bits]

@[simp] theorem refs_ofCell (c : Cell) : (ofCell c).refs = c.refs := by
  simp [refs, ofCell, remainingRefs]

theorem Sound.length_bits {s : Slice} (hs : s.Sound) : s.bits.length = s.remainingBits := by
  obtain ⟨⟨h₁, h₂, -, -⟩, hc⟩ := hs
  rw [bits, List.length_take, List.length_drop, hc.length_bits, remainingBits]
  omega

theorem Sound.length_refs {s : Slice} (hs : s.Sound) : s.refs.length = s.remainingRefs := by
  obtain ⟨⟨-, -, h₁, h₂⟩, -⟩ := hs
  rw [refs, List.length_take, List.length_drop, remainingRefs]
  omega

theorem mem_refs_of_mem {s : Slice} {c : Cell} (h : c ∈ s.refs) : c ∈ s.cell.refs :=
  List.mem_of_mem_drop (List.mem_of_mem_take h)

/-! ## Reading -/

section Reading

variable {s : Slice}

/-- The next bits as a number. -/
theorem bitsAt_eq (hs : s.Sound) {width : Nat} (h : width ≤ s.remainingBits) :
    s.cell.bitsAt s.bitPos width = natOfBits (s.bits.take width) := by
  obtain ⟨⟨h₁, h₂, -, -⟩, hc⟩ := hs
  unfold remainingBits at h
  rw [Cell.bitsAt_eq hc (by omega), bits, List.take_take, remainingBits, Nat.min_eq_left h]

/-- All bits left as a number. -/
theorem value_eq (hs : s.Sound) : s.value = natOfBits s.bits := by
  rw [value, bitsAt_eq hs (Nat.le_refl _), List.take_of_length_le (by rw [hs.length_bits])]

theorem toHex_eq (hs : s.Sound) : s.toHex = hexOfBits (natOfBits s.bits) s.bits.length := by
  rw [toHex, value_eq hs, hs.length_bits]

@[simp] theorem remainingBits_dropBits (s : Slice) (n : Nat) :
    (s.dropBits n).remainingBits = s.remainingBits - n := by
  simp only [remainingBits, dropBits]; omega

@[simp] theorem remainingRefs_dropBits (s : Slice) (n : Nat) : (s.dropBits n).remainingRefs = s.remainingRefs := rfl

@[simp] theorem remainingBits_dropRefs (s : Slice) (n : Nat) : (s.dropRefs n).remainingBits = s.remainingBits := rfl

@[simp] theorem remainingRefs_dropRefs (s : Slice) (n : Nat) :
    (s.dropRefs n).remainingRefs = s.remainingRefs - n := by
  simp only [remainingRefs, dropRefs]; omega

@[simp] theorem bits_dropBits (s : Slice) (n : Nat) : (s.dropBits n).bits = s.bits.drop n := by
  rw [bits, bits, remainingBits_dropBits, List.drop_take, List.drop_drop]
  rfl

@[simp] theorem refs_dropBits (s : Slice) (n : Nat) : (s.dropBits n).refs = s.refs := rfl

@[simp] theorem bits_dropRefs (s : Slice) (n : Nat) : (s.dropRefs n).bits = s.bits := rfl

@[simp] theorem refs_dropRefs (s : Slice) (n : Nat) : (s.dropRefs n).refs = s.refs.drop n := by
  rw [refs, refs, remainingRefs_dropRefs, List.drop_take, List.drop_drop]
  rfl

theorem dropBits_dropBits (s : Slice) (m n : Nat) : (s.dropBits m).dropBits n = s.dropBits (m + n) := by
  simp only [dropBits, Nat.add_assoc]

theorem Sound.dropBits (hs : s.Sound) {n : Nat} (h : n ≤ s.remainingBits) : (s.dropBits n).Sound := by
  obtain ⟨⟨h₁, h₂, h₃, h₄⟩, hc⟩ := hs
  unfold remainingBits at h
  exact ⟨⟨by simp only [Slice.dropBits]; omega, h₂, h₃, h₄⟩, hc⟩

theorem Sound.dropRefs (hs : s.Sound) {n : Nat} (h : n ≤ s.remainingRefs) : (s.dropRefs n).Sound := by
  obtain ⟨⟨h₁, h₂, h₃, h₄⟩, hc⟩ := hs
  unfold remainingRefs at h
  exact ⟨⟨h₁, h₂, by simp only [Slice.dropRefs]; omega, h₄⟩, hc⟩

/-- The next reference is the first of those left. -/
theorem getD_refs_eq (hs : s.Sound) (h : 0 < s.remainingRefs) :
    s.refs.head? = some (s.cell.refs.getD s.refPos default) := by
  obtain ⟨⟨-, -, h₁, h₂⟩, -⟩ := hs
  unfold remainingRefs at h
  have hlt : s.refPos < s.cell.refs.length := by omega
  rw [refs, List.head?_take, if_neg (by unfold remainingRefs; omega), List.head?_drop, List.getD_eq_getElem?_getD,
    List.getElem?_eq_getElem hlt]
  rfl

/-- A reference by its position among those left. -/
theorem reference_eq (hs : s.Sound) (i : Nat) :
    s.reference i = match s.refs[i]? with
      | some c => .ok c
      | none => .error (.short s.bitPos (i + 1) .refs) := by
  have hv := hs.valid.2.2
  by_cases h : i < s.remainingRefs
  · have hroom : ¬((i : Int) < 0 ∨ (s.refEnd : Int) ≤ s.refPos + i) := by
      unfold remainingRefs at h
      omega
    have hlt : s.refPos + i < s.cell.refs.length := by
      unfold remainingRefs at h
      omega
    rw [reference, requireRef, if_neg hroom, refs, List.getElem?_take_of_lt h, List.getElem?_drop,
      List.getElem?_eq_getElem hlt]
    simp only [Except.map, Int.toNat_natCast, List.getD_eq_getElem?_getD, List.getElem?_eq_getElem hlt,
      Option.getD_some]
  · have hshort : (i : Int) < 0 ∨ (s.refEnd : Int) ≤ s.refPos + i := by
      unfold remainingRefs at h
      omega
    rw [reference, requireRef, if_pos hshort, List.getElem?_eq_none (by rw [hs.length_refs]; omega)]
    rfl

/-- The first bits of a slice as a slice of their own. -/
def front (s : Slice) (width : Nat) : Slice := ⟨s.cell, s.bitPos, s.bitPos + width, s.refPos, s.refPos⟩

@[simp] theorem remainingBits_front (s : Slice) (n : Nat) : (s.front n).remainingBits = n := by
  simp [front, remainingBits]

@[simp] theorem refs_front (s : Slice) (n : Nat) : (s.front n).refs = [] := by
  simp [front, refs, remainingRefs]

theorem Sound.front (hs : s.Sound) {n : Nat} (h : n ≤ s.remainingBits) : (s.front n).Sound := by
  obtain ⟨⟨h₁, h₂, h₃, h₄⟩, hc⟩ := hs
  unfold remainingBits at h
  refine ⟨?_, hc⟩
  simp only [Valid, Slice.front]
  omega

theorem bits_front {n : Nat} (h : n ≤ s.remainingBits) : (s.front n).bits = s.bits.take n := by
  rw [bits, bits, remainingBits_front, List.take_take, Nat.min_eq_left h]
  rfl

end Reading

/-! ## Completion tags -/

theorem two_pow_trailingZeros_dvd (n : Nat) : 2 ^ trailingZeros n ∣ n := by
  fun_induction trailingZeros n with
  | case1 n h => simp
  | case2 n h ih =>
    have heven : n / 2 * 2 = n := by omega
    have hdvd := Nat.mul_dvd_mul_right ih 2
    rwa [heven, ← pow_succ] at hdvd

/-- A number other than zero has fewer zeros at its end than bits. -/
theorem trailingZeros_lt {n width : Nat} (h₀ : n ≠ 0) (h : n < 2 ^ width) : trailingZeros n < width := by
  have hle := Nat.le_of_dvd (Nat.pos_of_ne_zero h₀) (two_pow_trailingZeros_dvd n)
  exact (Nat.pow_lt_pow_iff_right (by omega)).mp (Nat.lt_of_le_of_lt hle h)

/-- The zeros below an odd number are those that were put there. -/
theorem trailingZeros_odd_mul (m j : Nat) : trailingZeros ((2 * m + 1) * 2 ^ j) = j := by
  induction j with
  | zero =>
    rw [trailingZeros, if_pos (by omega)]
  | succ j ih =>
    have hhalf : (2 * m + 1) * 2 ^ (j + 1) = 2 * ((2 * m + 1) * 2 ^ j) := by ring
    have hpos : 0 < (2 * m + 1) * 2 ^ j := Nat.mul_pos (by omega) (Nat.two_pow_pos j)
    rw [trailingZeros, hhalf, if_neg (by omega), Nat.mul_div_cancel_left _ (by omega), ih]

/-- How many bits come before the last one bit. -/
def untagged (bits : List Bool) : Nat :=
  if natOfBits bits = 0 then 0 else bits.length - (trailingZeros (natOfBits bits) + 1)

theorem untagged_le (bits : List Bool) : untagged bits ≤ bits.length := by
  unfold untagged
  split <;> omega

/-- Without its completion tag a slice is the front of itself. -/
theorem trimMarker_eq {s : Slice} (hs : s.Sound) : s.trimMarker = s.front (untagged s.bits) := by
  have hv := value_eq hs
  have hlen := hs.length_bits
  simp only [trimMarker, front, untagged, hv]
  split
  · rfl
  · rename_i h₀
    have hlt := trailingZeros_lt h₀ (natOfBits_lt s.bits)
    have hpos := hs.valid.1
    rw [hlen] at hlt ⊢
    unfold remainingBits at hlt ⊢
    congr 1
    omega

/-! ## What is left later -/

/-- The second slice is the first less some bits and references at its front. -/
def Advance (s t : Slice) : Prop :=
  ∃ a b, a ≤ s.remainingBits ∧ b ≤ s.remainingRefs ∧ t = (s.dropBits a).dropRefs b

namespace Advance

variable {s t u : Slice}

theorem refl (s : Slice) : Advance s s := ⟨0, 0, Nat.zero_le _, Nat.zero_le _, rfl⟩

theorem trans (h : Advance s t) (h' : Advance t u) : Advance s u := by
  obtain ⟨a, b, ha, hb, rfl⟩ := h
  obtain ⟨a', b', ha', hb', rfl⟩ := h'
  simp only [remainingBits_dropRefs, remainingBits_dropBits, remainingRefs_dropRefs,
    remainingRefs_dropBits] at ha' hb'
  refine ⟨a + a', b + b', by omega, by omega, ?_⟩
  simp only [dropBits, dropRefs, Nat.add_assoc]

theorem dropBits {n : Nat} (h : n ≤ s.remainingBits) : Advance s (s.dropBits n) :=
  ⟨n, 0, h, Nat.zero_le _, rfl⟩

theorem dropRefs {n : Nat} (h : n ≤ s.remainingRefs) : Advance s (s.dropRefs n) :=
  ⟨0, n, Nat.zero_le _, h, rfl⟩

theorem bitPos_le (h : Advance s t) : s.bitPos ≤ t.bitPos := by
  obtain ⟨a, b, -, -, rfl⟩ := h
  exact Nat.le_add_right _ _

theorem refPos_le (h : Advance s t) : s.refPos ≤ t.refPos := by
  obtain ⟨a, b, -, -, rfl⟩ := h
  exact Nat.le_add_right _ _

theorem cell_eq (h : Advance s t) : t.cell = s.cell := by
  obtain ⟨a, b, -, -, rfl⟩ := h
  rfl

theorem bitEnd_eq (h : Advance s t) : t.bitEnd = s.bitEnd := by
  obtain ⟨a, b, -, -, rfl⟩ := h
  rfl

theorem refEnd_eq (h : Advance s t) : t.refEnd = s.refEnd := by
  obtain ⟨a, b, -, -, rfl⟩ := h
  rfl

theorem sound (h : Advance s t) (hs : s.Sound) : t.Sound := by
  obtain ⟨a, b, ha, hb, rfl⟩ := h
  exact (hs.dropBits ha).dropRefs hb

theorem bitPos_le_bitEnd (h : Advance s t) (hs : s.Sound) : t.bitPos ≤ s.bitEnd :=
  h.bitEnd_eq ▸ (h.sound hs).valid.1

theorem refPos_le_refEnd (h : Advance s t) (hs : s.Sound) : t.refPos ≤ s.refEnd :=
  h.refEnd_eq ▸ (h.sound hs).valid.2.2.1

end Advance

/-! ## Other ends -/

/-- The slice with other ends. -/
def withEnds (s : Slice) (bitEnd refEnd : Nat) : Slice := { s with bitEnd := bitEnd, refEnd := refEnd }

@[simp] theorem withEnds_self (s : Slice) : s.withEnds s.bitEnd s.refEnd = s := rfl

@[simp] theorem withEnds_withEnds (s : Slice) (e r e' r' : Nat) : (s.withEnds e r).withEnds e' r' = s.withEnds e' r' :=
  rfl

@[simp] theorem dropBits_withEnds (s : Slice) (n e r : Nat) :
    (s.withEnds e r).dropBits n = (s.dropBits n).withEnds e r := rfl

@[simp] theorem dropRefs_withEnds (s : Slice) (n e r : Nat) :
    (s.withEnds e r).dropRefs n = (s.dropRefs n).withEnds e r := rfl

@[simp] theorem front_withEnds (s : Slice) (n e r : Nat) : (s.withEnds e r).front n = s.front n := rfl

/-! ## Twins -/

/-- Two sound slices show the same bits and like references; the first lies `shift` bits further in its cell. -/
structure Twin (shift : Nat) (s t : Slice) : Prop where
  left : s.Sound
  right : t.Sound
  bits : s.bits = t.bits
  refs : List.Forall₂ Cell.BitEq s.refs t.refs
  pos : s.bitPos = t.bitPos + shift

namespace Twin

variable {shift : Nat} {s t : Slice}

theorem of_eq (hs : s.Sound) (ht : t.Sound) (hbits : s.bits = t.bits) (hrefs : s.refs = t.refs)
    (hpos : s.bitPos = t.bitPos + shift) : Twin shift s t :=
  ⟨hs, ht, hbits, hrefs ▸ List.forall₂_same.mpr fun c _ => Cell.BitEq.refl c, hpos⟩

theorem refl (hs : s.Sound) : Twin 0 s s := of_eq hs hs rfl rfl rfl

/-- Like cells are twins as a whole. -/
theorem ofCell {c d : Cell} (hc : c.WellFormed) (hd : d.WellFormed) (h : Cell.BitEq c d) :
    Twin 0 (ofCell c) (ofCell d) := by
  refine ⟨sound_ofCell hc, sound_ofCell hd, ?_, ?_, rfl⟩
  · rw [bits_ofCell hc, bits_ofCell hd, h.bits_eq]
  · rw [refs_ofCell, refs_ofCell]
    exact h.refs_alike

theorem remainingBits_eq (h : Twin shift s t) : s.remainingBits = t.remainingBits := by
  rw [← h.left.length_bits, ← h.right.length_bits, h.bits]

theorem remainingRefs_eq (h : Twin shift s t) : s.remainingRefs = t.remainingRefs := by
  rw [← h.left.length_refs, ← h.right.length_refs, h.refs.length_eq]

theorem bitsAt_eq (h : Twin shift s t) {n : Nat} (hn : n ≤ s.remainingBits) :
    s.cell.bitsAt s.bitPos n = t.cell.bitsAt t.bitPos n := by
  rw [Slice.bitsAt_eq h.left hn, Slice.bitsAt_eq h.right (h.remainingBits_eq ▸ hn), h.bits]

theorem toHex_eq (h : Twin shift s t) : s.toHex = t.toHex := by
  rw [Slice.toHex_eq h.left, Slice.toHex_eq h.right, h.bits]

theorem dropBits (h : Twin shift s t) {n : Nat} (hn : n ≤ s.remainingBits) :
    Twin shift (s.dropBits n) (t.dropBits n) := by
  refine ⟨h.left.dropBits hn, h.right.dropBits (h.remainingBits_eq ▸ hn), ?_, h.refs, ?_⟩
  · rw [bits_dropBits, bits_dropBits, h.bits]
  · have := h.pos
    simp only [Slice.dropBits]
    omega

theorem dropRefs (h : Twin shift s t) {n : Nat} (hn : n ≤ s.remainingRefs) :
    Twin shift (s.dropRefs n) (t.dropRefs n) := by
  refine ⟨h.left.dropRefs hn, h.right.dropRefs (h.remainingRefs_eq ▸ hn), h.bits, ?_, h.pos⟩
  rw [refs_dropRefs, refs_dropRefs]
  exact List.forall₂_drop n h.refs

theorem front (h : Twin shift s t) {n : Nat} (hn : n ≤ s.remainingBits) : Twin shift (s.front n) (t.front n) := by
  have hn' : n ≤ t.remainingBits := h.remainingBits_eq ▸ hn
  refine ⟨h.left.front hn, h.right.front hn', ?_, ?_, h.pos⟩
  · rw [bits_front hn, bits_front hn', h.bits]
  · simp

/-- Twins are twins without their completion tags. -/
theorem trimMarker (h : Twin shift s t) : Twin shift s.trimMarker t.trimMarker := by
  rw [trimMarker_eq h.left, trimMarker_eq h.right, ← h.bits]
  exact h.front (h.left.length_bits ▸ untagged_le s.bits)

/-- The next references of twins are like. -/
theorem next (h : Twin shift s t) (hn : 0 < s.remainingRefs) :
    Cell.BitEq (s.cell.refs.getD s.refPos default) (t.cell.refs.getD t.refPos default) := by
  have hs := getD_refs_eq h.left hn
  have ht := getD_refs_eq h.right (h.remainingRefs_eq ▸ hn)
  have hrel := h.refs
  cases hls : s.refs with
  | nil => rw [hls] at hs; cases hs
  | cons c cs =>
    cases hlt : t.refs with
    | nil => rw [hlt] at ht; cases ht
    | cons d ds =>
      rw [hls, List.head?_cons, Option.some.injEq] at hs
      rw [hlt, List.head?_cons, Option.some.injEq] at ht
      rw [hls, hlt] at hrel
      cases hrel with
      | cons hcd _ => rw [← hs, ← ht]; exact hcd

end Twin

/-! ## Windows as cells -/

/-- A cell that holds what a window shows. -/
def toCell (s : Slice) : Cell := .ofBits s.bits s.refs

theorem Sound.wellFormed_toCell {s : Slice} (hs : s.Sound) : s.toCell.WellFormed := by
  have hv := hs.valid
  have hbits := hs.cell.bitLen_le
  have hrefs := hs.cell.refs_le
  unfold Valid at hv
  refine Cell.wellFormed_ofBits ?_ ?_ fun d hd => hs.cell.of_mem_refs (mem_refs_of_mem hd)
  · rw [hs.length_bits, remainingBits]
    omega
  · rw [hs.length_refs, remainingRefs]
    omega

/-- A window at the start of its cell is a twin of a cell of what it shows. -/
theorem Sound.twin_toCell {s : Slice} (hs : s.Sound) (hpos : s.bitPos = 0) : Twin 0 (ofCell s.toCell) s := by
  refine .of_eq (sound_ofCell hs.wellFormed_toCell) hs ?_ ?_ hpos.symm
  · rw [bits_ofCell hs.wellFormed_toCell, toCell, Cell.bits_ofBits]
  · rw [refs_ofCell, toCell, Cell.refs_ofBits]

end TvmCode.Slice
