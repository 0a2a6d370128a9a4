import TvmCode.Proofs.Listing.Digits
import TvmCode.Proofs.Listing.Limits
import TvmCode.Proofs.Listing.WholeBytes

/-!
# Truncated instructions

No instruction is the front of another one. When a window is cut within the instruction that it starts with, the
look-up finds the same instruction or none (`Slot.find?_withEnds`), and the instruction fails for want of what was cut
off (`Decoder.Orderly.short`): of bits if bits are missing (`step_of_missing_bits`), and of references if references
are (`step_of_missing_refs`). So nothing else is ever listed in its place (`region_of_missing_bits`,
`region_of_missing_refs`, `disassemble_truncated`).
-/

namespace TvmCode

variable {s : Slice} {nested : Nested} {text : String} {c : Cursor}

/-! ## Cut windows -/

theorem Slice.Sound.cut (hs : s.Sound) {n : Nat} (hn : n ≤ s.remainingBits) :
    (s.withEnds (s.bitPos + n) s.refEnd).Sound := by
  have hvalid := hs.valid
  refine ⟨?_, hs.cell⟩
  unfold remainingBits at hn
  simp only [Valid, withEnds] at hvalid ⊢
  omega

theorem Slice.bits_cut {n : Nat} (hn : n ≤ s.remainingBits) (refEnd : Nat) :
    (s.withEnds (s.bitPos + n) refEnd).bits = s.bits.take n := by
  have hcut : (s.withEnds (s.bitPos + n) refEnd).bits = (s.front n).bits := by
    simp only [bits, remainingBits, withEnds, front]
  rw [hcut, bits_front hn]

/-! ## The first instruction -/

/-- An instruction that is listed is listed with more levels too, and takes the same. -/
theorem step_deeper {find? : Dispatcher} {limit indent levels levels' : Nat} (h : levels ≤ levels')
    (hstep : step find? (bodies find? limit indent levels) s = .line text c) :
    ∃ text' c', step find? (bodies find? limit indent levels') s = .line text' c' ∧ c'.slice = c.slice := by
  have hpair : (step find? (bodies find? limit indent levels) s).Paired .limits
      (step find? (bodies find? limit indent levels') s) := step_paired limits_kept (bodies_limits h) s
  rw [hstep] at hpair
  generalize step find? (bodies find? limit indent levels') s = st at hpair
  cases hpair with
  | line _ hslice => exact ⟨_, _, rfl, hslice.symm⟩

/-- The width that code page zero asks for in vain has few enough digits for the wording. -/
theorem short_of_find? (hb : nested.Writes) {i : Instr} (hfind : CodePage.zero.find? s = some i) {a k : Cursor}
    {offset : Nat} {width : Int} {kind : Supply} (h : i.decode nested a = .error (.short offset width kind) k) :
    Fault.short offset width kind = .underflow offset width kind :=
  Fault.short_of_ne fun hdigits =>
    (Instr.writes_decode hb (CodePage.modest_zero s i hfind)).fault a k (h.trans (by rw [hdigits]))

/-- With bits missing, an instruction is not found or fails for want of bits. -/
theorem step_of_missing_bits (hb : nested.Writes) (hstep : step CodePage.zero.find? nested s = .line text c)
    (hs : s.Sound) {n : Nat} (hn : s.bitPos + n < c.slice.bitPos) :
    step CodePage.zero.find? nested (s.withEnds (s.bitPos + n) s.refEnd) = .unknown ∨
      ∃ offset width k, step CodePage.zero.find? nested (s.withEnds (s.bitPos + n) s.refEnd) =
        .failed (.underflow offset width .bits) k := by
  obtain ⟨i, hfind, hdec, -⟩ := step_eq_line_iff.mp hstep
  have hadv : s.Advance c.slice := advance_of_step hstep
  have hend : s.bitPos + n ≤ s.bitEnd := hn.le.trans (hadv.bitPos_le_bitEnd hs)
  rcases Slot.find?_withEnds (.table CodePage.zero) hend s.refEnd with hnone | hsame
  · exact Or.inl (step_of_find?_none hnone)
  · have hbeyond : c.slice.Beyond (s.bitPos + n) s.refEnd .bits := hn
    obtain ⟨offset, width, lacking, k, hfail, hout⟩ :=
      (i.orderly_decode nested).short hdec (Nat.le_add_right s.bitPos n) hs.valid.2.2.1 hbeyond
    have hfound := hsame.trans hfind
    rw [short_of_find? hb hfound hfail] at hfail
    cases lacking with
    | bits => exact Or.inr ⟨offset, width, k, step_of_decode_error hfound hfail⟩
    | refs => exact absurd hout (Nat.not_lt.mpr (hadv.refPos_le_refEnd hs))

/-- With references missing, an instruction fails for want of references. -/
theorem step_of_missing_refs (hb : nested.Writes) (hstep : step CodePage.zero.find? nested s = .line text c)
    (hs : s.Sound) {n : Nat} (hn : s.refPos + n < c.slice.refPos) :
    ∃ offset width k, step CodePage.zero.find? nested (s.withEnds s.bitEnd (s.refPos + n)) =
      .failed (.underflow offset width .refs) k := by
  obtain ⟨i, hfind, hdec, -⟩ := step_eq_line_iff.mp hstep
  obtain ⟨-, hroom, -, hagain⟩ := CodePage.fits_reach hs hfind
  have hadv : s.Advance c.slice := advance_of_step hstep
  have hbeyond : c.slice.Beyond s.bitEnd (s.refPos + n) .refs := hn
  obtain ⟨offset, width, lacking, k, hfail, hout⟩ :=
    (i.orderly_decode nested).short hdec hs.valid.1 (Nat.le_add_right s.refPos n) hbeyond
  have hfound : CodePage.zero.find? (s.withEnds s.bitEnd (s.refPos + n)) = some i := by
    have hstart := hs.valid.1
    unfold Slice.remainingBits at hroom
    exact hagain _ _ (by omega)
  rw [short_of_find? hb hfound hfail] at hfail
  cases lacking with
  | bits => exact absurd hout (Nat.not_lt.mpr (hadv.bitPos_le_bitEnd hs))
  | refs => exact ⟨offset, width, k, step_of_decode_error hfound hfail⟩

/-! ## Listings -/

/-- A listing of one line, which shows these bits behind a marker. -/
structure Region.ShowsOnly (r : Region) (bits : List Bool) : Prop where
  text : r.text = marker ++ hexOfBits (natOfBits bits) bits.length ++ "\n"
  ending : r.ending = .marked

/-- A listing that fails before its first line for want of bits or references. -/
structure Region.RunsOut (r : Region) (kind : Supply) : Prop where
  text : r.text = ""
  ending : ∃ offset width, r.ending = .failed (.underflow offset width kind)

section Regions

variable {find? : Dispatcher}

theorem region_showsOnly (hs : s.Sound) (hbits : s.remainingBits ≠ 0) (hstep : step find? nested s = .unknown)
    (continuing : Bool) : (region find? nested s continuing).ShowsOnly s.bits := by
  have hstraight := straight_unknown hbits hstep
  rw [region_of_not_complete (by simp [hstraight, markedRegion]), hstraight]
  refine ⟨?_, rfl⟩
  rw [markedRegion, Slice.toHex_eq hs]

theorem region_runsOut (hbits : s.remainingBits ≠ 0) {offset : Nat} {width : Int} {kind : Supply} {k : Cursor}
    (hstep : step find? nested s = .failed (.underflow offset width kind) k) (continuing : Bool) :
    (region find? nested s continuing).RunsOut kind := by
  have hstraight := straight_failed hbits hstep
  rw [region_of_not_complete (by simp [hstraight]), hstraight]
  exact ⟨rfl, offset, width, rfl⟩

end Regions

/-- With bits missing, a window shows those that are left of its first instruction, or nothing for want of bits. -/
theorem region_of_missing_bits (hb : nested.Writes) (hstep : step CodePage.zero.find? nested s = .line text c)
    (hs : s.Sound) {n : Nat} (hpos : 0 < n) (hn : s.bitPos + n < c.slice.bitPos) (continuing : Bool) :
    (region CodePage.zero.find? nested (s.withEnds (s.bitPos + n) s.refEnd) continuing).ShowsOnly (s.bits.take n) ∨
      (region CodePage.zero.find? nested (s.withEnds (s.bitPos + n) s.refEnd) continuing).RunsOut .bits := by
  have hend := (advance_of_step hstep).bitPos_le_bitEnd hs
  have hroom : n ≤ s.remainingBits := by
    unfold Slice.remainingBits
    omega
  have hbits : (s.withEnds (s.bitPos + n) s.refEnd).remainingBits ≠ 0 := by
    simp only [Slice.remainingBits, Slice.withEnds]
    omega
  rcases step_of_missing_bits hb hstep hs hn with hunknown | ⟨offset, width, k, hfailed⟩
  · rw [← Slice.bits_cut hroom s.refEnd]
    exact Or.inl (region_showsOnly (hs.cut hroom) hbits hunknown continuing)
  · exact Or.inr (region_runsOut hbits hfailed continuing)

/-- With references missing, a window shows nothing for want of references. -/
theorem region_of_missing_refs (hb : nested.Writes) (hstep : step CodePage.zero.find? nested s = .line text c)
    (hs : s.Sound) {n : Nat} (hn : s.refPos + n < c.slice.refPos) (continuing : Bool) :
    (region CodePage.zero.find? nested (s.withEnds s.bitEnd (s.refPos + n)) continuing).RunsOut .refs := by
  have hend := (advance_of_step hstep).bitPos_le_bitEnd hs
  obtain ⟨m, hm, hpos⟩ := bytes_of_step CodePage.faithful_zero hs hstep
  have hbits : (s.withEnds s.bitEnd (s.refPos + n)).remainingBits ≠ 0 := by
    simp only [Slice.remainingBits, Slice.withEnds]
    omega
  obtain ⟨offset, width, k, hfailed⟩ := step_of_missing_refs hb hstep hs hn
  exact region_runsOut hbits hfailed continuing

/-- **A truncated instruction is never listed as another one.** Let the instruction at the front of a window be shown,
wherever in a listing this is. With only the first bits of it left, the listing of the window is these bits behind a
marker, or nothing for want of bits; with only the first references of it left, it is nothing for want of references. -/
theorem disassemble_truncated (hs : s.Sound) {config : Config} {depth : Nat} {i : Instr}
    (hfind : CodePage.zero.find? s = some i)
    (hdec : i.decode (bodies CodePage.zero.find? config.maxDepth config.indent (config.maxDepth - depth)) ⟨s, []⟩ =
      .ok (some text) c) (continuing : Bool) :
    (∀ j, 0 < j → s.bitPos + j < c.slice.bitPos →
      let r := disassemble CodePage.zero config (s.withEnds (s.bitPos + j) s.refEnd) continuing
      r.ShowsOnly (s.bits.take j) ∨ r.RunsOut .bits) ∧
    ∀ q, s.refPos + q < c.slice.refPos →
      (disassemble CodePage.zero config (s.withEnds s.bitEnd (s.refPos + q)) continuing).RunsOut .refs := by
  have hshown := step_of_decode CodePage.faithful_zero hs hfind hdec
  -- the windows are listed from the first level on, where there are at least as many levels left
  obtain ⟨text', c', hstep, hslice⟩ := step_deeper (Nat.sub_le config.maxDepth depth) hshown
  have hb := bodies_writes CodePage.modest_zero config.maxDepth config.indent config.maxDepth
  rw [← hslice]
  simp only [disassemble, listing_eq]
  constructor
  · intro j hj hcut
    exact region_of_missing_bits hb hstep hs hj hcut continuing
  · intro q hcut
    exact region_of_missing_refs hb hstep hs hcut continuing

/-- An instruction of three bytes that takes a reference. -/
def constantDictionary : Slice := .ofCell ⟨[0xf4, 0xa4, 0x08], 24, [⟨[], 0, [], false⟩], false⟩

/-- The instruction is shown one level below the first, and cut within its last byte or without its reference. -/
theorem truncated_constantDictionary :
    let i : Instr := CodePage.constantDictionary "DICTPUSHCONST" 0x3d29
    let c : Cursor := ⟨(constantDictionary.dropBits 24).dropRefs 1, []⟩
    let config : Config := ⟨4, 2, by decide⟩
    let fewBits : Region := disassemble CodePage.zero config (constantDictionary.withEnds (0 + 23) 1) true
    let noRefs : Region := disassemble CodePage.zero config (constantDictionary.withEnds 24 (0 + 0)) true
    constantDictionary.Sound ∧ CodePage.zero.find? constantDictionary = some i ∧
      i.decode (bodies CodePage.zero.find? config.maxDepth config.indent (config.maxDepth - 1))
        ⟨constantDictionary, []⟩ = .ok (some "DICTPUSHCONST 8") c ∧
      (fewBits.ShowsOnly (constantDictionary.bits.take 23) ∨ fewBits.RunsOut .bits) ∧ noRefs.RunsOut .refs := by
  intro i c config fewBits noRefs
  have hempty : Cell.WellFormed ⟨[], 0, [], false⟩ := .intro (by decide) (by decide) (by decide) (by simp)
  have hs : constantDictionary.Sound :=
    Slice.sound_ofCell (.intro (by decide) (by decide) (by decide) (by simpa using hempty))
  have hfind : CodePage.zero.find? constantDictionary = some i := by
    have hgroup := List.mem_of_getElem?
      (show CodePage.zeroRecords[136]? = some (.group 0xf4 CodePage.dictionaries) from rfl)
    have hspan : .span 0xa4 0xa8 i ∈ CodePage.dictionaries := List.mem_append_right _ List.mem_cons_self
    refine CodePage.find?_eq_some_iff.mpr ⟨[0xf4, 0xa4], .group hgroup (.span hspan (by decide) (by decide)), ?_⟩
    exact ⟨by decide, by decide, by decide, by decide, trivial⟩
  have hdec : i.decode (bodies CodePage.zero.find? config.maxDepth config.indent (config.maxDepth - 1))
      ⟨constantDictionary, []⟩ = .ok (some "DICTPUSHCONST 8") c := rfl
  obtain ⟨hbits, hrefs⟩ := disassemble_truncated hs hfind hdec true
  exact ⟨hs, hfind, hdec, hbits 23 (by decide) (by decide), hrefs 0 (by decide)⟩

end TvmCode
