import TvmCode.Proofs.Listing.Twins

/-!
# Instructions take whole bytes

Every instruction of code page zero takes whole bytes of its window, at least those that it was found by, and changes
nothing but how far the window was read (`Slice.Granular`). From one instruction (`bytes_of_step`) this goes on to runs:
a run has at most one line for each byte it takes (`Steps.bytes`), and the bits that a window has besides whole bytes
are still there at its end (`Steps.remainingBits_mod`). So a window that is no whole number of bytes is never listed in
full (`region_ragged`).
-/

namespace TvmCode

variable {find? : Dispatcher} {nested : Nested} {s t : Slice} {text : String} {lines : List String}

/-! ## Runs -/

/-- An instruction that is found and shown takes bits, so it is listed. -/
theorem step_of_decode (hf : find?.Faithful) (hs : s.Sound) {i : Instr} {c : Cursor} (hfind : find? s = some i)
    (hdec : i.decode nested ⟨s, []⟩ = .ok (some text) c) : step find? nested s = .line text c := by
  obtain ⟨bits, hpos, hroom, hfits, -⟩ := hf.fits hs hfind
  obtain ⟨m, hm, hle⟩ := Instr.bitPos_of_decode hs hroom hfits hdec
  have hadv : s.Advance c.slice := (i.orderly_decode nested).advance hdec
  exact step_eq_line_iff.mpr ⟨i, hfind, hdec, hadv.size_lt (by omega)⟩

/-- An instruction takes whole bytes. -/
theorem bytes_of_step (hf : find?.Faithful) (hs : s.Sound) {c : Cursor} (h : step find? nested s = .line text c) :
    ∃ m ≥ 1, c.slice.bitPos = s.bitPos + 8 * m := by
  obtain ⟨i, hfind, hdec, -⟩ := step_eq_line_iff.mp h
  obtain ⟨bits, hpos, hroom, hfits, -⟩ := hf.fits hs hfind
  obtain ⟨m, hm, hle⟩ := Instr.bitPos_of_decode hs hroom hfits hdec
  exact ⟨m, by omega, hm⟩

/-- A run takes whole bytes, and one at least for each line. -/
theorem Steps.bytes (hf : find?.Faithful) (hs : s.Sound) (h : Steps find? nested s lines t) :
    ∃ m ≥ lines.length, t.bitPos = s.bitPos + 8 * m := by
  induction h with
  | done s => exact ⟨0, le_rfl, rfl⟩
  | more _ hstep _ ih =>
    obtain ⟨m, hm, hfirst⟩ := bytes_of_step hf hs hstep
    obtain ⟨n, hn, hrest⟩ := ih ((advance_of_step hstep).sound hs)
    refine ⟨m + n, ?_, by omega⟩
    rw [List.length_cons]
    omega

/-- A run has at most as many lines as its window has bytes. -/
theorem Steps.length_le (hf : find?.Faithful) (hs : s.Sound) (h : Steps find? nested s lines t) :
    lines.length ≤ s.remainingBits / 8 := by
  obtain ⟨m, hm, hpos⟩ := h.bytes hf hs
  have hend := h.advance.bitPos_le_bitEnd hs
  unfold Slice.remainingBits
  omega

/-- What a window has besides whole bytes is left by every run. -/
theorem Steps.remainingBits_mod (hf : find?.Faithful) (hs : s.Sound) (h : Steps find? nested s lines t) :
    t.remainingBits % 8 = s.remainingBits % 8 := by
  obtain ⟨m, -, hpos⟩ := h.bytes hf hs
  have hend := h.advance.bitPos_le_bitEnd hs
  unfold Slice.remainingBits
  rw [h.advance.bitEnd_eq]
  omega

/-- A listing that is not complete: its last line shows bits that are no instruction, or it was stopped. -/
inductive Region.Partial (r : Region) : Prop
  | marked (before : String) (t : Slice) (text : r.text = before ++ (marker ++ t.toHex ++ "\n"))
      (ending : r.ending = .marked)
  | failed (f : Fault) (ending : r.ending = .failed f)

/-- A window that is no whole number of bytes is not listed in full. -/
theorem region_ragged (hf : find?.Faithful) (hs : s.Sound) (hbits : s.remainingBits % 8 ≠ 0) (continuing : Bool) :
    (region find? nested s continuing).Partial := by
  obtain ⟨lines, t, hsteps, hhalts⟩ := straight_halts find? nested s
  have hleft := hsteps.remainingBits_mod hf hs
  cases hhalts with
  | complete hnone _ _ _ =>
    rw [hnone] at hleft
    omega
  | marked _ _ htext hend =>
    rw [region_of_not_complete (by simp [hend])]
    exact .marked _ t htext hend
  | @failed f c _ _ _ _ hend =>
    rw [region_of_not_complete (by simp [hend])]
    exact .failed f hend

/-! ## Code page zero -/

/-- How code page zero lists a window: by whole bytes, and onwards. -/
structure Slice.Granular (s : Slice) : Prop where
  /-- An instruction that is shown takes whole bytes, among them all those that it was found by, and maybe references.
  The rest of the window is as it was. -/
  shown {i : Instr} {nested : Nested} {notes : List Note} {text : String} {c : Cursor}
    (hfind : CodePage.zero.find? s = some i) (hdec : i.decode nested ⟨s, notes⟩ = .ok (some text) c) :
    (∃ m ≥ CodePage.zero.reach s, c.slice.bitPos = s.bitPos + 8 * m) ∧ 0 < CodePage.zero.reach s ∧
      s.refPos ≤ c.slice.refPos ∧ c.slice.cell = s.cell ∧ c.slice.bitEnd = s.bitEnd ∧ c.slice.refEnd = s.refEnd
  /-- Operands without a meaning are met before a reference is taken. -/
  meaningless {i : Instr} {nested : Nested} {notes : List Note} {c : Cursor} (hfind : CodePage.zero.find? s = some i)
    (hdec : i.decode nested ⟨s, notes⟩ = .ok none c) : c.slice.refPos = s.refPos
  /-- An instruction that is shown is listed, and the listing goes on behind it. -/
  progress {i : Instr} {nested : Nested} {text : String} {c : Cursor} (hfind : CodePage.zero.find? s = some i)
    (hdec : i.decode nested ⟨s, []⟩ = .ok (some text) c) : step CodePage.zero.find? nested s = .line text c
  /-- The run over the window comes to an end, after at most one line for each byte. -/
  ends (nested : Nested) : ∃ lines t, Steps CodePage.zero.find? nested s lines t ∧
    (straight CodePage.zero.find? nested s).Halts CodePage.zero.find? nested lines t ∧
    lines.length ≤ s.remainingBits / 8
  /-- A window that is no whole number of bytes ends with a marker or a fault. -/
  ragged (hbits : s.remainingBits % 8 ≠ 0) (limit indent levels : Nat) (continuing : Bool) :
    (listing CodePage.zero.find? limit indent levels s continuing).Partial

/-- **Instructions take whole bytes and make progress**: every window is listed byte by byte up to its end. -/
theorem Slice.Sound.granular (hs : s.Sound) : s.Granular where
  shown {i nested notes text c} hfind hdec := by
    obtain ⟨hpos, hroom, hfits, -⟩ := CodePage.fits_reach hs hfind
    obtain ⟨m, hm, hle⟩ := Instr.bitPos_of_decode hs hroom hfits hdec
    have hadv : s.Advance c.slice := (i.orderly_decode nested).advance hdec
    exact ⟨⟨m, by omega, hm⟩, hpos, hadv.refPos_le, hadv.cell_eq, hadv.bitEnd_eq, hadv.refEnd_eq⟩
  meaningless hfind hdec := by
    obtain ⟨-, hroom, hfits, -⟩ := CodePage.fits_reach hs hfind
    exact Instr.refPos_of_decode hs hroom hfits hdec
  progress hfind hdec := step_of_decode CodePage.faithful_zero hs hfind hdec
  ends nested := by
    obtain ⟨lines, t, hsteps, hhalts⟩ := straight_halts CodePage.zero.find? nested s
    exact ⟨lines, t, hsteps, hhalts, hsteps.length_le CodePage.faithful_zero hs⟩
  ragged hbits limit indent levels continuing := by
    rw [listing_eq]
    exact region_ragged CodePage.faithful_zero hs hbits continuing

/-- An instruction of one byte, and half a byte. -/
def nopAndHalf : Slice := .ofCell ⟨[0x00, 0x80], 12, [], false⟩

/-- The choice of a code page that is not known. -/
def otherPage : Slice := .ofCell ⟨[0xff, 0x01], 16, [], false⟩

theorem granular_of_nopAndHalf :
    let nested : Nested := bodies CodePage.zero.find? 1 2 1
    let nop : Instr := .plain "NOP" 0 8
    (nopAndHalf.Sound ∧ CodePage.zero.find? nopAndHalf = some nop ∧
      nop.decode nested ⟨nopAndHalf, []⟩ = .ok (some "NOP") ⟨nopAndHalf.dropBits 8, []⟩ ∧
      (∃ m ≥ CodePage.zero.reach nopAndHalf, (nopAndHalf.dropBits 8).bitPos = nopAndHalf.bitPos + 8 * m) ∧
      step CodePage.zero.find? nested nopAndHalf = .line "NOP" ⟨nopAndHalf.dropBits 8, []⟩ ∧
      nopAndHalf.remainingBits % 8 ≠ 0 ∧ (listing CodePage.zero.find? 1 2 1 nopAndHalf true).Partial) ∧
    otherPage.Sound ∧ CodePage.zero.find? otherPage = some CodePage.setPage ∧
      CodePage.setPage.decode nested ⟨otherPage, []⟩ = .ok none ⟨otherPage.dropBits 16, []⟩ ∧
      (otherPage.dropBits 16).refPos = otherPage.refPos := by
  intro nested nop
  have hnop : nopAndHalf.Sound := Slice.sound_ofCell (.intro (by decide) (by decide) (by decide) (by simp))
  have hfind : CodePage.zero.find? nopAndHalf = some nop :=
    CodePage.find?_eq_some_iff.mpr
      ⟨[0], .byte (List.mem_of_getElem? (show CodePage.zeroRecords[0]? = _ from rfl)), by decide, by decide, trivial⟩
  have hshown : nop.decode nested ⟨nopAndHalf, []⟩ = .ok (some "NOP") ⟨nopAndHalf.dropBits 8, []⟩ := rfl
  have hpage : otherPage.Sound := Slice.sound_ofCell (.intro (by decide) (by decide) (by decide) (by simp))
  have hset : CodePage.zero.find? otherPage = some CodePage.setPage := by
    have hpages := List.mem_of_getElem? (show CodePage.zeroRecords[142]? = some (.group 0xff CodePage.pages) from rfl)
    have hspan := List.mem_of_getElem? (show CodePage.pages[0]? = some (.span 0x00 0xf0 CodePage.setPage) from rfl)
    refine CodePage.find?_eq_some_iff.mpr ⟨[0xff, 1], .group hpages (.span hspan (by decide) (by decide)), ?_⟩
    exact ⟨by decide, by decide, by decide, by decide, trivial⟩
  have hnone : CodePage.setPage.decode nested ⟨otherPage, []⟩ = .ok none ⟨otherPage.dropBits 16, []⟩ := rfl
  refine ⟨⟨hnop, hfind, hshown, (hnop.granular.shown hfind hshown).1, hnop.granular.progress hfind hshown, by decide,
    hnop.granular.ragged (by decide) 1 2 1 true⟩, hpage, hset, hnone, hpage.granular.meaningless hset hnone⟩

end TvmCode
