import TvmCode.Proofs.Listing.Twins

/-!
# Listings of cut windows

Decoding looks at no bit and no reference that it does not take, so a run is the same in a window with other ends as
long as these leave room for what is taken (`step_withEnds`, `Steps.withEnds`). A window that is cut where a run has
come to is listed in full (`straight_of_cut`), and what lies behind the cut makes no difference to the run
(`Steps.graft`).
-/

namespace TvmCode

variable {find? : Dispatcher} {nested : Nested} {s t : Slice} {text : String} {lines : List String}

/-! ## Ends -/

/-- An instruction takes bits. -/
theorem bitPos_lt_of_step (hf : find?.Faithful) (hs : s.Sound) {c : Cursor}
    (h : step find? nested s = .line text c) : s.bitPos < c.slice.bitPos := by
  obtain ⟨i, hfind, hdec, -⟩ := step_eq_line_iff.mp h
  obtain ⟨bits, hpos, hroom, hfits, -⟩ := hf.fits hs hfind
  obtain ⟨m, hm, hle⟩ := Instr.bitPos_of_decode hs hroom hfits hdec
  omega

/-- An instruction is decoded in the same way whatever the ends of the window are, if they leave room for it. -/
theorem step_withEnds (hf : find?.Faithful) (hs : s.Sound) {c : Cursor} (h : step find? nested s = .line text c)
    {bitEnd refEnd : Nat} (hbits : c.slice.bitPos ≤ bitEnd) (hrefs : c.slice.refPos ≤ refEnd) :
    step find? nested (s.withEnds bitEnd refEnd) = .line text (c.withEnds bitEnd refEnd) := by
  have hlt := bitPos_lt_of_step hf hs h
  obtain ⟨i, hfind, hdec, -⟩ := step_eq_line_iff.mp h
  obtain ⟨bits, -, hroom, hfits, hagain⟩ := hf.fits hs hfind
  obtain ⟨m, hm, hle⟩ := Instr.bitPos_of_decode hs hroom hfits hdec
  have hdec' := (i.orderly_decode nested).ends hdec hbits hrefs
  refine step_eq_line_iff.mpr ⟨i, hagain bitEnd refEnd (by omega), hdec', ?_⟩
  exact ((i.orderly_decode nested).advance hdec').size_lt hlt

/-- A run is the same whatever the ends of the window are, if they leave room for it. -/
theorem Steps.withEnds (hf : find?.Faithful) (hs : s.Sound) (h : Steps find? nested s lines t) {bitEnd refEnd : Nat}
    (hbits : t.bitPos ≤ bitEnd) (hrefs : t.refPos ≤ refEnd) :
    Steps find? nested (s.withEnds bitEnd refEnd) lines (t.withEnds bitEnd refEnd) := by
  induction h with
  | done s => exact .done _
  | more _ hstep hrest ih =>
    have hlt := bitPos_lt_of_step hf hs hstep
    have hadv := hrest.advance
    have hb := Nat.le_trans hadv.bitPos_le hbits
    have hr := Nat.le_trans hadv.refPos_le hrefs
    refine .more ?_ (step_withEnds hf hs hstep hb hr) (ih ((advance_of_step hstep).sound hs) hbits hrefs)
    simp only [Slice.remainingBits, Slice.withEnds]
    omega

/-! ## Cuts -/

/-- The window cut before another one. -/
def Slice.upTo (s t : Slice) : Slice := s.withEnds t.bitPos t.refPos

theorem Slice.Advance.sound_upTo (h : s.Advance t) (hs : s.Sound) : (s.upTo t).Sound := by
  have ht := (h.sound hs).valid
  have hs' := hs.valid
  have hb := h.bitPos_le
  have hr := h.refPos_le
  unfold Valid at ht hs'
  rw [h.cell_eq, h.bitEnd_eq, h.refEnd_eq] at ht
  refine ⟨?_, hs.cell⟩
  simp only [Valid, upTo, withEnds]
  omega

/-- The bits of a window are those before a cut and those behind it. -/
theorem Slice.Advance.bits_eq (h : s.Advance t) : s.bits = (s.upTo t).bits ++ t.bits := by
  obtain ⟨a, b, ha, hb, rfl⟩ := h
  have hcut : (s.upTo ((s.dropBits a).dropRefs b)).bits = s.bits.take a := by
    rw [bits, bits, List.take_take, Nat.min_eq_left ha]
    simp [upTo, withEnds, remainingBits, Slice.dropBits, Slice.dropRefs]
  rw [hcut, bits_dropRefs, bits_dropBits, List.take_append_drop]

/-- A window that is cut where a run has come to is listed in full. -/
theorem straight_of_cut (hf : find?.Faithful) (hs : s.Sound) (h : Steps find? nested s lines t) :
    (straight find? nested (s.upTo t)).text = linesText lines ∧
      (straight find? nested (s.upTo t)).rest = t.upTo t ∧
      (straight find? nested (s.upTo t)).ending = .complete := by
  have hcut := straight_of_steps (h.withEnds hf hs (Nat.le_refl t.bitPos) (Nat.le_refl t.refPos))
  have hdone : straight find? nested (t.upTo t) = ⟨"", t.upTo t, [], .complete⟩ :=
    straight_done (by simp [Slice.upTo, Slice.withEnds, Slice.remainingBits])
  refine ⟨?_, ?_, ?_⟩
  · rw [Slice.upTo, hcut.text, ← Slice.upTo, hdone, String.append_empty]
  · rw [Slice.upTo, hcut.rest, ← Slice.upTo, hdone]
  · rw [Slice.upTo, hcut.ending, ← Slice.upTo, hdone]

/-- **What lies behind a run makes no difference to it**: the run takes place in every window whose front is a twin of
what it takes. -/
theorem Steps.graft (hf : find?.Faithful) (hn : nested.Alike nested) (hs : s.Sound)
    (h : Steps find? nested s lines t) {shift : Nat} {w : Slice} {bitEnd refEnd : Nat}
    (htwin : (s.upTo t).Twin shift (w.withEnds bitEnd refEnd)) (hbits : bitEnd ≤ w.bitEnd)
    (hrefs : refEnd ≤ w.refEnd) :
    Steps find? nested w lines ⟨w.cell, bitEnd, w.bitEnd, refEnd, w.refEnd⟩ := by
  have hcut := h.withEnds hf hs (Nat.le_refl t.bitPos) (Nat.le_refl t.refPos)
  obtain ⟨v, hv, htv⟩ := hcut.twin hf (fun _ _ => rfl) hn htwin
  have hadv := hv.advance
  -- nothing is left before the cut on either side
  have hbit : v.bitPos = bitEnd := by
    have h₀ := htv.remainingBits_eq
    have hle := htv.right.valid.1
    rw [hadv.bitEnd_eq] at hle
    simp only [Slice.remainingBits, Slice.withEnds, hadv.bitEnd_eq] at h₀ hle
    omega
  have href : v.refPos = refEnd := by
    have h₀ := htv.remainingRefs_eq
    have hle := htv.right.valid.2.2.1
    rw [hadv.refEnd_eq] at hle
    simp only [Slice.remainingRefs, Slice.withEnds, hadv.refEnd_eq] at h₀ hle
    omega
  have hstretched := hv.withEnds hf htwin.right (hbit ▸ hbits) (href ▸ hrefs)
  rw [Slice.withEnds_withEnds, Slice.withEnds_self] at hstretched
  have hcell : v.cell = w.cell := hadv.cell_eq
  simpa only [Slice.withEnds, hcell, hbit, href] using hstretched

end TvmCode
