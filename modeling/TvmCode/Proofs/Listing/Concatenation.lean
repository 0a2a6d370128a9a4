import TvmCode.Proofs.Listing.Accounting
import TvmCode.Proofs.Listing.Safety

/-!
# Listings of code put together

Code that is listed in full and takes all its references can be put in front of any other code: the listing of both is
the one listing after the other, and where the second fails, so do both together (`disassemble_append`). The run over
the first code does not see the second (`Steps.graft`), and what it leaves is a twin of the second
(`Cell.Joins.twin`).
-/

namespace TvmCode

/-- The bits and references of a cell are those of two cells one after the other. -/
structure Cell.Joins (a b c : Cell) : Prop where
  first : a.WellFormed
  second : b.WellFormed
  both : c.WellFormed
  bits : c.bits = a.bits ++ b.bits
  refs : c.refs = a.refs ++ b.refs

namespace Cell.Joins

variable {a b c : Cell}

theorem bitLen_eq (h : a.Joins b c) : c.bitLen = a.bitLen + b.bitLen := by
  rw [← h.both.length_bits, h.bits, List.length_append, h.first.length_bits, h.second.length_bits]

theorem length_refs (h : a.Joins b c) : c.refs.length = a.refs.length + b.refs.length := by
  rw [h.refs, List.length_append]

/-- The front of the whole is a twin of the first cell. -/
theorem twin_front (h : a.Joins b c) :
    (Slice.ofCell a).Twin 0 ((Slice.ofCell c).withEnds a.bitLen a.refs.length) := by
  have hbitLen := h.bitLen_eq
  have hlength := h.length_refs
  refine .of_eq (Slice.sound_ofCell h.first) ⟨?_, h.both⟩ ?_ ?_ rfl
  · simp only [Slice.Valid, Slice.withEnds, Slice.ofCell]
    omega
  · rw [Slice.bits_ofCell h.first]
    simp [Slice.bits, Slice.withEnds, Slice.ofCell, Slice.remainingBits, h.bits, ← h.first.length_bits]
  · rw [Slice.refs_ofCell]
    simp [Slice.refs, Slice.withEnds, Slice.ofCell, Slice.remainingRefs, h.refs]

/-- What the first cell leaves of the whole is a twin of the second. -/
theorem twin (h : a.Joins b c) :
    Slice.Twin a.bitLen ⟨c, a.bitLen, c.bitLen, a.refs.length, c.refs.length⟩ (Slice.ofCell b) := by
  have hbitLen := h.bitLen_eq
  have hlength := h.length_refs
  refine .of_eq ⟨?_, h.both⟩ (Slice.sound_ofCell h.second) ?_ ?_ ?_
  · simp only [Slice.Valid]
    omega
  · rw [Slice.bits_ofCell h.second]
    simp [Slice.bits, Slice.remainingBits, h.bits, hbitLen, ← h.first.length_bits, ← h.second.length_bits]
  · rw [Slice.refs_ofCell]
    simp [Slice.refs, Slice.remainingRefs, h.refs]
  · simp [Slice.ofCell]

end Cell.Joins

/-! ## Listings -/

/-- The listing of two codes put together, by those of the two: the texts follow each other, and the whole fails where
and as the second does, `shift` bits further on, with a fault that code can cause. -/
structure Region.Appends (shift : Nat) (first later whole : Region) : Prop where
  text : whole.text = first.text ++ later.text
  returns (h : later.failure? = none) : whole.failure? = none
  fails {f : Fault} (h : later.failure? = some f) :
    ∃ f', whole.failure? = some f' ∧ f'.Recoverable ∧ f'.Follows shift f

theorem Ending.Alike.failure? {shift : Nat} {r r' : Region} (h : r.ending.Alike shift r'.ending) :
    (r'.failure? = none → r.failure? = none) ∧
      ∀ f, r'.failure? = some f → ∃ f', r.failure? = some f' ∧ f'.Follows shift f := by
  unfold Region.failure?
  generalize r.ending = e at h
  generalize r'.ending = e' at h
  cases h with
  | complete => simp
  | marked => simp
  | failed hfollows => simpa using hfollows

section Append

variable {find? : Dispatcher} {nested : Nested} {a b c : Cell}

/-- Code that is listed in full and takes all its references, in front of other code. -/
theorem region_append (hf : find?.Faithful) (hn : nested.Alike nested) (hd : find?.Modest) (hb : nested.Writes)
    (h : a.Joins b c) (hspent : (straight find? nested (.ofCell a)).Spent false)
    (hrefs : (straight find? nested (.ofCell a)).rest.remainingRefs = 0) (continuing : Bool) :
    Region.Appends a.bitLen (straight find? nested (.ofCell a)) (region find? nested (.ofCell b) continuing)
      (region find? nested (.ofCell c) continuing) := by
  obtain ⟨lines, hsteps, htext, hbits⟩ := steps_of_complete hspent.ending
  generalize (straight find? nested (.ofCell a)).rest = u at hsteps hbits hrefs
  have hadv := hsteps.advance
  have hs := Slice.sound_ofCell h.first
  -- the run over the first code takes all of it, so it is not cut
  have hcut : (Slice.ofCell a).upTo u = Slice.ofCell a := by
    have hu := (hadv.sound hs).valid
    simp only [Slice.Valid, Slice.remainingBits, Slice.remainingRefs, hadv.bitEnd_eq, hadv.refEnd_eq] at hu hbits hrefs
    have hbit : u.bitPos = (Slice.ofCell a).bitEnd := by omega
    have href : u.refPos = (Slice.ofCell a).refEnd := by omega
    rw [Slice.upTo, hbit, href, Slice.withEnds_self]
  have hrun : Steps find? nested (.ofCell c) lines ⟨c, a.bitLen, c.bitLen, a.refs.length, c.refs.length⟩ := by
    refine hsteps.graft hf hn hs (hcut ▸ h.twin_front) ?_ ?_
    · exact Nat.le.intro h.bitLen_eq.symm
    · exact Nat.le.intro h.length_refs.symm
  have hcont := region_of_steps (Slice.sound_ofCell h.both) hrun continuing
  have htwin := region_twin hf (fun _ _ => rfl) hn h.twin continuing
  have halike := hcont.ending ▸ htwin.ending
  obtain ⟨hreturns, hfails⟩ := halike.failure?
  refine ⟨by rw [hcont.text, htwin.text, htext], hreturns, ?_⟩
  intro f hfail
  obtain ⟨f', hfail', hfollows⟩ := hfails f hfail
  exact ⟨f', hfail', halike.recoverable (region_writes hd hb _ continuing) hfail', hfollows⟩

end Append

/-- **Listings follow each other as the codes do**: code that is listed without a marker and takes all its references,
in front of any other code. -/
theorem disassemble_append {a b c : Cell} (h : a.Joins b c) (config : Config)
    (hreturns : (disassemble CodePage.zero config (.ofCell a) false).failure? = none)
    (hmarkers : markers (disassemble CodePage.zero config (.ofCell a) false).text = [])
    (hrefs : (disassemble CodePage.zero config (.ofCell a) false).rest.remainingRefs = 0) (continuing : Bool) :
    Region.Appends a.bitLen (disassemble CodePage.zero config (.ofCell a) false)
      (disassemble CodePage.zero config (.ofCell b) continuing)
      (disassemble CodePage.zero config (.ofCell c) continuing) := by
  have hf := CodePage.faithful_zero
  have hw := CodePage.worded_zero
  have hn := bodies_alike hf (fun _ _ => rfl) config.maxDepth config.indent config.maxDepth
  have hl := bodies_laid hw config.maxDepth config.indent config.maxDepth
  have hd := CodePage.modest_zero
  have hb := bodies_writes hd config.maxDepth config.indent config.maxDepth
  simp only [disassemble, listing_eq] at hreturns hmarkers hrefs ⊢
  rcases straight_accounts hf hw hn hl (Slice.sound_ofCell h.first) hreturns with hex | ⟨p, hm⟩
  · exact region_append hf hn hd hb h hex.toSpent hrefs continuing
  · have hone := hm.only
    rw [show straight _ _ _ = region _ _ _ false from rfl, hmarkers] at hone
    cases hone

/-- An instruction in front of code that fails. -/
theorem append_nop_and_missing_reference :
    let a : Cell := ⟨[0x00], 8, [], false⟩
    let b : Cell := ⟨[0x88], 8, [], false⟩
    let c : Cell := ⟨[0x00, 0x88], 16, [], false⟩
    a.Joins b c ∧ Region.Appends 8 (disassemble CodePage.zero .default (.ofCell a) false)
      (disassemble CodePage.zero .default (.ofCell b) true) (disassemble CodePage.zero .default (.ofCell c) true) := by
  intro a b c
  have ha : a.WellFormed := .intro (by decide) (by decide) (by decide) (by simp [a])
  have hb : b.WellFormed := .intro (by decide) (by decide) (by decide) (by simp [b])
  have hc : c.WellFormed := .intro (by decide) (by decide) (by decide) (by simp [c])
  have hjoins : a.Joins b c := ⟨ha, hb, hc, by decide, rfl⟩
  have hlist : ∃ notes, disassemble CodePage.zero .default (.ofCell a) false =
      ⟨"NOP\n", (Slice.ofCell a).dropBits 8, notes, .complete⟩ := by
    rw [disassemble, listing_eq, region, if_neg (by simp)]
    rw [straight_more (by decide) (CodePage.step_nop (Slice.sound_ofCell ha) ⟨by decide, by decide, trivial⟩ _),
      straight_done (by decide)]
    exact ⟨_, rfl⟩
  obtain ⟨notes, hlist⟩ := hlist
  refine ⟨hjoins, disassemble_append hjoins .default ?_ ?_ ?_ true⟩
  · rw [hlist]
    rfl
  · rw [hlist]
    show markers "NOP\n" = []
    decide
  · rw [hlist]
    rfl

end TvmCode
