import TvmCode.Proofs.Listing.Cuts
import TvmCode.Proofs.Listing.Layout

/-!
# Every bit is listed once

A listing that does not fail ends in one of two ways. Either all bits were listed, or the last line shows, behind a
marker, the bits from some instruction on to the end of the last window, and the lines before it are the listing of the
same code with that window cut just before the instruction (`disassemble_accounts`).

The last window may lie some tail references away (`Reaches`); cutting it means to put a shorter cell behind the last
reference of the window before (`Slice.cutTail`). Every listing comes to some end (`region_ends`), and the code before
the end is listed in full when it is cut there (`Reaches.cut`). This rests on two facts: a run does not depend on what
lies behind it (`Steps.graft`), and a window is listed like a cell of what it shows (`chain_twin`).
-/

namespace TvmCode

variable {find? : Dispatcher} {nested : Nested} {s t u : Slice} {lines : List String}

/-! ## Tail references -/

namespace Slice

/-- The cell behind the last reference of a window. -/
def lastRef (s : Slice) : Cell := s.cell.refs.getD (s.refEnd - 1) default

/-- The window with another cell behind its last reference. -/
def withLast (s : Slice) (c : Cell) : Slice :=
  { s with cell := { s.cell with refs := s.cell.refs.set (s.refEnd - 1) c } }

/-- The window in which the one that lies some tail references away is cut before a given place. -/
def cutTail : (hops : Nat) → Slice → Slice → Slice
  | 0, s, p => s.upTo p
  | hops + 1, s, p => s.withLast (cutTail hops (ofCell s.lastRef) p).toCell

@[simp] theorem bitPos_cutTail (hops : Nat) (s p : Slice) : (cutTail hops s p).bitPos = s.bitPos := by
  cases hops <;> rfl

/-- Where one reference is left, it is the last of the window. -/
theorem getElem?_lastRef (hs : s.Sound) (h : s.Advance u) (hrefs : u.remainingRefs = 1) :
    s.refEnd - 1 = u.refPos ∧ s.refEnd - 1 < s.cell.refs.length ∧
      s.cell.refs[s.refEnd - 1]? = some s.lastRef := by
  have hv := (h.sound hs).valid.2.2
  rw [h.cell_eq] at hv
  unfold remainingRefs at hrefs
  rw [h.refEnd_eq] at hv hrefs
  have hlt : s.refEnd - 1 < s.cell.refs.length := by omega
  refine ⟨by omega, hlt, ?_⟩
  rw [lastRef, List.getD_eq_getElem?_getD, List.getElem?_eq_getElem hlt]
  rfl

theorem Sound.lastRef (hs : s.Sound) (h : s.Advance u) (hrefs : u.remainingRefs = 1) : s.lastRef.WellFormed := by
  obtain ⟨-, -, hlast⟩ := getElem?_lastRef hs h hrefs
  exact hs.cell.of_mem_refs (List.mem_of_getElem? hlast)

theorem Sound.withLast (hs : s.Sound) {c : Cell} (hc : c.WellFormed) : (s.withLast c).Sound := by
  obtain ⟨hv, hcell⟩ := hs
  refine ⟨?_, .intro hcell.bitLen_le ?_ hcell.length_data ?_⟩
  · simpa only [Valid, Slice.withLast, List.length_set] using hv
  · simpa only [Slice.withLast, List.length_set] using hcell.refs_le
  · intro d hd
    rcases List.mem_or_eq_of_mem_set hd with hd | rfl
    · exact hcell.of_mem_refs hd
    · exact hc

/-- What lies before the last reference is the same with another cell behind it. -/
theorem twin_withLast (hs : s.Sound) (h : s.Advance u) (hrefs : u.remainingRefs = 1) {c : Cell} (hc : c.WellFormed) :
    Twin 0 (s.upTo u) ((s.withLast c).upTo u) := by
  obtain ⟨hpos, -, -⟩ := getElem?_lastRef hs h hrefs
  have hcut := h.sound_upTo hs
  have hcut' : ((s.withLast c).upTo u).Sound := by
    refine ⟨?_, (hs.withLast hc).cell⟩
    simpa only [Valid, upTo, withEnds, Slice.withLast, List.length_set] using hcut.valid
  refine .of_eq hcut hcut' rfl ?_ rfl
  apply List.ext_getElem?
  intro i
  simp only [refs, upTo, withEnds, Slice.withLast, remainingRefs, List.getElem?_take, List.getElem?_drop]
  split
  · rw [List.getElem?_set_ne (by omega)]
  · rfl

end Slice

/-- A chain that goes on in the last reference of a window: the lines of the window and those of the chain. -/
theorem chain_of_last (hs : s.Sound) (hsteps : Steps find? nested s lines u) (hbits : u.remainingBits = 0)
    (hrefs : u.remainingRefs = 1) :
    (chain find? nested s).text = linesText lines ++ (chain find? nested (Slice.ofCell s.lastRef)).text ∧
      (chain find? nested s).rest = u.dropRefs 1 ∧
      (chain find? nested s).ending = (chain find? nested (Slice.ofCell s.lastRef)).ending := by
  have hst := straight_of_steps hsteps
  rw [straight_done hbits] at hst
  obtain ⟨hpos, -, hlast⟩ := Slice.getElem?_lastRef hs hsteps.advance hrefs
  rw [chain_of_next hst.ending (by rw [hst.rest]; exact hrefs) (by rw [hst.rest, ← hpos]; exact hlast)]
  refine ⟨?_, ?_, rfl⟩
  · rw [Region.continueWith, hst.text, String.append_empty]
  · rw [Region.continueWith, hst.rest]

/-- The same window with another cell behind its last reference. -/
theorem steps_withLast (hf : find?.Faithful) (hn : nested.Alike nested) (hs : s.Sound)
    (hsteps : Steps find? nested s lines u) (hrefs : u.remainingRefs = 1) {c : Cell} (hc : c.WellFormed) :
    ∃ v, Steps find? nested (s.withLast c) lines v ∧ v.remainingBits = u.remainingBits ∧ v.remainingRefs = 1 := by
  have hadv := hsteps.advance
  have hv := (hadv.sound hs).valid
  unfold Slice.Valid at hv
  rw [hadv.bitEnd_eq, hadv.refEnd_eq] at hv
  have hgraft := hsteps.graft hf hn hs (Slice.twin_withLast hs hadv hrefs hc) hv.1 hv.2.2.1
  refine ⟨_, hgraft, ?_, ?_⟩
  · simp only [Slice.remainingBits, Slice.withLast, hadv.bitEnd_eq]
  · simp only [Slice.remainingRefs, Slice.withLast, hadv.refEnd_eq] at hrefs ⊢
    exact hrefs

/-- Going on in the one reference that is left at the end of the bits leads from a window to another, over some tail
references. -/
inductive Reaches (find? : Dispatcher) (nested : Nested) : Nat → Slice → Slice → Prop
  | here (s : Slice) : Reaches find? nested 0 s s
  | next {s t u : Slice} {lines : List String} {hops : Nat} (hsteps : Steps find? nested s lines u)
      (hbits : u.remainingBits = 0) (hrefs : u.remainingRefs = 1)
      (h : Reaches find? nested hops (Slice.ofCell s.lastRef) t) : Reaches find? nested (hops + 1) s t

theorem Reaches.sound {hops : Nat} (h : Reaches find? nested hops s t) (hs : s.Sound) : t.Sound := by
  induction h with
  | here s => exact hs
  | next hsteps _ hrefs _ ih => exact ih (Slice.sound_ofCell (hs.lastRef hsteps.advance hrefs))

/-! ## The two ends of a listing -/

/-- A listing that comes to its end and leaves no bits, nor references that code could go on in. -/
structure Region.Spent (continuing : Bool) (r : Region) : Prop where
  ending : r.ending = .complete
  bits : r.rest.remainingBits = 0
  refs : continuing = true → r.rest.remainingRefs = 0

/-- A listing of all bits: none are left, and none stand behind a marker. -/
structure Region.Exhausted (continuing : Bool) (r : Region) : Prop extends Region.Spent continuing r where
  markers : markers r.text = []

/-- A listing that ends with a marker: `t` is the last window, `hops` tail references away, and `p` is where decoding
it has come to. -/
structure Marked (find? : Dispatcher) (nested : Nested) (list : Slice → Region) (continuing : Bool) (hops : Nat)
    (s t p : Slice) : Prop where
  straight : continuing = false → hops = 0
  reached : Reaches find? nested hops s t
  run : ∃ lines, Steps find? nested t lines p
  bits : p.remainingBits ≠ 0
  stuck : step find? nested p = .unknown ∨ ∃ c, step find? nested p = .undecodable c
  /-- The bits of the last window are those before the cut and those behind the marker. -/
  whole : t.bits = (t.upTo p).bits ++ p.bits
  hex : markedLine p = "> " ++ hexOfBits (natOfBits p.bits) p.bits.length ++ "\n"
  /-- The lines before the marker are the listing of the code with the last window cut. -/
  text : (list s).text = (list (s.cutTail hops p)).text ++ markedLine p
  cut : (s.cutTail hops p).Sound
  exhausted : (list (s.cutTail hops p)).Exhausted continuing
  only : markers (list s).text = [markedLine p]
  last : (Text.splitLines (list s).text.toList).getLast? = some (markedLine p).toList

theorem Region.Spent.clear {continuing : Bool} {r : Region} (h : r.Spent continuing) (hl : r.Laid) : Clear r.text :=
  hl.clear (by rw [h.ending]; simp)

theorem Region.Spent.exhausted {continuing : Bool} {r : Region} (h : r.Spent continuing) (hl : r.Laid) :
    r.Exhausted continuing :=
  ⟨h, markers_of_clear (h.clear hl)⟩

theorem Marked.not_exhausted {list : Slice → Region} {continuing : Bool} {hops : Nat} {p : Slice}
    (h : Marked find? nested list continuing hops s t p) : ¬(list s).Exhausted continuing := by
  intro hex
  have hnone := hex.markers
  rw [h.only] at hnone
  cases hnone

/-- A window that is cut where a run has come to is listed in full, also as a chain. -/
theorem region_of_cut (hf : find?.Faithful) (hs : s.Sound) (h : Steps find? nested s lines u) (continuing : Bool) :
    (region find? nested (s.upTo u) continuing).Spent continuing ∧
      (region find? nested (s.upTo u) continuing).text = linesText lines := by
  obtain ⟨htext, hrest, hend⟩ := straight_of_cut hf hs h
  have hbits : (straight find? nested (s.upTo u)).rest.remainingBits = 0 := by
    rw [hrest]
    exact Nat.sub_self _
  have hrefs : (straight find? nested (s.upTo u)).rest.remainingRefs = 0 := by
    rw [hrest]
    exact Nat.sub_self _
  have hsame : region find? nested (s.upTo u) continuing = straight find? nested (s.upTo u) := by
    cases continuing with
    | false => rfl
    | true => exact chain_of_complete hend hrefs
  rw [hsame]
  exact ⟨⟨hend, hbits, fun _ => hrefs⟩, htext⟩

/-! ## Cuts and ends -/

theorem lastRef_withLast (hs : s.Sound) (h : s.Advance u) (hrefs : u.remainingRefs = 1) (c : Cell) :
    (s.withLast c).lastRef = c := by
  obtain ⟨-, hlt, -⟩ := Slice.getElem?_lastRef hs h hrefs
  simp only [Slice.lastRef, Slice.withLast, List.getD_eq_getElem?_getD, List.getElem?_set_self hlt,
    Option.getD_some]

/-- **Code that is cut where a run has come to is listed in full**, also some tail references away, and what the run
leaves is listed behind it. -/
theorem Reaches.cut (hf : find?.Faithful) (hn : nested.Alike nested) {hops : Nat} {p : Slice}
    (h : Reaches find? nested hops s t) (hrun : Steps find? nested t lines p) (hs : s.Sound) {continuing : Bool}
    (hstraight : continuing = false → hops = 0) :
    (s.cutTail hops p).Sound ∧ (region find? nested (s.cutTail hops p) continuing).Spent continuing ∧
      (region find? nested s continuing).text =
        (region find? nested (s.cutTail hops p) continuing).text ++ (region find? nested p continuing).text ∧
      (region find? nested s continuing).ending = (region find? nested p continuing).ending := by
  induction h with
  | here s =>
    obtain ⟨hspent, hlines⟩ := region_of_cut hf hs hrun continuing
    have hcont := region_of_steps hs hrun continuing
    exact ⟨hrun.advance.sound_upTo hs, hspent, by rw [hcont.text, Slice.cutTail, hlines], hcont.ending⟩
  | @next s t u lines' hops hsteps hbits hrefs _ ih =>
    cases continuing with
    | false => exact absurd (hstraight rfl) (Nat.succ_ne_zero hops)
    | true =>
      have hadv := hsteps.advance
      obtain ⟨hcut, hspent, htext, hend⟩ := ih hrun (Slice.sound_ofCell (hs.lastRef hadv hrefs)) nofun
      have hc := hcut.wellFormed_toCell
      -- the shorter cell is listed like the cut window that it was made of
      have htwin := chain_twin hf (fun _ _ => rfl) hn (hcut.twin_toCell (Slice.bitPos_cutTail hops _ p))
      rw [Slice.cutTail]
      generalize (Slice.cutTail hops (Slice.ofCell s.lastRef) p).toCell = c at hc htwin
      obtain ⟨v, hv, hvbits, hvrefs⟩ := steps_withLast hf hn hs hsteps hrefs hc
      obtain ⟨hwhole, -, hwholeEnd⟩ := chain_of_last hs hsteps hbits hrefs
      obtain ⟨hshort, hrest, hshortEnd⟩ := chain_of_last (hs.withLast hc) hv (hvbits.trans hbits) hvrefs
      rw [lastRef_withLast hs hadv hrefs] at hshort hshortEnd
      refine ⟨hs.withLast hc, ⟨?_, ?_, fun _ => ?_⟩, ?_, hwholeEnd.trans hend⟩
      · exact hshortEnd.trans (htwin.ending.eq.trans hspent.ending)
      · rw [region, if_pos rfl, hrest, Slice.remainingBits_dropRefs, hvbits, hbits]
      · rw [region, if_pos rfl, hrest, Slice.remainingRefs_dropRefs, hvrefs]
      · simp only [region, if_true] at htext ⊢
        rw [hwhole, hshort, htext, htwin.text, String.append_assoc]

/-- How the listing of what a run leaves ends, if no instruction follows and code does not go on in a reference. -/
inductive Region.Ends (find? : Dispatcher) (nested : Nested) (continuing : Bool) (p : Slice) (r : Region) : Prop
  | complete (htext : r.text = "") (hend : r.ending = .complete)
  | marked (hbits : p.remainingBits ≠ 0)
      (hstuck : step find? nested p = .unknown ∨ ∃ c, step find? nested p = .undecodable c)
      (htext : r.text = markedLine p) (hend : r.ending = .marked)
  | failed {f : Fault} {c : Cursor} (hbits : p.remainingBits ≠ 0) (hstep : step find? nested p = .failed f c)
      (htext : r.text = "") (hend : r.ending = .failed f)
  | forked (hcontinuing : continuing = true) (hbits : p.remainingBits = 0) (hrefs : 1 < p.remainingRefs)
      (htext : r.text = "") (hend : r.ending = .failed (.forkedTail p.remainingRefs p.bitPos))

theorem Region.Halts.ends {r : Region} {p : Slice} (h : r.Halts find? nested [] p) (continuing : Bool) :
    r.Ends find? nested continuing p := by
  cases h with
  | complete _ htext _ hend => exact .complete htext hend
  | marked hbits hstuck htext hend =>
    rw [linesText_nil, String.empty_append] at htext
    exact .marked hbits hstuck htext hend
  | failed hbits hstep htext _ hend => exact .failed hbits hstep htext hend

/-- **A listing follows code to its end**: from a window on over tail references, and there along the instructions, to
a place where there is nothing more to list. -/
theorem chain_ends (find? : Dispatcher) (nested : Nested) {s : Slice} (hs : s.Sound) :
    ∃ hops t lines p, Reaches find? nested hops s t ∧ Steps find? nested t lines p ∧
      (chain find? nested p).Ends find? nested true p := by
  obtain ⟨lines, p, hsteps, hstop⟩ := exists_steps find? nested s
  have hhalts := straight_of_stops hstop
  by_cases hbits : p.remainingBits = 0
  · have hst : straight find? nested p = ⟨"", p, [], .complete⟩ := straight_done hbits
    obtain h₀ | h₁ | h₂ : p.remainingRefs = 0 ∨ p.remainingRefs = 1 ∨ 1 < p.remainingRefs := by omega
    · refine ⟨0, s, lines, p, .here s, hsteps, ?_⟩
      rw [chain_of_complete (by rw [hst]) (by rw [hst]; exact h₀)]
      exact hhalts.ends true
    · have hlast := hs.lastRef hsteps.advance h₁
      have := Cell.sizeOf_lt_of_mem_refs (List.mem_of_getElem? (Slice.getElem?_lastRef hs hsteps.advance h₁).2.2)
      obtain ⟨hops, t, more, q, hreach, hrun, hends⟩ := chain_ends find? nested (Slice.sound_ofCell hlast)
      exact ⟨hops + 1, t, more, q, .next hsteps hbits h₁ hreach, hrun, hends⟩
    · refine ⟨0, s, lines, p, .here s, hsteps, ?_⟩
      rw [chain_of_fork (by rw [hst]) (by rw [hst]; exact h₂), hst]
      exact .forked rfl hbits h₂ rfl rfl
  · refine ⟨0, s, lines, p, .here s, hsteps, ?_⟩
    have hne : (straight find? nested p).ending ≠ .complete := by
      cases hhalts with
      | complete hnone _ _ _ => exact absurd hnone hbits
      | marked _ _ _ hend => rw [hend]; simp
      | failed _ _ _ _ hend => rw [hend]; simp
    rw [chain_of_not_complete hne]
    exact hhalts.ends true
termination_by sizeOf s.cell

theorem region_ends (find? : Dispatcher) (nested : Nested) (hs : s.Sound) (continuing : Bool) :
    ∃ hops t lines p, (continuing = false → hops = 0) ∧ Reaches find? nested hops s t ∧ Steps find? nested t lines p ∧
      (region find? nested p continuing).Ends find? nested continuing p := by
  cases continuing with
  | true =>
    obtain ⟨hops, t, lines, p, hreach, hrun, hends⟩ := chain_ends find? nested hs
    exact ⟨hops, t, lines, p, nofun, hreach, hrun, hends⟩
  | false =>
    obtain ⟨lines, p, hsteps, hstop⟩ := exists_steps find? nested s
    exact ⟨0, s, lines, p, fun _ => rfl, .here s, hsteps, (straight_of_stops hstop).ends false⟩

/-- A listing that comes to its end leaves nothing. -/
theorem region_spent (hs : s.Sound) {continuing : Bool} (h : (region find? nested s continuing).ending = .complete) :
    (region find? nested s continuing).Spent continuing := by
  cases continuing with
  | false =>
    obtain ⟨-, -, -, hbits⟩ := steps_of_complete h
    exact ⟨h, hbits, nofun⟩
  | true =>
    show (chain find? nested s).Spent true
    replace h : (chain find? nested s).ending = .complete := h
    by_cases hend : (straight find? nested s).ending = .complete
    · obtain ⟨lines, hsteps, -, hbits⟩ := steps_of_complete hend
      obtain h₀ | h₁ | h₂ : (straight find? nested s).rest.remainingRefs = 0 ∨
          (straight find? nested s).rest.remainingRefs = 1 ∨ 1 < (straight find? nested s).rest.remainingRefs := by
        omega
      · rw [chain_of_complete hend h₀] at h ⊢
        exact ⟨h, hbits, fun _ => h₀⟩
      · obtain ⟨-, hrest, -⟩ := chain_of_last hs hsteps hbits h₁
        refine ⟨h, ?_, fun _ => ?_⟩
        · rw [hrest, Slice.remainingBits_dropRefs, hbits]
        · rw [hrest, Slice.remainingRefs_dropRefs, h₁]
      · rw [chain_of_fork hend h₂] at h
        cases h
    · rw [chain_of_not_complete hend] at h
      exact absurd h hend

/-! ## Accounts -/

theorem region_accounts (hf : find?.Faithful) (hw : find?.Worded) (hn : nested.Alike nested) (hl : nested.Laid)
    (hs : s.Sound) {continuing : Bool} (h : (region find? nested s continuing).failure? = none) :
    (region find? nested s continuing).Exhausted continuing ∨
      ∃ hops t p, Marked find? nested (region find? nested · continuing) continuing hops s t p := by
  obtain ⟨hops, t, lines, p, hstraight, hreach, hrun, hends⟩ := region_ends find? nested hs continuing
  obtain ⟨hcut, hspent, htext, hend⟩ := hreach.cut hf hn hrun hs hstraight
  cases hends with
  | complete _ hp => exact Or.inl ((region_spent hs (hend.trans hp)).exhausted (region_laid hw hl s continuing))
  | marked hbits hstuck hmark _ =>
    have hlaid := region_laid hw hl (s.cutTail hops p) continuing
    have hclear := hspent.clear hlaid
    have hhex := Slice.toHex_eq (hrun.advance.sound (hreach.sound hs))
    rw [hmark] at htext
    refine Or.inr ⟨hops, t, p, hstraight, hreach, ⟨lines, hrun⟩, hbits, hstuck, hrun.advance.bits_eq, ?_, htext, hcut,
      hspent.exhausted hlaid, ?_, ?_⟩
    · rw [markedLine, hhex]
      rfl
    · simp only [htext]
      exact markers_append_markedLine hclear p
    · simp only [htext]
      exact getLast?_append_markedLine hclear p
  | failed _ _ _ hp =>
    rw [Region.failure?, hend, hp] at h
    cases h
  | forked _ _ _ _ hp =>
    rw [Region.failure?, hend, hp] at h
    cases h

/-- The accounts of the listing of one slice. -/
theorem straight_accounts (hf : find?.Faithful) (hw : find?.Worded) (hn : nested.Alike nested) (hl : nested.Laid)
    (hs : s.Sound) (h : (straight find? nested s).failure? = none) :
    (straight find? nested s).Exhausted false ∨
      ∃ p, Marked find? nested (straight find? nested) false 0 s s p := by
  have h : (region find? nested s false).failure? = none := h
  obtain hex | ⟨hops, t, p, hm⟩ := region_accounts hf hw hn hl hs h
  · exact Or.inl hex
  · obtain rfl := hm.straight rfl
    obtain rfl : t = s := by cases hm.reached; rfl
    exact Or.inr ⟨p, hm⟩

/-- The listing of a window accounts for its bits in one of two ways and not in both. -/
def Accounted (config : Config) (s : Slice) (continuing : Bool) : Prop :=
  let list := fun s => disassemble CodePage.zero config s continuing
  let nested := bodies CodePage.zero.find? config.maxDepth config.indent config.maxDepth
  let ends := ∃ hops t p, Marked CodePage.zero.find? nested list continuing hops s t p
  ((list s).Exhausted continuing ∧ ¬ends) ∨ (ends ∧ ¬(list s).Exhausted continuing)

/-- **Every bit is listed once**: a listing that does not fail shows all bits as instructions, or all those before some
instruction and the rest behind a marker. -/
theorem disassemble_accounts {s : Slice} (hs : s.Sound) (config : Config) (continuing : Bool)
    (h : (disassemble CodePage.zero config s continuing).failure? = none) : Accounted config s continuing := by
  have hf := CodePage.faithful_zero
  have hw := CodePage.worded_zero
  have hn := bodies_alike hf (fun _ _ => rfl) config.maxDepth config.indent config.maxDepth
  have hl := bodies_laid hw config.maxDepth config.indent config.maxDepth
  simp only [Accounted, disassemble, listing_eq] at h ⊢
  rcases region_accounts hf hw hn hl hs h with hex | ⟨hops, t, p, hm⟩
  · refine Or.inl ⟨hex, ?_⟩
    rintro ⟨hops, t, p, hm⟩
    exact hm.not_exhausted hex
  · exact Or.inr ⟨⟨hops, t, p, hm⟩, hm.not_exhausted⟩

/-- The accounts of an instruction and four more bits. -/
theorem accounted_of_nop_and_rest :
    let s := Slice.ofCell ⟨[0x00, 0xa0], 12, [], false⟩
    (disassemble CodePage.zero .default s false).failure? = none ∧ Accounted .default s false := by
  have hs : (Slice.ofCell ⟨[0x00, 0xa0], 12, [], false⟩).Sound :=
    Slice.sound_ofCell (.intro (by decide) (by decide) (by decide) (by simp))
  have hnone : (disassemble CodePage.zero .default (Slice.ofCell ⟨[0x00, 0xa0], 12, [], false⟩) false).failure? =
      none := by
    rw [disassemble, listing_eq, region, if_neg (by simp)]
    rw [straight_more (by decide) (CodePage.step_nop hs ⟨by decide, by decide, trivial⟩ _),
      straight_unknown (by decide) rfl]
    rfl
  exact ⟨hnone, disassemble_accounts hs .default false hnone⟩

end TvmCode
