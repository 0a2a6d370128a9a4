import TvmCode.Proofs.Listing.Accounting
import TvmCode.Proofs.Listing.Safety
import TvmCode.Proofs.Listing.Windows

/-!
# Code that goes on in references, window by window

A listing that goes on in references is made of listings that do not. Where a window alone is listed without a fault
and without a marker, and leaves one reference, code goes on in the cell behind it (`LeadsOn`). The windows met in this
way make up a trail: there is one from every window on (`exists_trail`), and only one (`Trail.unique`).

- the listing shows the windows of the trail one after the other, each as it is listed alone (`chain_of_trail`);
- it ends as the last window tells: in full, at a marker, at references that fork, or with the fault of that window
  (`Region.Closes`);
- all of this together is `disassemble_follows`.
-/

namespace TvmCode

/-! ## Trails -/

/-- Code goes on from one window in another: the first, listed alone, has no fault and shows no marker, and the second
is the whole cell behind the one reference that is left. -/
structure LeadsOn (alone : Slice → Region) (s t : Slice) : Prop where
  done : (alone s).failure? = none
  unmarked : markers (alone s).text = []
  next : ∃ c, (alone s).rest.refs = [c] ∧ t = Slice.ofCell c

/-- The windows from one on in which code goes on, and the last, from which it does not. -/
inductive Trail (alone : Slice → Region) : Slice → List Slice → Slice → Prop
  | last {s : Slice} (stops : ∀ t, ¬LeadsOn alone s t) : Trail alone s [] s
  | next {s t last : Slice} {before : List Slice} (leads : LeadsOn alone s t) (rest : Trail alone t before last) :
      Trail alone s (s :: before) last

section Trails

variable {alone : Slice → Region} {s t t' last last' : Slice} {before before' : List Slice}

theorem LeadsOn.unique (h : LeadsOn alone s t) (h' : LeadsOn alone s t') : t = t' := by
  obtain ⟨c, hc, rfl⟩ := h.next
  obtain ⟨d, hd, rfl⟩ := h'.next
  rw [hc] at hd
  cases hd
  rfl

/-- There is no other trail from a window on. -/
theorem Trail.unique (h : Trail alone s before last) (h' : Trail alone s before' last') :
    before' = before ∧ last' = last := by
  induction h generalizing before' with
  | last stops =>
    cases h' with
    | last _ => exact ⟨rfl, rfl⟩
    | next leads _ => exact absurd leads (stops _)
  | next leads _ ih =>
    cases h' with
    | last stops => exact absurd leads (stops _)
    | next leads' rest' =>
      obtain ⟨rfl, rfl⟩ := ih (leads.unique leads' ▸ rest')
      exact ⟨rfl, rfl⟩

/-- **Trails end**, because the cell in which code goes on is smaller. -/
theorem exists_trail (hrest : ∀ s : Slice, s.Advance (alone s).rest) (s : Slice) :
    ∃ before last, Trail alone s before last := by
  by_cases h : ∃ t, LeadsOn alone s t
  · obtain ⟨t, hleads⟩ := h
    obtain ⟨c, hrefs, rfl⟩ := hleads.next
    have hmem : c ∈ (alone s).rest.cell.refs := Slice.mem_refs_of_mem (by rw [hrefs]; simp)
    rw [(hrest s).cell_eq] at hmem
    have := Cell.sizeOf_lt_of_mem_refs hmem
    obtain ⟨before, last, htrail⟩ := exists_trail hrest (Slice.ofCell c)
    exact ⟨s :: before, last, .next hleads htrail⟩
  · exact ⟨[], s, .last (not_exists.mp h)⟩
termination_by sizeOf s.cell

end Trails

/-! ## Ends -/

/-- The fault with which a listing ends that goes on in references, by its last window listed alone. -/
inductive Region.Closes (r : Region) : Option Fault → Prop
  | marked (done : r.failure? = none) (marked : markers r.text ≠ []) : Closes r none
  | spent (done : r.failure? = none) (unmarked : markers r.text = []) (refs : r.rest.refs = []) : Closes r none
  | forked (done : r.failure? = none) (unmarked : markers r.text = []) (refs : 1 < r.rest.refs.length) :
      Closes r (some (.forkedTail r.rest.refs.length r.rest.bitPos))
  | failed {f : Fault} (failed : r.failure? = some f) (recoverable : f.Recoverable) : Closes r (some f)

/-- A listing that is made of the listings of the windows of a trail. -/
structure Region.Follows (r : Region) (alone : Slice → Region) (s : Slice) (before : List Slice) (last : Slice) :
    Prop where
  text : r.text = String.join (before.map fun w => (alone w).text) ++ (alone last).text
  closes : (alone last).Closes r.failure?
  bitPos : r.rest.bitPos = (alone s).rest.bitPos

/-- The one reference that is left leads to the next cell. -/
theorem Slice.Sound.of_refs_singleton {s : Slice} (hs : s.Sound) {c : Cell} (h : s.refs = [c]) :
    s.remainingRefs = 1 ∧ s.cell.refs[s.refPos]? = some c ∧ c.WellFormed := by
  have hone : s.remainingRefs = 1 := by rw [← hs.length_refs, h, List.length_singleton]
  obtain ⟨next, hnext, hw⟩ := exists_next hs (by omega)
  have hhead := getD_refs_eq hs (by omega)
  rw [h, List.getD_eq_getElem?_getD, hnext] at hhead
  obtain rfl : c = next := by simpa using hhead
  exact ⟨hone, hnext, hw⟩

section Chains

variable {find? : Dispatcher} {nested : Nested} {s t last : Slice} {before : List Slice} (hf : find?.Faithful)
  (hw : find?.Worded) (hn : nested.Alike nested) (hl : nested.Laid)

include hf hw hn hl

/-- A window is listed in full if there is no fault and no marker. -/
theorem straight_complete_iff (hs : s.Sound) :
    (straight find? nested s).ending = .complete ↔
      (straight find? nested s).failure? = none ∧ markers (straight find? nested s).text = [] := by
  constructor
  · intro h
    have hspent : (straight find? nested s).Spent false :=
      region_spent hs (show (region find? nested s false).ending = .complete from h)
    refine ⟨?_, (hspent.exhausted (straight_laid hw hl s)).markers⟩
    rw [Region.failure?, h]
  · rintro ⟨hdone, hunmarked⟩
    rcases straight_accounts hf hw hn hl hs hdone with hex | ⟨p, hm⟩
    · exact hex.ending
    · have honly := hm.only
      rw [hunmarked] at honly
      cases honly

/-- Where code goes on, the rest of the listing is that of the next window. -/
theorem chain_of_leadsOn (hs : s.Sound) (h : LeadsOn (straight find? nested) s t) :
    t.Sound ∧ (chain find? nested s).text = (straight find? nested s).text ++ (chain find? nested t).text ∧
      (chain find? nested s).failure? = (chain find? nested t).failure? ∧
      (chain find? nested s).rest.bitPos = (straight find? nested s).rest.bitPos := by
  have hend := (straight_complete_iff hf hw hn hl hs).mpr ⟨h.done, h.unmarked⟩
  have hadv := rest_of_complete hend
  obtain ⟨c, hrefs, rfl⟩ := h.next
  obtain ⟨hone, hnext, hc⟩ := (hadv.sound hs).of_refs_singleton hrefs
  rw [hadv.cell_eq] at hnext
  rw [chain_of_next hend hone hnext]
  exact ⟨Slice.sound_ofCell hc, rfl, rfl, rfl⟩

/-- Where code does not go on, the listing ends with the window. -/
theorem chain_of_stops (hd : find?.Modest) (hb : nested.Writes) (hs : s.Sound)
    (h : ∀ t, ¬LeadsOn (straight find? nested) s t) :
    (chain find? nested s).Follows (straight find? nested) s [] s := by
  have hiff := straight_complete_iff hf hw hn hl hs
  by_cases hend : (straight find? nested s).ending = .complete
  · obtain ⟨hdone, hunmarked⟩ := hiff.mp hend
    have hlen := ((rest_of_complete hend).sound hs).length_refs
    rcases hrefs : (straight find? nested s).rest.refs with _ | ⟨c, _ | ⟨d, others⟩⟩
    · rw [hrefs, List.length_nil] at hlen
      rw [chain_of_complete hend hlen.symm]
      exact ⟨by simp, hdone ▸ .spent hdone hunmarked hrefs, rfl⟩
    · exact absurd ⟨hdone, hunmarked, c, hrefs, rfl⟩ (h (.ofCell c))
    · have hfork : 1 < (straight find? nested s).rest.refs.length := by simp [hrefs]
      rw [chain_of_fork hend (hlen ▸ hfork), ← hlen]
      exact ⟨by simp, .forked hdone hunmarked hfork, rfl⟩
  · rw [chain_of_not_complete hend]
    refine ⟨by simp, ?_, rfl⟩
    cases hfail : (straight find? nested s).failure? with
    | none => exact .marked hfail fun hnone => hend (hiff.mpr ⟨hfail, hnone⟩)
    | some f =>
      have htwin := straight_twin hf (fun _ _ => rfl) hn (.refl hs)
      exact .failed hfail (htwin.ending.recoverable (straight_writes hd hb s) hfail)

/-- **A chain is made of the listings of its windows alone.** -/
theorem chain_of_trail (hd : find?.Modest) (hb : nested.Writes) (h : Trail (straight find? nested) s before last)
    (hs : s.Sound) :
    (chain find? nested s).Follows (straight find? nested) s before last := by
  induction h with
  | last stops => exact chain_of_stops hf hw hn hl hd hb hs stops
  | next leads _ ih =>
    obtain ⟨ht, htext, hfail, hpos⟩ := chain_of_leadsOn hf hw hn hl hs leads
    have hrest := ih ht
    refine ⟨?_, hfail ▸ hrest.closes, hpos⟩
    rw [htext, hrest.text, List.map_cons, String.join_cons, String.append_assoc]

end Chains

/-- **Code that goes on in references is listed window by window**: there is one trail of windows, and the listing shows
them as they are listed alone, ends as the last one tells, and leaves the first where it is left alone. -/
theorem disassemble_follows {s : Slice} (hs : s.Sound) (config : Config) :
    ∃ before last, Trail (disassemble CodePage.zero config · false) s before last ∧
      (∀ before' last', Trail (disassemble CodePage.zero config · false) s before' last' →
        before' = before ∧ last' = last) ∧
      (disassemble CodePage.zero config s true).Follows (disassemble CodePage.zero config · false) s before last := by
  have hf := CodePage.faithful_zero
  have hw := CodePage.worded_zero
  have hn := bodies_alike hf (fun _ _ => rfl) config.maxDepth config.indent config.maxDepth
  have hl := bodies_laid hw config.maxDepth config.indent config.maxDepth
  have hd := CodePage.modest_zero
  have hb := bodies_writes hd config.maxDepth config.indent config.maxDepth
  simp only [disassemble, listing_eq, region, if_true, Bool.false_eq_true, if_false]
  obtain ⟨before, last, htrail⟩ := exists_trail (advance_straight _ _) s
  exact ⟨before, last, htrail, fun _ _ => htrail.unique, chain_of_trail hf hw hn hl hd hb htrail hs⟩

/-- An instruction, and another one in the cell behind it, after which the code forks. -/
theorem follows_to_fork :
    let empty : Cell := ⟨[], 0, [], false⟩
    let s := Slice.ofCell ⟨[0x00], 8, [⟨[0x00], 8, [empty, empty], false⟩], false⟩
    s.Sound ∧ (disassemble CodePage.zero .default s true).text = "NOP\nNOP\n" ∧
      (disassemble CodePage.zero .default s true).failure? = some (.forkedTail 2 8) := by
  intro empty s
  have hempty : empty.WellFormed := .intro (by decide) (by decide) (by decide) (by simp [empty])
  have hnext : Cell.WellFormed ⟨[0x00], 8, [empty, empty], false⟩ :=
    .intro (by decide) (by decide) (by decide) (by simpa using hempty)
  have hs : s.Sound := Slice.sound_ofCell (.intro (by decide) (by decide) (by decide) (by simpa using hnext))
  have hlist : ∀ refs, Cell.WellFormed ⟨[0x00], 8, refs, false⟩ → ∃ notes,
      disassemble CodePage.zero .default (.ofCell ⟨[0x00], 8, refs, false⟩) false =
        ⟨"NOP\n", ⟨⟨[0x00], 8, refs, false⟩, 8, 8, 0, refs.length⟩, notes, .complete⟩ := by
    intro refs hc
    have hbyte : Cell.bitsAt ⟨[0x00], 8, refs, false⟩ 0 8 = 0 := by simp [Cell.bitsAt, natOfBytes]
    have hstarts : (Slice.ofCell ⟨[0x00], 8, refs, false⟩).Starts [0] := ⟨Nat.le_refl 8, hbyte, trivial⟩
    rw [disassemble, listing_eq, region, if_neg (by simp)]
    rw [straight_more (by simp [Slice.remainingBits, Slice.ofCell])
      (CodePage.step_nop (Slice.sound_ofCell hc) hstarts _), straight_done rfl]
    exact ⟨_, rfl⟩
  obtain ⟨notes, hfirst⟩ := hlist _ hs.cell
  obtain ⟨notes', hsecond⟩ := hlist _ hnext
  have hleads : LeadsOn (disassemble CodePage.zero .default · false) s
      (.ofCell ⟨[0x00], 8, [empty, empty], false⟩) := by
    refine ⟨?_, ?_, _, ?_, rfl⟩ <;> simp only [s, hfirst]
    · rfl
    · decide
    · rfl
  have hstops : ∀ t, ¬LeadsOn (disassemble CodePage.zero .default · false)
      (.ofCell ⟨[0x00], 8, [empty, empty], false⟩) t := by
    rintro t ⟨-, -, c, hrefs, -⟩
    simp [hsecond, Slice.refs, Slice.remainingRefs] at hrefs
  obtain ⟨before, last, -, hunique, htext, hcloses, -⟩ := disassemble_follows hs .default
  obtain ⟨rfl, rfl⟩ := hunique _ _ (.next hleads (.last hstops))
  refine ⟨hs, ?_, ?_⟩
  · rw [htext]
    simp [s, hfirst, hsecond]
  · simp only [hsecond] at hcloses
    generalize (disassemble CodePage.zero .default s true).failure? = failure at hcloses
    cases hcloses with
    | marked _ hmarked => exact absurd (show markers "NOP\n" = [] by decide) hmarked
    | spent _ _ hrefs => simp [Slice.refs, Slice.remainingRefs] at hrefs
    | forked _ _ _ => rfl
    | failed hfailed _ => cases hfailed

end TvmCode
