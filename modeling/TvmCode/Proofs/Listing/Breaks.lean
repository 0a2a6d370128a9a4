import TvmCode.Proofs.Listing.Accounting
import TvmCode.Proofs.Listing.Limits

/-!
# What a listing that fails shows

A listing fails at an instruction that cannot be listed, in the window it started in or in one that it has come to over
tail references, or at the end of the bits of such a window where code could go on in several references
(`Fault.Arises`). What it shows is the listing of the same code cut at that place, with the references taken so far
(`disassemble_breaks`): whole instructions, and nothing of a continuation in which the fault arose.
-/

namespace TvmCode

/-- A place in a window where a listing fails. -/
inductive Fault.Arises (find? : Dispatcher) (nested : Nested) (continuing : Bool) (p : Slice) (f : Fault) : Prop
  /-- An instruction starts there and cannot be listed. -/
  | instruction {i : Instr} {c : Cursor} (bits : p.remainingBits ≠ 0) (found : find? p = some i)
      (fails : i.decode nested ⟨p, []⟩ = .error f c)
  /-- The bits end there, and code could go on in more than one reference. -/
  | boundary (follows : continuing = true) (bits : p.remainingBits = 0) (refs : 1 < p.remainingRefs)
      (fault : f = .forkedTail p.remainingRefs p.bitPos)

/-- A listing that fails at `p`, a place in the window `t` that lies `hops` tail references away. -/
structure Broken (find? : Dispatcher) (nested : Nested) (list : Slice → Region) (continuing : Bool) (f : Fault)
    (hops : Nat) (s t p : Slice) : Prop where
  straight : continuing = false → hops = 0
  reached : Reaches find? nested hops s t
  run : ∃ lines, Steps find? nested t lines p
  arises : f.Arises find? nested continuing p
  /-- What is shown is the listing of the code with that window cut at that place, which takes all of it. -/
  text : (list s).text = (list (s.cutTail hops p)).text
  cut : (s.cutTail hops p).Sound
  exhausted : (list (s.cutTail hops p)).Exhausted continuing
  unmarked : markers (list s).text = []
  whole : (list s).text = "" ∨ ∃ front, (list s).text = front ++ "\n"

section Breaks

variable {find? : Dispatcher} {nested : Nested} {s : Slice}

theorem exists_of_step_failed {f : Fault} {c : Cursor} (h : step find? nested s = .failed f c) :
    ∃ i, find? s = some i ∧ i.decode nested ⟨s, []⟩ = .error f c := by
  unfold step at h
  cases hfind : find? s with
  | none =>
    rw [hfind] at h
    cases h
  | some i =>
    simp only [hfind] at h
    split at h
    · split at h <;> cases h
    · cases h
    · rename_i f' c' hdec
      cases h
      exact ⟨i, rfl, hdec⟩

/-- A text of lines ends with a line feed. -/
theorem Clear.whole {text : String} (h : Clear text) : text = "" ∨ ∃ front, text = front ++ "\n" := by
  obtain ⟨outer, hlaid, -⟩ := h
  rcases hlaid.ends with hnil | ⟨front, hfront⟩
  · exact Or.inl (String.toList_eq_nil_iff.mp hnil)
  · refine Or.inr ⟨String.ofList front, String.toList_inj.mp ?_⟩
    rw [hfront, String.toList_append, String.toList_ofList]
    rfl

/-- A listing that fails where nothing is shown any more. -/
theorem broken_of_cut (hw : find?.Worded) (hl : nested.Laid) {continuing : Bool} {f : Fault} {hops : Nat} {t p : Slice}
    {lines : List String} (hstraight : continuing = false → hops = 0) (hreach : Reaches find? nested hops s t)
    (hrun : Steps find? nested t lines p) (harises : f.Arises find? nested continuing p)
    (hcut : (s.cutTail hops p).Sound) (hspent : (region find? nested (s.cutTail hops p) continuing).Spent continuing)
    (htext : (region find? nested s continuing).text = (region find? nested (s.cutTail hops p) continuing).text) :
    Broken find? nested (region find? nested · continuing) continuing f hops s t p := by
  have hlaid := region_laid hw hl (s.cutTail hops p) continuing
  have hclear : Clear (region find? nested s continuing).text := htext ▸ hspent.clear hlaid
  exact ⟨hstraight, hreach, ⟨lines, hrun⟩, harises, htext, hcut, hspent.exhausted hlaid, markers_of_clear hclear,
    hclear.whole⟩

/-- **A listing that fails shows the listing of the code before the place where it fails.** -/
theorem region_breaks (hf : find?.Faithful) (hw : find?.Worded) (hn : nested.Alike nested) (hl : nested.Laid)
    (hs : s.Sound) {continuing : Bool} {f : Fault} (h : (region find? nested s continuing).failure? = some f) :
    ∃ hops t p, Broken find? nested (region find? nested · continuing) continuing f hops s t p := by
  obtain ⟨hops, t, lines, p, hstraight, hreach, hrun, hends⟩ := region_ends find? nested hs continuing
  obtain ⟨hcut, hspent, htext, hend⟩ := hreach.cut hf hn hrun hs hstraight
  rw [Region.failure?, hend] at h
  cases hends with
  | complete _ hp =>
    rw [hp] at h
    cases h
  | marked _ _ _ hp =>
    rw [hp] at h
    cases h
  | failed hbits hstep hnone hp =>
    rw [hp] at h
    cases h
    obtain ⟨i, hfind, hdec⟩ := exists_of_step_failed hstep
    rw [hnone, String.append_empty] at htext
    exact ⟨hops, t, p, broken_of_cut hw hl hstraight hreach hrun (.instruction hbits hfind hdec) hcut hspent htext⟩
  | forked hcontinuing hbits hrefs hnone hp =>
    rw [hp] at h
    cases h
    rw [hnone, String.append_empty] at htext
    exact ⟨hops, t, p, broken_of_cut hw hl hstraight hreach hrun (.boundary hcontinuing hbits hrefs rfl) hcut hspent
      htext⟩

end Breaks

/-- **A listing that fails shows what comes before the fault**: the listing of the same code, cut just before the
instruction that cannot be listed or where the code forks. -/
theorem disassemble_breaks {s : Slice} (hs : s.Sound) (config : Config) (continuing : Bool) {f : Fault}
    (h : (disassemble CodePage.zero config s continuing).failure? = some f) :
    ∃ hops t p, Broken CodePage.zero.find? (bodies CodePage.zero.find? config.maxDepth config.indent config.maxDepth)
      (disassemble CodePage.zero config · continuing) continuing f hops s t p := by
  have hf := CodePage.faithful_zero
  have hw := CodePage.worded_zero
  have hn := bodies_alike hf (fun _ _ => rfl) config.maxDepth config.indent config.maxDepth
  have hl := bodies_laid hw config.maxDepth config.indent config.maxDepth
  simp only [disassemble, listing_eq] at h ⊢
  exact region_breaks hf hw hn hl hs h

/-- A listing that fails within the second of two instructions. -/
theorem broken_of_pushedPush :
    let config : Config := ⟨1, 2, Nat.one_pos⟩
    let s := Slice.ofCell pushedPush
    s.Sound ∧ (disassemble CodePage.zero config s false).failure? = some (.tooDeep 1) ∧
      ∃ hops t p, Broken CodePage.zero.find? (bodies CodePage.zero.find? 1 2 1)
        (disassemble CodePage.zero config · false) false (.tooDeep 1) hops s t p :=
  ⟨sound_pushedPush, failure?_pushedPush, disassemble_breaks sound_pushedPush _ false failure?_pushedPush⟩

end TvmCode
