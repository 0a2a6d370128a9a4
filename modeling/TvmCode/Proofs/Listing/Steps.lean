import TvmCode.Listing
import TvmCode.Proofs.Decoder

/-!
# Listings as runs of instructions

A straight listing is a run of decoded instructions up to a place where none is decoded. `Steps` is the run and `Stops`
holds at its end.

- every slice is left by some run that ends at a stop (`exists_steps`);
- a run puts its lines in front of the listing of what is left (`straight_of_steps`, `chain_of_steps`);
- what a run leaves is the slice less some bits and references at its front (`Steps.advance`).
-/

namespace TvmCode

variable {find? : Dispatcher} {nested : Nested} {s t : Slice} {text : String} {lines : List String}

/-! ## One instruction -/

/-- An instruction is found, decoded and takes something. -/
theorem step_eq_line_iff {c : Cursor} :
    step find? nested s = .line text c ↔
      ∃ i, find? s = some i ∧ i.decode nested ⟨s, []⟩ = .ok (some text) c ∧ c.slice.size < s.size := by
  unfold step
  cases hfind : find? s with
  | none => simp
  | some i =>
    simp only [Option.some.injEq, exists_eq_left']
    constructor
    · intro h
      split at h
      · rename_i text' c' hdec
        split at h
        · cases h
          exact ⟨hdec, ‹_›⟩
        · cases h
      · cases h
      · cases h
    · rintro ⟨hdec, hsize⟩
      rw [hdec]
      simp only [if_pos hsize]

theorem step_of_find?_none (h : find? s = none) : step find? nested s = .unknown := by
  rw [step, h]

theorem step_of_decode_none {i : Instr} {c : Cursor} (hfind : find? s = some i)
    (hdec : i.decode nested ⟨s, []⟩ = .ok none c) : step find? nested s = .undecodable c := by
  simp only [step, hfind, hdec]

theorem step_of_decode_error {i : Instr} {f : Fault} {c : Cursor} (hfind : find? s = some i)
    (hdec : i.decode nested ⟨s, []⟩ = .error f c) : step find? nested s = .failed f c := by
  simp only [step, hfind, hdec]

theorem advance_of_step {c : Cursor} (h : step find? nested s = .line text c) : s.Advance c.slice := by
  obtain ⟨i, -, hdec, -⟩ := step_eq_line_iff.mp h
  exact (i.orderly_decode nested).advance hdec

/-- Less is left once bits are taken. -/
theorem Slice.Advance.size_lt (h : s.Advance t) (hpos : s.bitPos < t.bitPos) : t.size < s.size := by
  obtain ⟨a, b, ha, hb, rfl⟩ := h
  have hpos : s.bitPos < s.bitPos + a := hpos
  simp only [size, remainingBits_dropRefs, remainingBits_dropBits, remainingRefs_dropRefs, remainingRefs_dropBits]
  omega

/-! ## Runs of instructions -/

/-- The texts of instructions as lines. -/
def linesText : List String → String
  | [] => ""
  | line :: lines => line ++ "\n" ++ linesText lines

@[simp] theorem linesText_nil : linesText [] = "" := rfl

/-- Decoding instructions one after the other gives some lines and leaves a slice. -/
inductive Steps (find? : Dispatcher) (nested : Nested) : Slice → List String → Slice → Prop
  | done (s : Slice) : Steps find? nested s [] s
  | more {s t : Slice} {text : String} {c : Cursor} {lines : List String} (hbits : s.remainingBits ≠ 0)
      (hstep : step find? nested s = .line text c) (hrest : Steps find? nested c.slice lines t) :
      Steps find? nested s (text :: lines) t

/-- No further instruction is decoded. -/
def Stops (find? : Dispatcher) (nested : Nested) (s : Slice) : Prop :=
  s.remainingBits ≠ 0 → ∀ text c, step find? nested s ≠ .line text c

theorem Steps.advance (h : Steps find? nested s lines t) : s.Advance t := by
  induction h with
  | done s => exact Slice.Advance.refl s
  | more _ hstep _ ih => exact (advance_of_step hstep).trans ih

/-- A run goes on to a stop. -/
theorem exists_steps (find? : Dispatcher) (nested : Nested) (s : Slice) :
    ∃ lines t, Steps find? nested s lines t ∧ Stops find? nested t := by
  by_cases hstop : Stops find? nested s
  · exact ⟨[], s, .done s, hstop⟩
  · simp only [Stops, ne_eq, not_forall, not_not] at hstop
    obtain ⟨hbits, text, c, hstep⟩ := hstop
    have := size_lt_of_step hstep
    obtain ⟨lines, t, hsteps, ht⟩ := exists_steps find? nested c.slice
    exact ⟨text :: lines, t, .more hbits hstep hsteps, ht⟩
termination_by s.size

/-! ## Straight listings -/

/-- A listing that differs from another one by lines in front. -/
structure Region.Continues (lines : List String) (r later : Region) : Prop where
  text : r.text = linesText lines ++ later.text
  rest : r.rest = later.rest
  ending : r.ending = later.ending

theorem straight_done (h : s.remainingBits = 0) : straight find? nested s = ⟨"", s, [], .complete⟩ := by
  rw [straight, if_pos h]

theorem straight_more {c : Cursor} (hbits : s.remainingBits ≠ 0) (hstep : step find? nested s = .line text c) :
    straight find? nested s = (straight find? nested c.slice).afterLine text c.notes := by
  rw [straight, if_neg hbits]
  split <;> simp_all

theorem straight_unknown (hbits : s.remainingBits ≠ 0) (hstep : step find? nested s = .unknown) :
    straight find? nested s = markedRegion .unknownOpcode s s [] := by
  rw [straight, if_neg hbits]
  split <;> simp_all

theorem straight_undecodable {c : Cursor} (hbits : s.remainingBits ≠ 0)
    (hstep : step find? nested s = .undecodable c) :
    straight find? nested s = markedRegion .undecodable s c.slice c.notes := by
  rw [straight, if_neg hbits]
  split <;> simp_all

theorem straight_failed {f : Fault} {c : Cursor} (hbits : s.remainingBits ≠ 0)
    (hstep : step find? nested s = .failed f c) : straight find? nested s = ⟨"", c.slice, c.notes, .failed f⟩ := by
  rw [straight, if_neg hbits]
  split <;> simp_all

/-- A run puts its lines in front of the listing of what it leaves. -/
theorem straight_of_steps (h : Steps find? nested s lines t) :
    (straight find? nested s).Continues lines (straight find? nested t) := by
  induction h with
  | done s => exact ⟨by simp [linesText], rfl, rfl⟩
  | more hbits hstep _ ih =>
    rw [straight_more hbits hstep]
    refine ⟨?_, ih.rest, ih.ending⟩
    simp only [Region.afterLine, ih.text, linesText, String.append_assoc]

/-- How a listing ends: after some lines it is at a slice without bits, or at bits that are no instruction, or at an
instruction that cannot be listed. -/
inductive Region.Halts (find? : Dispatcher) (nested : Nested) (lines : List String) (t : Slice) (r : Region) : Prop
  | complete (hbits : t.remainingBits = 0) (htext : r.text = linesText lines) (hrest : r.rest = t)
      (hend : r.ending = .complete)
  | marked (hbits : t.remainingBits ≠ 0)
      (hstuck : step find? nested t = .unknown ∨ ∃ c, step find? nested t = .undecodable c)
      (htext : r.text = linesText lines ++ (marker ++ t.toHex ++ "\n")) (hend : r.ending = .marked)
  | failed {f : Fault} {c : Cursor} (hbits : t.remainingBits ≠ 0) (hstep : step find? nested t = .failed f c)
      (htext : r.text = linesText lines) (hrest : r.rest = c.slice) (hend : r.ending = .failed f)

theorem Region.Continues.halts {r later : Region} (h : r.Continues lines later)
    (h' : later.Halts find? nested [] t) : r.Halts find? nested lines t := by
  cases h' with
  | complete hbits htext hrest hend =>
    exact .complete hbits (by rw [h.text, htext, linesText_nil, String.append_empty]) (h.rest.trans hrest)
      (h.ending.trans hend)
  | marked hbits hstuck htext hend =>
    exact .marked hbits hstuck (by rw [h.text, htext, linesText_nil, String.empty_append]) (h.ending.trans hend)
  | failed hbits hstep htext hrest hend =>
    exact .failed hbits hstep (by rw [h.text, htext, linesText_nil, String.append_empty]) (h.rest.trans hrest)
      (h.ending.trans hend)

theorem straight_of_stops (h : Stops find? nested s) : (straight find? nested s).Halts find? nested [] s := by
  by_cases hbits : s.remainingBits = 0
  · rw [straight_done hbits]
    exact .complete hbits rfl rfl rfl
  · cases hstep : step find? nested s with
    | line text c => exact absurd hstep (h hbits text c)
    | unknown =>
      rw [straight_unknown hbits hstep]
      exact .marked hbits (Or.inl hstep) (by simp [markedRegion]) rfl
    | undecodable c =>
      rw [straight_undecodable hbits hstep]
      exact .marked hbits (Or.inr ⟨c, hstep⟩) (by simp [markedRegion]) rfl
    | failed f c =>
      rw [straight_failed hbits hstep]
      exact .failed hbits hstep rfl rfl rfl

/-- A listing is made by a run that goes on to a stop. -/
theorem straight_halts (find? : Dispatcher) (nested : Nested) (s : Slice) :
    ∃ lines t, Steps find? nested s lines t ∧ (straight find? nested s).Halts find? nested lines t := by
  obtain ⟨lines, t, hsteps, hstop⟩ := exists_steps find? nested s
  exact ⟨lines, t, hsteps, (straight_of_steps hsteps).halts (straight_of_stops hstop)⟩

/-- A listing of all bits leaves the slice at the end of its bits. -/
theorem steps_of_complete (h : (straight find? nested s).ending = .complete) :
    ∃ lines, Steps find? nested s lines (straight find? nested s).rest ∧
      (straight find? nested s).text = linesText lines ∧ (straight find? nested s).rest.remainingBits = 0 := by
  obtain ⟨lines, t, hsteps, hhalts⟩ := straight_halts find? nested s
  cases hhalts with
  | complete hbits htext hrest _ => exact ⟨lines, hrest ▸ hsteps, htext, hrest ▸ hbits⟩
  | marked _ _ _ hend => rw [h] at hend; cases hend
  | failed _ _ _ _ hend => rw [h] at hend; cases hend

theorem rest_of_complete (h : (straight find? nested s).ending = .complete) :
    s.Advance (straight find? nested s).rest := by
  obtain ⟨lines, hsteps, -, -⟩ := steps_of_complete h
  exact hsteps.advance

/-! ## Chains -/

theorem chain_of_complete (hend : (straight find? nested s).ending = .complete)
    (hrefs : (straight find? nested s).rest.remainingRefs = 0) : chain find? nested s = straight find? nested s := by
  rw [chain]
  simp only [hend, if_pos hrefs]

theorem chain_of_next {next : Cell} (hend : (straight find? nested s).ending = .complete)
    (hrefs : (straight find? nested s).rest.remainingRefs = 1)
    (hnext : s.cell.refs[(straight find? nested s).rest.refPos]? = some next) :
    chain find? nested s =
      { straight find? nested s with rest := (straight find? nested s).rest.dropRefs 1 }.continueWith
        (chain find? nested (Slice.ofCell next)) := by
  rw [chain]
  simp only [hend, hrefs, Nat.one_ne_zero, if_false, if_true]
  split <;> simp_all

theorem chain_of_missing (hend : (straight find? nested s).ending = .complete)
    (hrefs : (straight find? nested s).rest.remainingRefs = 1)
    (hnext : s.cell.refs[(straight find? nested s).rest.refPos]? = none) :
    chain find? nested s = straight find? nested s := by
  rw [chain]
  simp only [hend, hrefs, Nat.one_ne_zero, if_false, if_true]
  split <;> simp_all

theorem chain_of_fork (hend : (straight find? nested s).ending = .complete)
    (hrefs : 1 < (straight find? nested s).rest.remainingRefs) :
    chain find? nested s = { straight find? nested s with
      ending := .failed (.forkedTail (straight find? nested s).rest.remainingRefs
        (straight find? nested s).rest.bitPos) } := by
  rw [chain]
  simp only [hend]
  rw [if_neg (by omega), if_neg (by omega)]

theorem chain_of_not_complete (hend : (straight find? nested s).ending ≠ .complete) :
    chain find? nested s = straight find? nested s := by
  rw [chain]
  split
  · exact absurd ‹_› hend
  · rfl

/-- A listing that does not come to the end of its bits is the same in either mode. -/
theorem region_of_not_complete (hend : (straight find? nested s).ending ≠ .complete) (continuing : Bool) :
    region find? nested s continuing = straight find? nested s := by
  cases continuing with
  | false => rfl
  | true => exact chain_of_not_complete hend

/-- Where one reference is left in a sound slice, there is a cell behind it. -/
theorem exists_next (ht : t.Sound) (hrefs : t.remainingRefs ≠ 0) :
    ∃ next, t.cell.refs[t.refPos]? = some next ∧ next.WellFormed := by
  have hlt : t.refPos < t.cell.refs.length := by
    have := ht.valid.2.2
    unfold Slice.remainingRefs at hrefs
    omega
  exact ⟨_, List.getElem?_eq_getElem hlt, ht.cell.of_mem_refs (List.getElem_mem hlt)⟩

/-- A run puts its lines in front of the chain of what it leaves. -/
theorem chain_of_steps (hs : s.Sound) (h : Steps find? nested s lines t) :
    (chain find? nested s).Continues lines (chain find? nested t) := by
  have hst := straight_of_steps h
  by_cases hend : (straight find? nested t).ending = .complete
  · have hend' := hst.ending.trans hend
    obtain ⟨more, hsteps, -, -⟩ := steps_of_complete hend
    have hadv := h.advance.trans hsteps.advance
    obtain hrefs | hrefs | hrefs : (straight find? nested t).rest.remainingRefs = 0 ∨
        (straight find? nested t).rest.remainingRefs = 1 ∨ 1 < (straight find? nested t).rest.remainingRefs := by
      omega
    · rw [chain_of_complete hend hrefs, chain_of_complete hend' (hst.rest ▸ hrefs)]
      exact hst
    · obtain ⟨next, hnext, -⟩ := exists_next (hadv.sound hs) (by omega)
      rw [hadv.cell_eq] at hnext
      rw [chain_of_next hend hrefs (h.advance.cell_eq ▸ hnext),
        chain_of_next hend' (hst.rest ▸ hrefs) (by rw [hst.rest]; exact hnext)]
      refine ⟨?_, ?_, rfl⟩
      · simp only [Region.continueWith, hst.text, String.append_assoc]
      · simp only [Region.continueWith, hst.rest]
    · rw [chain_of_fork hend hrefs, chain_of_fork hend' (hst.rest ▸ hrefs)]
      exact ⟨hst.text, hst.rest, by rw [hst.rest]⟩
  · rw [chain_of_not_complete hend, chain_of_not_complete (hst.ending ▸ hend)]
    exact hst

/-- A run puts its lines in front of the listing of what it leaves, in either mode. -/
theorem region_of_steps (hs : s.Sound) (h : Steps find? nested s lines t) (continuing : Bool) :
    (region find? nested s continuing).Continues lines (region find? nested t continuing) := by
  cases continuing with
  | false => exact straight_of_steps h
  | true => exact chain_of_steps hs h

/-! ## Levels -/

/-- The lister of continuations within a listing in which `levels` more levels are allowed. -/
def bodies (find? : Dispatcher) (limit indent : Nat) : (levels : Nat) → Nested
  | 0 => fun _ _ => ⟨.error (.tooDeep limit), []⟩
  | levels + 1 => fun s continuing => (listing find? limit indent levels s continuing).rendered indent

theorem listing_eq (limit indent levels : Nat) (s : Slice) (continuing : Bool) :
    listing find? limit indent levels s continuing = region find? (bodies find? limit indent levels) s continuing := by
  cases levels <;> rfl

theorem bodies_succ (limit indent levels : Nat) (s : Slice) (continuing : Bool) :
    bodies find? limit indent (levels + 1) s continuing =
      (region find? (bodies find? limit indent levels) s continuing).rendered indent := by
  rw [← listing_eq]
  rfl

end TvmCode
