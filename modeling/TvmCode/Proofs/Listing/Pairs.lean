import TvmCode.Proofs.Coupling
import TvmCode.Proofs.Listing.Steps

/-!
# Two listings of the same code

Two listings of one slice find the same instructions and stop at the same places; they differ in how continuations are
shown, and only so. A `Pairing` says which bodies and which texts of the two belong together, and which faults of the
first listing are excused. If lines and blocks that belong together make texts that do (`Pairing.Kept`), and the
listings of continuations are paired, then so are the listings of one instruction (`step_paired`), of one slice
(`straight_paired`), of a chain (`chain_paired`) and of a region (`region_paired`).
-/

namespace TvmCode

/-- What belongs together in two listings of the same code. -/
structure Pairing where
  /-- The faults of the first listing after which the second may go on. -/
  excused : Fault → Prop
  bodies : String → String → Prop
  texts : String → String → Prop

/-- Texts that belong together are made of lines and blocks that do. -/
structure Pairing.Kept (Q : Pairing) (find? : Dispatcher) : Prop where
  empty : Q.texts "" ""
  append {t t' u u' : String} (h : Q.texts t t') (h' : Q.texts u u') : Q.texts (t ++ u) (t' ++ u')
  line {s : Slice} {i : Instr} {e : String} (hfind : find? s = some i) (he : i.form.Shows e) :
    Q.texts (e ++ "\n") (e ++ "\n")
  blocks {s : Slice} {i : Instr} {head : String} {ts us : List String} (hfind : find? s = some i)
    (hhead : i.form.Shows head) (h : List.Forall₂ Q.bodies ts us) :
    Q.texts (Form.withBlocks head ts ++ "\n") (Form.withBlocks head us ++ "\n")
  mark (s : Slice) : Q.texts (marker ++ s.toHex ++ "\n") (marker ++ s.toHex ++ "\n")
  join {ts us : List String} {t u : String} (hs : List.Forall₂ Q.bodies ts us) (h : Q.bodies t u) :
    Q.bodies (String.join ts ++ t) (String.join us ++ u)

/-- Two bodies of a continuation belong together, or both fail in the same way. -/
def Rendered.Paired (Q : Pairing) (r r' : Rendered) : Prop :=
  match r.text, r'.text with
  | .ok t, .ok t' => Q.bodies t t'
  | .error f, .error f' => Q.excused f ∨ f = f'
  | .error f, .ok _ => Q.excused f
  | .ok _, .error _ => False

/-- Two listers give bodies that belong together. -/
def Nested.Paired (Q : Pairing) (nested nested' : Nested) : Prop :=
  ∀ (s : Slice) (continuing : Bool), (nested s continuing).Paired Q (nested' s continuing)

/-- Two listings of a region: the second text starts with one that belongs to the first, and if the first listing does
not stop at an excused fault, the two end in the same way and at the same place. -/
structure Region.Paired (Q : Pairing) (r r' : Region) : Prop where
  starts : ∃ t u, r'.text = t ++ u ∧ Q.texts r.text t
  settles (h : ∀ f, r.ending = .failed f → ¬Q.excused f) :
    Q.texts r.text r'.text ∧ r.rest = r'.rest ∧ r.ending = r'.ending

/-! ## One instruction -/

namespace Pairing

variable {α : Type} {Q : Pairing} {find? : Dispatcher} {nested nested' : Nested}

/-- The runs of decoders over the same slice. -/
def coupling (Q : Pairing) : Coupling where
  cursors c c' := c.slice = c'.slice
  faults := Eq
  excused := Q.excused
  parts := Eq
  cells := Eq
  bodies := Q.bodies

theorem takeBits (look : Slice → Nat → α) (width : Int) :
    Q.coupling.Alongside Eq (Decoder.takeBits look width) (Decoder.takeBits look width) := by
  intro c c' (h : c.slice = c'.slice)
  rw [Decoder.takeBits_apply, Decoder.takeBits_apply, h]
  split
  · exact ⟨rfl, rfl⟩
  · exact Or.inr ⟨rfl, h⟩

theorem ref : Q.coupling.Alongside Eq Decoder.ref Decoder.ref := by
  intro c c' (h : c.slice = c'.slice)
  rw [Decoder.ref_apply, Decoder.ref_apply, h]
  split
  · exact ⟨rfl, rfl⟩
  · exact Or.inr ⟨rfl, h⟩

theorem body (hn : nested.Paired Q nested') (code : Slice) (continuing : Bool) :
    Q.coupling.Alongside Q.bodies (Form.body nested code continuing) (Form.body nested' code continuing) := by
  intro c c' hc
  have h := hn code continuing
  unfold Rendered.Paired at h
  rw [Form.body_apply, Form.body_apply]
  cases htext : (nested code continuing).text <;> cases htext' : (nested' code continuing).text <;>
    rw [htext, htext'] at h
  · exact h.imp id fun hf => ⟨hf, hc⟩
  · exact h
  · exact h
  · exact ⟨h, hc⟩

theorem Kept.reads (hQ : Q.Kept find?) (hn : nested.Paired Q nested') : Q.coupling.Reads nested nested' where
  nat width := takeBits _ width
  bits width := takeBits _ width
  ref := ref
  part hp := by
    cases hp
    exact body hn _ _
  cell hc := by
    cases hc
    exact body hn _ _
  digits := rfl
  hex hp := congrArg _ hp
  plain hp := congrArg _ (congrArg _ hp)
  join := hQ.join

end Pairing

/-- What stands at the front of the same code. -/
inductive Step.Paired (Q : Pairing) : Step → Step → Prop
  | line {e e' : String} {c c' : Cursor} (htext : Q.texts (e ++ "\n") (e' ++ "\n")) (h : c.slice = c'.slice) :
      Paired Q (.line e c) (.line e' c')
  | unknown : Paired Q .unknown .unknown
  | undecodable {c c' : Cursor} (h : c.slice = c'.slice) : Paired Q (.undecodable c) (.undecodable c')
  | failed {f : Fault} {c c' : Cursor} (h : c.slice = c'.slice) : Paired Q (.failed f c) (.failed f c')
  | excused {f : Fault} {c : Cursor} {a : Step} (h : Q.excused f) : Paired Q (.failed f c) a

section Pairs

variable {Q : Pairing} {find? : Dispatcher} {nested nested' : Nested}

theorem step_paired (hQ : Q.Kept find?) (hn : nested.Paired Q nested') (s : Slice) :
    (step find? nested s).Paired Q (step find? nested' s) := by
  unfold step
  cases hfind : find? s with
  | none => exact .unknown
  | some i =>
    have hdec := (hQ.reads hn).instr (L := fun e e' => Q.texts (e ++ "\n") (e' ++ "\n")) (fun _ => rfl) i
      (fun e he => hQ.line hfind he) (fun head ts us hhead htu => hQ.blocks hfind hhead htu) ⟨s, []⟩ ⟨s, []⟩ rfl
    cases hl : i.decode nested ⟨s, []⟩ with
    | error f c =>
      cases hr : i.decode nested' ⟨s, []⟩ with
      | error f' c' =>
        rw [hl, hr] at hdec
        simp only [hl, hr]
        rcases hdec with hexc | ⟨rfl, hc⟩
        · exact .excused hexc
        · exact .failed hc
      | ok r' c' =>
        rw [hl, hr] at hdec
        simp only [hl]
        exact .excused hdec
    | ok r c =>
      cases hr : i.decode nested' ⟨s, []⟩ with
      | error f' c' => rw [hl, hr] at hdec; exact hdec.elim
      | ok r' c' =>
        rw [hl, hr] at hdec
        obtain ⟨hrel, hc⟩ := hdec
        have hc : c.slice = c'.slice := hc
        cases hrel with
        | none =>
          simp only [hl, hr]
          exact .undecodable hc
        | some htext =>
          simp only [hl, hr, hc]
          split
          · exact .line htext hc
          · exact .undecodable hc

/-! ## Regions -/

theorem Region.paired_of_texts {r r' : Region} (htext : Q.texts r.text r'.text) (hrest : r.rest = r'.rest)
    (hend : r.ending = r'.ending) : r.Paired Q r' :=
  ⟨⟨r'.text, "", String.append_empty.symm, htext⟩, fun _ => ⟨htext, hrest, hend⟩⟩

theorem Region.paired_of_excused {r r' : Region} {f : Fault} (hend : r.ending = .failed f) (hf : Q.excused f)
    (hstarts : ∃ t u, r'.text = t ++ u ∧ Q.texts r.text t) : r.Paired Q r' :=
  ⟨hstarts, fun h => absurd hf (h f hend)⟩

theorem Region.Paired.afterLine (hQ : Q.Kept find?) {r r' : Region} {e e' : String} {ns ns' : List Note}
    (hline : Q.texts (e ++ "\n") (e' ++ "\n")) (h : r.Paired Q r') :
    (r.afterLine e ns).Paired Q (r'.afterLine e' ns') := by
  constructor
  · obtain ⟨t, u, htext, htexts⟩ := h.starts
    refine ⟨e' ++ "\n" ++ t, u, ?_, hQ.append hline htexts⟩
    simp only [Region.afterLine, htext, String.append_assoc]
  · intro hf
    obtain ⟨htexts, hrest, hend⟩ := h.settles hf
    exact ⟨hQ.append hline htexts, hrest, hend⟩

theorem straight_paired (hQ : Q.Kept find?) (hn : nested.Paired Q nested') (s : Slice) :
    (straight find? nested s).Paired Q (straight find? nested' s) := by
  by_cases hbits : s.remainingBits = 0
  · rw [straight_done hbits, straight_done hbits]
    exact Region.paired_of_texts hQ.empty rfl rfl
  · have hstep := step_paired hQ hn s
    generalize hs : step find? nested s = a at hstep
    generalize hs' : step find? nested' s = b at hstep
    cases hstep with
    | @line e e' c c' htext hc =>
      have := size_lt_of_step hs
      have ih := straight_paired hQ hn c.slice
      rw [straight_more hbits hs, straight_more hbits hs', ← hc]
      exact ih.afterLine hQ htext
    | unknown =>
      rw [straight_unknown hbits hs, straight_unknown hbits hs']
      exact Region.paired_of_texts (hQ.mark s) rfl rfl
    | undecodable hc =>
      rw [straight_undecodable hbits hs, straight_undecodable hbits hs']
      exact Region.paired_of_texts (hQ.mark s) hc rfl
    | failed hc =>
      rw [straight_failed hbits hs, straight_failed hbits hs']
      exact Region.paired_of_texts hQ.empty hc rfl
    | excused hf =>
      rw [straight_failed hbits hs]
      exact Region.paired_of_excused rfl hf ⟨"", _, String.empty_append.symm, hQ.empty⟩
termination_by s.size

theorem Region.Paired.continueWith (hQ : Q.Kept find?) {r r' later later' : Region} (htext : Q.texts r.text r'.text)
    (hrest : r.rest = r'.rest) (h : later.Paired Q later') :
    (r.continueWith later).Paired Q (r'.continueWith later') := by
  constructor
  · obtain ⟨t, u, hsplit, htexts⟩ := h.starts
    refine ⟨r'.text ++ t, u, ?_, hQ.append htext htexts⟩
    simp only [Region.continueWith, hsplit, String.append_assoc]
  · intro hf
    obtain ⟨htexts, -, hend⟩ := h.settles hf
    exact ⟨hQ.append htext htexts, hrest, hend⟩

/-- The chain of a slice starts with the listing of the slice. -/
theorem exists_text_chain (find? : Dispatcher) (nested : Nested) (s : Slice) :
    ∃ u, (chain find? nested s).text = (straight find? nested s).text ++ u := by
  rw [chain]
  split
  · split
    · exact ⟨"", String.append_empty.symm⟩
    · split
      · split
        · exact ⟨_, rfl⟩
        · exact ⟨"", String.append_empty.symm⟩
      · exact ⟨"", String.append_empty.symm⟩
  · exact ⟨"", String.append_empty.symm⟩

theorem chain_paired (hQ : Q.Kept find?) (hn : nested.Paired Q nested') (s : Slice) :
    (chain find? nested s).Paired Q (chain find? nested' s) := by
  have hst := straight_paired hQ hn s
  by_cases hexc : ∃ f, (straight find? nested s).ending = .failed f ∧ Q.excused f
  · obtain ⟨f, hend, hf⟩ := hexc
    obtain ⟨t, u, htext, htexts⟩ := hst.starts
    obtain ⟨more, hmore⟩ := exists_text_chain find? nested' s
    rw [chain_of_not_complete (by rw [hend]; simp)]
    exact Region.paired_of_excused hend hf ⟨t, u ++ more, by rw [hmore, htext, String.append_assoc], htexts⟩
  · obtain ⟨htexts, hrest, hend⟩ := hst.settles fun f hf hexcused => hexc ⟨f, hf, hexcused⟩
    by_cases hcomplete : (straight find? nested s).ending = .complete
    · have hcomplete' := hend.symm.trans hcomplete
      obtain h₀ | h₁ | h₂ : (straight find? nested s).rest.remainingRefs = 0 ∨
          (straight find? nested s).rest.remainingRefs = 1 ∨ 1 < (straight find? nested s).rest.remainingRefs := by
        omega
      · rw [chain_of_complete hcomplete h₀, chain_of_complete hcomplete' (hrest ▸ h₀)]
        exact hst
      · cases hnext : s.cell.refs[(straight find? nested s).rest.refPos]? with
        | none =>
          rw [chain_of_missing hcomplete h₁ hnext, chain_of_missing hcomplete' (hrest ▸ h₁) (hrest ▸ hnext)]
          exact hst
        | some next =>
          have := Cell.sizeOf_lt_of_mem_refs (List.mem_of_getElem? hnext)
          have ih := chain_paired hQ hn (Slice.ofCell next)
          rw [chain_of_next hcomplete h₁ hnext, chain_of_next hcomplete' (hrest ▸ h₁) (hrest ▸ hnext)]
          exact .continueWith hQ htexts (by rw [hrest]) ih
      · rw [chain_of_fork hcomplete h₂, chain_of_fork hcomplete' (hrest ▸ h₂)]
        exact Region.paired_of_texts htexts hrest (by rw [hrest])
    · rw [chain_of_not_complete hcomplete, chain_of_not_complete (hend ▸ hcomplete)]
      exact hst
termination_by sizeOf s.cell

/-- **Regions are listed in pairs** if the continuations within them are. -/
theorem region_paired (hQ : Q.Kept find?) (hn : nested.Paired Q nested') (s : Slice) (continuing : Bool) :
    (region find? nested s continuing).Paired Q (region find? nested' s continuing) := by
  cases continuing with
  | false => exact straight_paired hQ hn s
  | true => exact chain_paired hQ hn s

end Pairs

end TvmCode
