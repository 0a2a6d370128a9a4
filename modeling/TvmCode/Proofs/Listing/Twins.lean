import TvmCode.Proofs.CodePage
import TvmCode.Proofs.Coupling
import TvmCode.Proofs.Listing.Steps

/-!
# Listings of twins

What is listed depends on the bits and references of a slice alone: twins have the same text, and when they fail they
fail in the same way, at bit positions that differ as much as the slices do. All this needs of a dispatcher is that it
looks at nothing else and that what it finds fits what stands there (`Dispatcher.Faithful`).

The proof goes from the reads (`Coupling.twins`) to one instruction (`step_twin`), to runs (`Steps.twin`), to straight
listings, to chains, and by induction on the levels that are left to whole listings (`listing_twin`).
-/

namespace TvmCode

/-! ## Faults -/

namespace Fault

/-- The faults that code can cause. A wrong opcode is a fault of the dispatch table, and a number with too many digits
one of the declared operands. -/
def Recoverable : Fault → Prop
  | .underflow _ _ _ | .forkedTail _ _ | .tooDeep _ => True
  | .wrongOpcode _ _ _ | .tooManyDigits => False

/-- The fault of the same code `n` bits further on. -/
def later (n : Nat) : Fault → Fault
  | .underflow offset width kind => .underflow (offset + n) width kind
  | .forkedTail refs offset => .forkedTail refs (offset + n)
  | .tooDeep limit => .tooDeep limit
  | .wrongOpcode code width actual => .wrongOpcode code width actual
  | .tooManyDigits => .tooManyDigits

@[simp] theorem later_zero (f : Fault) : f.later 0 = f := by
  cases f <;> rfl

/-- A fault of code that lies `shift` bits further on. It is the same where it arose within another cell. -/
structure Follows (shift : Nat) (f f' : Fault) : Prop where
  opcode (code width : Int) (actual : Nat) : f ≠ .wrongOpcode code width actual
  eq_or_later : f = f' ∨ f = f'.later shift

theorem Follows.underflow (shift offset : Nat) (width : Int) (kind : Supply) :
    Follows shift (.underflow (offset + shift) width kind) (.underflow offset width kind) := ⟨nofun, Or.inr rfl⟩

theorem Follows.forkedTail (shift refs offset : Nat) :
    Follows shift (.forkedTail refs (offset + shift)) (.forkedTail refs offset) := ⟨nofun, Or.inr rfl⟩

/-- Too little is left of both. -/
theorem Follows.short (shift offset : Nat) (width : Int) (kind : Supply) :
    Follows shift (.short (offset + shift) width kind) (.short offset width kind) := by
  by_cases h : Text.Writable width
  · rw [short_of_writable h, short_of_writable h]
    exact .underflow shift offset width kind
  · rw [short_of_not_writable h, short_of_not_writable h]
    exact ⟨nofun, Or.inl rfl⟩

theorem Follows.eq {f f' : Fault} (h : Follows 0 f f') : f = f' := by
  rcases h.eq_or_later with h | h
  · exact h
  · rwa [later_zero] at h

/-- Faults of code within another cell do not depend on where its reference was taken. -/
theorem Follows.lift {f f' : Fault} (h : Follows 0 f f') (shift : Nat) : Follows shift f f' :=
  ⟨h.opcode, Or.inl h.eq⟩

end Fault

/-! ## Reads -/

/-- The runs of decoders over twins. -/
def Coupling.twins (shift : Nat) : Coupling where
  cursors c c' := c.slice.Twin shift c'.slice
  faults := Fault.Follows shift
  excused _ := False
  parts := Slice.Twin shift
  cells c c' := c.WellFormed ∧ c'.WellFormed ∧ c.BitEq c'
  bodies := Eq

/-- Bodies of continuations that are twins: the same text or corresponding faults. -/
def Rendered.Alike (shift : Nat) (r r' : Rendered) : Prop :=
  match r.text, r'.text with
  | .ok text, .ok text' => text = text'
  | .error f, .error f' => f.Follows shift f'
  | _, _ => False

/-- Two listers of continuations treat twins alike. -/
def Nested.Alike (nested nested' : Nested) : Prop :=
  ∀ (shift : Nat) (s t : Slice) (continuing : Bool), s.Twin shift t →
    (nested s continuing).Alike shift (nested' t continuing)

theorem Rendered.Alike.lift {r r' : Rendered} (h : r.Alike 0 r') (shift : Nat) : r.Alike shift r' := by
  unfold Rendered.Alike at h ⊢
  split at h
  · exact h
  · exact h.lift shift
  · exact h.elim

namespace Coupling

variable {α : Type} {shift : Nat}

theorem twins_takeBits {look : Slice → Nat → α} {R : α → α → Prop}
    (hlook : ∀ s t n, s.Twin shift t → n ≤ s.remainingBits → R (look s n) (look t n)) (width : Int) :
    (twins shift).Alongside R (Decoder.takeBits look width) (Decoder.takeBits look width) := by
  intro c c' (h : c.slice.Twin shift c'.slice)
  have hlen := h.remainingBits_eq
  have hpos := h.left.valid.1
  have hpos' := h.right.valid.1
  rw [Decoder.takeBits_apply, Decoder.takeBits_apply]
  unfold Slice.remainingBits at hlen
  by_cases hroom : 0 ≤ width ∧ c.slice.bitPos + width.toNat ≤ c.slice.bitEnd
  · have hn : width.toNat ≤ c.slice.remainingBits := by unfold Slice.remainingBits; omega
    rw [if_pos hroom, if_pos (by omega)]
    exact ⟨hlook _ _ _ h hn, h.dropBits hn⟩
  · rw [if_neg hroom, if_neg (by omega)]
    exact Or.inr ⟨h.pos ▸ .short shift c'.slice.bitPos width .bits, h⟩

theorem twins_ref : (twins shift).Alongside (twins shift).cells Decoder.ref Decoder.ref := by
  intro c c' (h : c.slice.Twin shift c'.slice)
  have hlen := h.remainingRefs_eq
  have hpos := h.left.valid.2.2
  have hpos' := h.right.valid.2.2
  rw [Decoder.ref_apply, Decoder.ref_apply]
  unfold Slice.remainingRefs at hlen
  by_cases hroom : c.slice.refPos < c.slice.refEnd
  · have hn : 0 < c.slice.remainingRefs := by unfold Slice.remainingRefs; omega
    rw [if_pos hroom, if_pos (by omega)]
    have hl := List.mem_of_mem_head? (Slice.getD_refs_eq h.left hn)
    have hr := List.mem_of_mem_head? (Slice.getD_refs_eq h.right (h.remainingRefs_eq ▸ hn))
    exact ⟨⟨h.left.cell.of_mem_refs (Slice.mem_refs_of_mem hl), h.right.cell.of_mem_refs (Slice.mem_refs_of_mem hr),
      h.next hn⟩, h.dropRefs hn⟩
  · rw [if_neg hroom, if_neg (by omega)]
    exact Or.inr ⟨h.pos ▸ .underflow shift c'.slice.bitPos 1 .refs, h⟩

/-- The listing of a continuation goes alongside that of a twin, wherever the two stand. -/
theorem twins_body {nested nested' : Nested} {code code' : Slice} {continuing : Bool}
    (h : (nested code continuing).Alike shift (nested' code' continuing)) :
    (twins shift).Alongside Eq (Form.body nested code continuing) (Form.body nested' code' continuing) := by
  intro c c' hc
  unfold Rendered.Alike at h
  rw [Form.body_apply, Form.body_apply]
  cases htext : (nested code continuing).text <;> cases htext' : (nested' code' continuing).text <;>
    rw [htext, htext'] at h
  · exact Or.inr ⟨h, hc⟩
  · exact h.elim
  · exact h.elim
  · exact ⟨h, hc⟩

theorem eq_of_twins_bodies {ts us : List String} (h : List.Forall₂ (twins shift).bodies ts us) : ts = us := by
  have h : List.Forall₂ Eq ts us := h
  rwa [List.forall₂_eq_eq_eq] at h

theorem twins_reads {nested nested' : Nested} (h : nested.Alike nested') : (twins shift).Reads nested nested' where
  nat width := by
    rw [Decoder.nat_eq]
    refine twins_takeBits ?_ width
    intro s t n hst hn
    exact hst.bitsAt_eq hn
  bits width := by
    rw [Decoder.bits_eq]
    refine twins_takeBits ?_ width
    intro s t n hst hn
    exact hst.front hn
  ref := twins_ref
  part hp := twins_body (h _ _ _ false hp)
  cell hc := twins_body ((h _ _ _ true (.ofCell hc.1 hc.2.1 hc.2.2)).lift shift)
  digits := ⟨nofun, Or.inl rfl⟩
  hex hp := hp.toHex_eq
  plain hp := hp.trimMarker.toHex_eq
  join hs h := congrArg₂ (String.join · ++ ·) (eq_of_twins_bodies hs) h

end Coupling

/-! ## One instruction -/

/-- A dispatcher that looks at the bits of a slice alone, where what it finds fits what stands there and is found again
as long as the bits that it fits are there. -/
structure Dispatcher.Faithful (find? : Dispatcher) : Prop where
  twin {shift : Nat} {s t : Slice} (h : s.Twin shift t) : find? s = find? t
  fits {s : Slice} {i : Instr} (hs : s.Sound) (h : find? s = some i) :
    ∃ bits, 0 < bits ∧ bits ≤ s.remainingBits ∧ i.fits (natOfBits (s.bits.take bits)) bits = true ∧
      ∀ bitEnd refEnd, s.bitPos + bits ≤ bitEnd → find? (s.withEnds bitEnd refEnd) = some i

/-- Code page zero dispatches faithfully. -/
theorem CodePage.faithful_zero : Dispatcher.Faithful zero.find? where
  twin h := Slot.find?_of_bits_eq _ h.left h.right h.bits
  fits hs h := fits_of_find? hs h

/-- A byte of zeros is the instruction that does nothing. -/
theorem CodePage.step_nop {s : Slice} (hs : s.Sound) (h : s.Starts [0]) (nested : Nested) :
    step zero.find? nested s = .line "NOP" ⟨s.dropBits 8, []⟩ := by
  have hfind : zero.find? s = some (.plain "NOP" 0 8) :=
    find?_eq_some_iff.mpr ⟨[0], .byte (List.mem_of_getElem? (show zeroRecords[0]? = _ from rfl)), h⟩
  obtain ⟨hroom, hbyte, -⟩ := h
  rw [Slice.bitsAt_eq hs hroom] at hbyte
  have hagree : Opcode.agree [⟨0, 8⟩] (natOfBits (s.bits.take 8)) 8 = true := by
    rw [hbyte]
    decide
  obtain ⟨us, hus⟩ := Opcode.each_check_eq_ok hs hroom hagree []
  refine step_eq_line_iff.mpr ⟨_, hfind, ?_, (Slice.Advance.dropBits hroom).size_lt ?_⟩
  · rw [Instr.decode, Decoder.bind_apply, Instr.plain, hus]
    rfl
  · simp [Slice.dropBits]

/-- A short continuation within the code. -/
theorem CodePage.step_pushcont {s : Slice} (hs : s.Sound) {n : Nat} (hn : n < 16) (h : s.Starts [0x90 + n])
    (hroom : 8 + 8 * n ≤ s.remainingBits) (nested : Nested) :
    step zero.find? nested s =
      match nested ((s.dropBits 8).front (8 * n)) false with
      | ⟨.ok text, notes⟩ => .line (Form.withBlocks "PUSHCONT" ["" ++ text]) ⟨s.dropBits (8 + 8 * n), notes⟩
      | ⟨.error f, notes⟩ => .failed f ⟨s.dropBits (8 + 8 * n), notes⟩ := by
  have hmem := List.mem_of_getElem? (show zeroRecords[54]? = _ from rfl)
  have hfind : zero.find? s = some ⟨[⟨0x9, 4⟩], .inlineBody "PUSHCONT" 0 4⟩ :=
    find?_eq_some_iff.mpr ⟨[0x90 + n], .span hmem (by simp) (by simp; omega), h⟩
  obtain ⟨hbyte, hvalue, -⟩ := h
  rw [Slice.bitsAt_eq hs hbyte] at hvalue
  have hagree : Opcode.agree [⟨0x9, 4⟩] (natOfBits (s.bits.take 8)) 8 = true := by
    have hfirst : Opcode.agree [⟨0x9, 4⟩] 0x90 8 = true := by decide
    have hlast : Opcode.agree [⟨0x9, 4⟩] 0x9f 8 = true := by decide
    exact hvalue ▸ Opcode.agree_between hfirst hlast (by omega) (by omega)
  obtain ⟨us, hus⟩ := Opcode.each_check_eq_ok hs hbyte hagree []
  have h₄ := hs.dropBits (show 4 ≤ s.remainingBits by omega)
  have hsize : natOfBits ((s.dropBits 4).bits.take 4) = n := by
    have hmod := natOfBits_take_mod (show 4 ≤ 8 by decide) (hs.length_bits ▸ hbyte)
    rw [Slice.bits_dropBits, ← hmod, hvalue]
    omega
  have hread : Instr.decode nested ⟨[⟨0x9, 4⟩], .inlineBody "PUSHCONT" 0 4⟩ ⟨s, []⟩ =
      Form.inlineBlock nested "PUSHCONT" 0 n ⟨s.dropBits 8, []⟩ := by
    rw [Instr.decode, Decoder.bind_apply, hus, Form.decode_inlineBody]
    show (do Form.inlineBlock nested "PUSHCONT" (← Decoder.nat (0 : Nat)) (← Decoder.nat (4 : Nat)) :
      Decoder (Option String)) ⟨s.dropBits 4, []⟩ = _
    rw [Decoder.bind_apply, Decoder.nat_apply h₄ (Nat.zero_le _)]
    show (do Form.inlineBlock nested "PUSHCONT" 0 (← Decoder.nat (4 : Nat)) : Decoder (Option String))
      ⟨s.dropBits 4, []⟩ = _
    rw [Decoder.bind_apply, Decoder.nat_apply h₄ (by rw [Slice.remainingBits_dropBits]; omega), hsize]
    rfl
  have hblock := Form.inlineBlock_apply nested "PUSHCONT" (hs.dropBits hbyte) (n := n)
    (by rw [Slice.remainingBits_dropBits]; omega) []
  rw [Slice.dropBits_dropBits] at hblock
  unfold step
  rw [hfind]
  simp only [hread, hblock]
  obtain ⟨text, notes⟩ := nested ((s.dropBits 8).front (8 * n)) false
  cases text with
  | error f => rfl
  | ok text =>
    have hlt := (Slice.Advance.dropBits hroom).size_lt (by simp [Slice.dropBits])
    simp only [List.nil_append, if_pos hlt]

/-- Two dispatchers find the same at the front of every sound slice. -/
def Dispatcher.Same (find? find?' : Dispatcher) : Prop := ∀ s : Slice, s.Sound → find? s = find?' s

/-- What stands at the front of twins. -/
inductive Step.Alike (shift : Nat) : Step → Step → Prop
  | line {text : String} {c c' : Cursor} (h : c.slice.Twin shift c'.slice) : Alike shift (.line text c) (.line text c')
  | unknown : Alike shift .unknown .unknown
  | undecodable {c c' : Cursor} (h : c.slice.Twin shift c'.slice) : Alike shift (.undecodable c) (.undecodable c')
  | failed {f f' : Fault} {c c' : Cursor} (hf : f.Follows shift f') (h : c.slice.Twin shift c'.slice) :
      Alike shift (.failed f c) (.failed f' c')

section Twins

variable {find? find?' : Dispatcher} {nested nested' : Nested} {shift : Nat} {s t u : Slice} {lines : List String}

/-- Twins are decoded alike by an instruction that fits. -/
theorem Instr.decode_twin {i : Instr} {bits : Nat} (hn : nested.Alike nested') (h : s.Twin shift t)
    (hroom : bits ≤ s.remainingBits) (hfits : i.fits (natOfBits (s.bits.take bits)) bits = true) :
    (Coupling.twins shift).Agree (Option.Rel Eq) (i.decode nested ⟨s, []⟩) (i.decode nested' ⟨t, []⟩) := by
  have htotal := Opcode.total_le (fits_iff.mp hfits).1
  rw [decode_of_fits h.left hroom hfits, decode_of_fits h.right (h.remainingBits_eq ▸ hroom) (h.bits ▸ hfits)]
  refine (Coupling.twins_reads hn).form i.form (fun _ _ => rfl) ?_ _ _ (h.dropBits (by omega))
  intro head ts us _ htu
  rw [Coupling.eq_of_twins_bodies htu]

theorem Slice.Twin.size_eq (h : s.Twin shift t) : s.size = t.size := by
  rw [size, size, h.remainingBits_eq, h.remainingRefs_eq]

/-- Twins start alike. -/
theorem step_twin (hf : find?.Faithful) (hsame : find?.Same find?') (hn : nested.Alike nested')
    (h : s.Twin shift t) : (step find? nested s).Alike shift (step find?' nested' t) := by
  have hfind : find? s = find?' t := (hf.twin h).trans (hsame t h.right)
  unfold step
  rw [← hfind]
  cases hs : find? s with
  | none => exact .unknown
  | some i =>
    obtain ⟨bits, -, hroom, hfits, -⟩ := hf.fits h.left hs
    rcases (Instr.decode_twin hn h hroom hfits).both fun _ => id with
      ⟨r, r', c, c', hl, hr, hrel, hc⟩ | ⟨f, f', c, c', hl, hr, hfault, hc⟩
    · have hc : c.slice.Twin shift c'.slice := hc
      cases hrel with
      | none =>
        simp only [hl, hr]
        exact .undecodable hc
      | some htext =>
        subst htext
        simp only [hl, hr, hc.size_eq, h.size_eq]
        split
        · exact .line hc
        · exact .undecodable hc
    · simp only [hl, hr]
      exact .failed hfault hc

/-! ## Straight listings -/

/-- Runs over twins. -/
theorem Steps.twin (hf : find?.Faithful) (hsame : find?.Same find?') (hn : nested.Alike nested')
    (hsteps : Steps find? nested s lines u) (h : s.Twin shift t) :
    ∃ v, Steps find?' nested' t lines v ∧ u.Twin shift v := by
  induction hsteps generalizing t with
  | done s => exact ⟨t, .done t, h⟩
  | @more s u text c lines hbits hstep _ ih =>
    have halike := step_twin hf hsame hn h
    rw [hstep] at halike
    cases hr : step find?' nested' t with
    | line text' c' =>
      rw [hr] at halike
      cases halike with
      | line hc =>
        obtain ⟨v, hv, huv⟩ := ih hc
        exact ⟨v, .more (h.remainingBits_eq ▸ hbits) hr hv, huv⟩
    | unknown => rw [hr] at halike; cases halike
    | undecodable c' => rw [hr] at halike; cases halike
    | failed f' c' => rw [hr] at halike; cases halike

/-- Twin code ends alike. -/
inductive Ending.Alike (shift : Nat) : Ending → Ending → Prop
  | complete : Alike shift .complete .complete
  | marked : Alike shift .marked .marked
  | failed {f f' : Fault} (h : f.Follows shift f') : Alike shift (.failed f) (.failed f')

/-- Twin code is listed alike. -/
structure Region.Alike (shift : Nat) (r r' : Region) : Prop where
  text : r.text = r'.text
  rest : r.rest.Twin shift r'.rest
  ending : r.ending.Alike shift r'.ending

theorem Ending.Alike.lift {e e' : Ending} (h : e.Alike 0 e') (n : Nat) : e.Alike n e' := by
  cases h with
  | complete => exact .complete
  | marked => exact .marked
  | failed h => exact .failed (h.lift n)

theorem Ending.Alike.eq {e e' : Ending} (h : e.Alike 0 e') : e = e' := by
  cases h with
  | complete => rfl
  | marked => rfl
  | failed h => rw [h.eq]

theorem straight_twin (hf : find?.Faithful) (hsame : find?.Same find?') (hn : nested.Alike nested') {s t : Slice}
    (h : s.Twin shift t) : (straight find? nested s).Alike shift (straight find?' nested' t) := by
  by_cases hbits : s.remainingBits = 0
  · rw [straight_done hbits, straight_done (h.remainingBits_eq ▸ hbits)]
    exact ⟨rfl, h, .complete⟩
  · have hbits' : t.remainingBits ≠ 0 := h.remainingBits_eq ▸ hbits
    have halike := step_twin hf hsame hn h
    generalize hs : step find? nested s = a at halike
    generalize ht : step find?' nested' t = b at halike
    cases halike with
    | line hc =>
      have := size_lt_of_step hs
      have ih := straight_twin hf hsame hn hc
      rw [straight_more hbits hs, straight_more hbits' ht]
      refine ⟨?_, ih.rest, ih.ending⟩
      simp only [Region.afterLine, ih.text]
    | unknown =>
      rw [straight_unknown hbits hs, straight_unknown hbits' ht]
      refine ⟨?_, h, .marked⟩
      simp only [markedRegion, h.toHex_eq]
    | undecodable hc =>
      rw [straight_undecodable hbits hs, straight_undecodable hbits' ht]
      refine ⟨?_, hc, .marked⟩
      simp only [markedRegion, h.toHex_eq]
    | failed hfault hc =>
      rw [straight_failed hbits hs, straight_failed hbits' ht]
      exact ⟨rfl, hc, .failed hfault⟩
termination_by s.size

/-! ## Chains and whole listings -/

theorem chain_twin (hf : find?.Faithful) (hsame : find?.Same find?') (hn : nested.Alike nested') {shift : Nat}
    {s t : Slice} (h : s.Twin shift t) : (chain find? nested s).Alike shift (chain find?' nested' t) := by
  have hst := straight_twin hf hsame hn h
  have hrefs := hst.rest.remainingRefs_eq
  by_cases hend : (straight find? nested s).ending = .complete
  · have hend' : (straight find?' nested' t).ending = .complete := by
      have halike := hst.ending
      rw [hend] at halike
      generalize (straight find?' nested' t).ending = e at halike
      cases halike
      rfl
    obtain h₀ | h₁ | h₂ : (straight find? nested s).rest.remainingRefs = 0 ∨
        (straight find? nested s).rest.remainingRefs = 1 ∨ 1 < (straight find? nested s).rest.remainingRefs := by
      omega
    · rw [chain_of_complete hend h₀, chain_of_complete hend' (hrefs ▸ h₀)]
      exact hst
    · obtain ⟨next, hnext, hw⟩ := exists_next hst.rest.left (by omega)
      obtain ⟨next', hnext', hw'⟩ := exists_next hst.rest.right (by omega)
      have hlike := hst.rest.next (by omega)
      rw [List.getD_eq_getElem?_getD, List.getD_eq_getElem?_getD, hnext, hnext'] at hlike
      rw [(rest_of_complete hend).cell_eq] at hnext
      rw [(rest_of_complete hend').cell_eq] at hnext'
      have := Cell.sizeOf_lt_of_mem_refs (List.mem_of_getElem? hnext)
      have ih := chain_twin hf hsame hn (.ofCell hw hw' hlike)
      rw [chain_of_next hend h₁ hnext, chain_of_next hend' (hrefs ▸ h₁) hnext']
      refine ⟨?_, hst.rest.dropRefs (by omega), ih.ending.lift shift⟩
      simp only [Region.continueWith, hst.text, ih.text]
    · rw [chain_of_fork hend h₂, chain_of_fork hend' (hrefs ▸ h₂)]
      refine ⟨hst.text, hst.rest, .failed ?_⟩
      rw [hrefs, hst.rest.pos]
      exact .forkedTail shift _ _
  · have hend' : (straight find?' nested' t).ending ≠ .complete := by
      intro hcomplete
      have halike := hst.ending
      rw [hcomplete] at halike
      generalize (straight find? nested s).ending = e at halike hend
      cases halike
      exact hend rfl
    rw [chain_of_not_complete hend, chain_of_not_complete hend']
    exact hst
termination_by sizeOf s.cell

theorem region_twin (hf : find?.Faithful) (hsame : find?.Same find?') (hn : nested.Alike nested')
    (h : s.Twin shift t) (continuing : Bool) :
    (region find? nested s continuing).Alike shift (region find?' nested' t continuing) := by
  cases continuing with
  | false => exact straight_twin hf hsame hn h
  | true => exact chain_twin hf hsame hn h

theorem Region.Alike.rendered {r r' : Region} (h : r.Alike shift r') (indent : Nat) :
    (r.rendered indent).Alike shift (r'.rendered indent) := by
  obtain ⟨text, rest, notes, ending⟩ := r
  obtain ⟨text', rest', notes', ending'⟩ := r'
  obtain ⟨htext, -, hending⟩ := h
  simp only at htext hending
  cases hending with
  | complete => exact congrArg _ htext
  | marked => exact congrArg _ htext
  | failed hfault => exact hfault

theorem bodies_alike (hf : find?.Faithful) (hsame : find?.Same find?') (limit indent levels : Nat) :
    (bodies find? limit indent levels).Alike (bodies find?' limit indent levels) := by
  induction levels with
  | zero =>
    intro shift s t continuing _
    exact ⟨nofun, Or.inl rfl⟩
  | succ levels ih =>
    intro shift s t continuing h
    rw [bodies_succ, bodies_succ]
    exact (region_twin hf hsame ih h continuing).rendered indent

/-- **Twins are listed alike**, also under two dispatchers that find the same. -/
theorem listing_twin (hf : find?.Faithful) (hsame : find?.Same find?') (limit indent levels : Nat)
    (h : s.Twin shift t) (continuing : Bool) :
    (listing find? limit indent levels s continuing).Alike shift
      (listing find?' limit indent levels t continuing) := by
  rw [listing_eq, listing_eq]
  exact region_twin hf hsame (bodies_alike hf hsame limit indent levels) h continuing

end Twins

end TvmCode
