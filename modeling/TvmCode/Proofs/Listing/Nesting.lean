import TvmCode.Proofs.Listing.Indentation

/-!
# How deep continuations nest

A continuation is either a part of the bits of the code around it, shorter by a byte at least and without references,
or a cell behind one of its references. So code in a tree of cells nests no deeper than the tree is high and one cell is
long: a limit of the height of the tree and 127 more levels is never met (`disassemble_bounded`).

`Slice.nesting` bounds the levels within a slice, and the continuations of a slice have a smaller bound
(`Slice.nesting_part_lt`, `Slice.nesting_cell_lt`). Two listers that agree about all slices below a bound, and find none
of them too deep, therefore list a slice at the bound alike (`region_settled`). By induction on the bound the limit is
immaterial (`listing_settled`), and so is whether there is one at all: listing without a limit (`Unlimited`) has just
one meaning, and it is what enough levels give (`Unlimited.eq_listing`).
-/

namespace TvmCode

/-! ## Bounds -/

theorem foldr_max_le_iff {base n : Nat} {l : List Nat} : l.foldr max base ≤ n ↔ base ≤ n ∧ ∀ a ∈ l, a ≤ n := by
  induction l with
  | nil => simp
  | cons a l ih =>
    rw [List.foldr_cons, Nat.max_le, ih, List.forall_mem_cons]
    exact and_left_comm

/-- The number of references on the longest path down a tree of cells. -/
def Cell.height (c : Cell) : Nat := (c.refs.attach.map fun d => height d.1 + 1).foldr max 0
termination_by sizeOf c
decreasing_by exact Cell.sizeOf_lt_of_mem_refs d.2

theorem Cell.height_le_iff {c : Cell} {n : Nat} : c.height ≤ n ↔ ∀ d ∈ c.refs, d.height + 1 ≤ n := by
  rw [height, foldr_max_le_iff]
  simp

theorem Cell.height_lt_of_mem_refs {c d : Cell} (h : d ∈ c.refs) : d.height < c.height :=
  height_le_iff.mp (Nat.le_refl c.height) d h

namespace Slice

variable {s t : Slice}

/-- A bound for the levels of continuations within a slice. Bits alone hold a level for each byte, and a cell behind a
reference is a level of its own, as long as cells can be. -/
def nesting (s : Slice) : Nat := (s.refs.map fun c => c.height + maxBits / 8 + 1).foldr max (s.remainingBits / 8)

theorem nesting_le_iff {n : Nat} :
    s.nesting ≤ n ↔ s.remainingBits / 8 ≤ n ∧ ∀ c ∈ s.refs, c.height + maxBits / 8 + 1 ≤ n := by
  rw [nesting, foldr_max_le_iff, List.forall_mem_map]

theorem Advance.remainingBits_le (h : s.Advance t) : t.remainingBits ≤ s.remainingBits := by
  obtain ⟨a, b, -, -, rfl⟩ := h
  simp only [remainingBits_dropRefs, remainingBits_dropBits]
  omega

theorem Advance.mem_refs (h : s.Advance t) {c : Cell} (hc : c ∈ t.refs) : c ∈ s.refs := by
  obtain ⟨a, b, -, -, rfl⟩ := h
  rw [refs_dropRefs, refs_dropBits] at hc
  exact List.mem_of_mem_drop hc

/-- What is left of a slice does not nest deeper. -/
theorem Advance.nesting_le (h : s.Advance t) : t.nesting ≤ s.nesting := by
  obtain ⟨hbits, hrefs⟩ := nesting_le_iff.mp (Nat.le_refl s.nesting)
  have hle := h.remainingBits_le
  exact nesting_le_iff.mpr ⟨by omega, fun c hc => hrefs c (h.mem_refs hc)⟩

/-- A tree of cells nests no deeper than it is high and one cell is long. -/
theorem Sound.nesting_le (hs : s.Sound) : s.nesting ≤ s.cell.height + maxBits / 8 := by
  have hlen := hs.cell.bitLen_le
  have hv := hs.valid
  refine nesting_le_iff.mpr ⟨?_, fun c hc => ?_⟩
  · unfold Valid at hv
    unfold remainingBits
    omega
  · have := Cell.height_lt_of_mem_refs (mem_refs_of_mem hc)
    omega

/-- A part without references nests less deep than the slice, from which a byte more was taken. -/
theorem nesting_part_lt {p : Slice} (hrefs : p.refs = []) (hbits : p.remainingBits + 8 ≤ s.remainingBits) :
    p.nesting < s.nesting := by
  obtain ⟨hs, -⟩ := nesting_le_iff.mp (Nat.le_refl s.nesting)
  have hp : p.nesting ≤ p.remainingBits / 8 := nesting_le_iff.mpr ⟨Nat.le_refl _, by simp [hrefs]⟩
  omega

/-- A cell behind a reference nests less deep than the slice. -/
theorem nesting_cell_lt {c : Cell} (hc : c.WellFormed) (hmem : c ∈ s.refs) : (ofCell c).nesting < s.nesting := by
  have hle : (ofCell c).nesting ≤ c.height + maxBits / 8 := (sound_ofCell hc).nesting_le
  have := (nesting_le_iff.mp (Nat.le_refl s.nesting)).2 c hmem
  omega

end Slice

/-! ## Instructions -/

/-- Two listers list a continuation in the same way, and it is not too deep for them. -/
structure Nested.Settles (nested nested' : Nested) (p : Slice) (continuing : Bool) : Prop where
  same : nested p continuing = nested' p continuing
  shallow (limit : Nat) : (nested p continuing).text ≠ .error (.tooDeep limit)

/-- A run under two listers over what is left of a slice. It is the same run and meets nothing too deep. -/
def Coupling.settled (b : Slice) : Coupling where
  cursors c c' := c = c' ∧ b.Advance c.slice
  faults f f' := f = f' ∧ ∀ limit, f ≠ .tooDeep limit
  excused _ := False
  parts p p' := p = p' ∧ p.Sound ∧ p.refs = [] ∧ p.remainingBits ≤ b.remainingBits
  cells c c' := c = c' ∧ c ∈ b.refs
  bodies := Eq

theorem Fault.short_ne_tooDeep (offset : Nat) (width : Int) (kind : Supply) (limit : Nat) :
    Fault.short offset width kind ≠ .tooDeep limit := by
  unfold short
  split
  · nofun
  · nofun

namespace Coupling

variable {α : Type} {nested nested' : Nested} {b : Slice}

theorem settled_takeBits {look : Slice → Nat → α} {R : α → α → Prop}
    (hlook : ∀ s n, b.Advance s → n ≤ s.remainingBits → R (look s n) (look s n)) (width : Int) :
    (settled b).Alongside R (Decoder.takeBits look width) (Decoder.takeBits look width) := by
  rintro c _ ⟨rfl, hc⟩
  rw [Decoder.takeBits_apply]
  split
  · have hroom : width.toNat ≤ c.slice.remainingBits := by unfold Slice.remainingBits; omega
    exact ⟨hlook _ _ hc hroom, rfl, hc.trans (.dropBits hroom)⟩
  · exact Or.inr ⟨⟨rfl, Fault.short_ne_tooDeep _ _ _⟩, rfl, hc⟩

theorem settled_ref (hb : b.Sound) : (settled b).Alongside (settled b).cells Decoder.ref Decoder.ref := by
  rintro c _ ⟨rfl, hc⟩
  rw [Decoder.ref_apply]
  split
  · have hroom : 0 < c.slice.remainingRefs := by unfold Slice.remainingRefs; omega
    have hmem := List.mem_of_mem_head? (Slice.getD_refs_eq (hc.sound hb) hroom)
    exact ⟨⟨rfl, hc.mem_refs hmem⟩, rfl, hc.trans (.dropRefs hroom)⟩
  · exact Or.inr ⟨⟨rfl, nofun⟩, rfl, hc⟩

theorem settled_body {p : Slice} {continuing : Bool} (h : nested.Settles nested' p continuing) :
    (settled b).Alongside Eq (Form.body nested p continuing) (Form.body nested' p continuing) := by
  rintro c _ ⟨rfl, hc⟩
  rw [Form.body_apply, Form.body_apply, ← h.same]
  cases htext : (nested p continuing).text with
  | ok text => exact ⟨rfl, rfl, hc⟩
  | error f =>
    refine Or.inr ⟨⟨rfl, ?_⟩, rfl, hc⟩
    rintro limit rfl
    exact h.shallow limit htext

theorem settled_looks (hb : b.Sound) (hcells : ∀ c ∈ b.refs, nested.Settles nested' (.ofCell c) true) :
    (settled b).Looks nested nested' where
  nat width := settled_takeBits (fun _ _ _ _ => rfl) width
  bits width := by
    rw [Decoder.bits_eq]
    refine settled_takeBits ?_ width
    intro s n hs hn
    refine ⟨rfl, (hs.sound hb).front hn, Slice.refs_front s n, ?_⟩
    rw [Slice.remainingBits_front]
    exact Nat.le_trans hn hs.remainingBits_le
  ref := settled_ref hb
  cell := by
    rintro c _ ⟨rfl, hc⟩
    exact settled_body (hcells c hc)
  digits := ⟨rfl, nofun⟩
  hex hp := congrArg _ hp.1
  plain hp := congrArg _ (congrArg _ hp.1)

theorem settled_reads (hb : b.Sound) (hcells : ∀ c ∈ b.refs, nested.Settles nested' (.ofCell c) true)
    (hparts : ∀ p : Slice, p.Sound → p.refs = [] → p.remainingBits ≤ b.remainingBits →
      nested.Settles nested' p false) : (settled b).Reads nested nested' where
  toLooks := settled_looks hb hcells
  part := by
    rintro p _ ⟨rfl, hp, hrefs, hbits⟩
    exact settled_body (hparts p hp hrefs hbits)
  join {ts us t u} hs h := by
    have hsame : ts = us := List.forall₂_eq_eq_eq ▸ hs
    exact congrArg₂ (String.join · ++ ·) hsame h

/-- What holds of a run over what is left of a slice holds of it as a run over the slice. -/
theorem settled_agree_of_advance {b' : Slice} (h : b.Advance b') {R : α → α → Prop}
    {x y : EStateM.Result Fault Cursor α} (hxy : (settled b').Agree R x y) : (settled b).Agree R x y := by
  cases x <;> cases y
  · exact ⟨hxy.1, hxy.2.1, h.trans hxy.2.2⟩
  · exact hxy
  · exact hxy
  · exact hxy.imp id fun hf => ⟨hf.1, hf.2.1, h.trans hf.2.2⟩

/-- A number is read, and the run goes on over what is left after it. -/
theorem settled_nat_bind {d d' : Nat → Decoder α} {R : α → α → Prop} {width : Nat}
    (h : ∀ c : Slice, b.Advance c → width ≤ c.remainingBits → ∀ n,
      (settled (c.dropBits width)).Alongside R (d n) (d' n)) :
    (settled b).Alongside R (Decoder.nat width >>= d) (Decoder.nat width >>= d') := by
  rintro c _ ⟨rfl, hc⟩
  rw [Decoder.bind_apply, Decoder.bind_apply, Decoder.nat_eq, Decoder.takeBits_apply, Int.toNat_natCast]
  by_cases hroom : (0 : Int) ≤ width ∧ c.slice.bitPos + width ≤ c.slice.bitEnd
  · have hwidth : width ≤ c.slice.remainingBits := by unfold Slice.remainingBits; omega
    rw [if_pos hroom]
    exact settled_agree_of_advance (hc.trans (.dropBits hwidth)) (h _ hc hwidth _ _ _ ⟨rfl, .refl _⟩)
  · rw [if_neg hroom]
    exact Or.inr ⟨⟨rfl, Fault.short_ne_tooDeep _ _ _⟩, rfl, hc⟩

/-- A continuation within an instruction is a part of what is left after the counts of its references and bytes. -/
theorem settled_inlineBody (hb : b.Sound) (hcells : ∀ c ∈ b.refs, nested.Settles nested' (.ofCell c) true)
    {name : String} {refBits sizeBits : Nat}
    (hparts : ∀ p : Slice, p.Sound → p.refs = [] → p.remainingBits + (refBits + sizeBits) ≤ b.remainingBits →
      nested.Settles nested' p false) :
    (settled b).Alongside (Option.Rel Eq) (Form.decode nested (.inlineBody name refBits sizeBits))
      (Form.decode nested' (.inlineBody name refBits sizeBits)) := by
  rw [Form.decode_inlineBody, Form.decode_inlineBody]
  refine settled_nat_bind fun c hc hrefs r => settled_nat_bind fun d hd hsize n => ?_
  have hadv : b.Advance (d.dropBits sizeBits) := ((hc.trans (.dropBits hrefs)).trans hd).trans (.dropBits hsize)
  have hreads : (settled (d.dropBits sizeBits)).Reads nested nested' := by
    refine settled_reads (hadv.sound hb) (fun e he => hcells e (hadv.mem_refs he)) ?_
    intro p hp hnone hbits
    have hle := hc.remainingBits_le
    have hle' := hd.remainingBits_le
    simp only [Slice.remainingBits_dropBits] at hbits hle'
    exact hparts p hp hnone (by omega)
  refine hreads.inlineBlock name r n ?_
  intro ts us htu
  have hsame : ts = us := List.forall₂_eq_eq_eq ▸ htu
  rw [hsame]

/-- What follows the opcodes is the same run under two listers that agree about its continuations. -/
theorem settled_form (hb : b.Sound) (f : Form) (hcells : ∀ c ∈ b.refs, nested.Settles nested' (.ofCell c) true)
    (hparts : ∀ p : Slice, p.Sound → p.refs = [] → p.remainingBits + f.width ≤ b.remainingBits →
      nested.Settles nested' p false) :
    (settled b).Alongside (Option.Rel Eq) (f.decode nested) (f.decode nested') := by
  refine (settled_looks hb hcells).form f (fun _ _ => rfl) ?_ ?_
  · intro head ts us _ htu
    have hsame : ts = us := List.forall₂_eq_eq_eq ▸ htu
    rw [hsame]
  · rintro name refBits sizeBits rfl
    exact settled_inlineBody hb hcells hparts

/-- A run that goes the same way under two listers. -/
theorem eq_of_settled {x y : EStateM.Result Fault Cursor (Option String)}
    (h : (settled b).Agree (Option.Rel Eq) x y) : x = y ∧ ∀ limit k, x ≠ .error (.tooDeep limit) k := by
  rcases h.both fun _ => id with ⟨r, r', k, _, rfl, rfl, hr, rfl, -⟩ | ⟨f, _, k, _, rfl, rfl, ⟨rfl, hshallow⟩, rfl, -⟩
  · refine ⟨?_, nofun⟩
    cases hr with
    | none => rfl
    | some htext => rw [htext]
  · refine ⟨rfl, ?_⟩
    rintro limit _ hf
    cases hf
    exact hshallow limit rfl

end Coupling

/-! ## Regions -/

/-- Two listers agree about all that nests less deep than a slice. -/
def Nested.SettlesBelow (nested nested' : Nested) (s : Slice) : Prop :=
  ∀ (p : Slice) (continuing : Bool), p.Sound → p.nesting < s.nesting → nested.Settles nested' p continuing

theorem Nested.SettlesBelow.mono {nested nested' : Nested} {s t : Slice} (h : nested.SettlesBelow nested' s)
    (hle : t.nesting ≤ s.nesting) : nested.SettlesBelow nested' t :=
  fun p continuing hp hlt => h p continuing hp (Nat.lt_of_lt_of_le hlt hle)

/-- A listing that was not stopped by the limit. -/
def Region.Shallow (r : Region) : Prop := ∀ limit, r.ending ≠ .failed (.tooDeep limit)

section Settled

variable {find? : Dispatcher} {nested nested' : Nested}

/-- An instruction that fits what stands at the front of a slice is decoded in the same way. -/
theorem Instr.decode_settled {i : Instr} {s : Slice} {bits : Nat} (hs : s.Sound) (hpos : 0 < bits)
    (hroom : bits ≤ s.remainingBits) (hfits : i.fits (natOfBits (s.bits.take bits)) bits = true)
    (hn : nested.SettlesBelow nested' s) :
    i.decode nested ⟨s, []⟩ = i.decode nested' ⟨s, []⟩ ∧
      ∀ limit k, i.decode nested ⟨s, []⟩ ≠ .error (.tooDeep limit) k := by
  obtain ⟨hagree, hwidth, hwhole, -⟩ := fits_iff.mp hfits
  have htotal := Opcode.total_le hagree
  have hb := hs.dropBits (Nat.le_trans htotal hroom)
  rw [decode_of_fits hs hroom hfits, decode_of_fits hs hroom hfits]
  refine Coupling.eq_of_settled (Coupling.settled_form hb i.form ?_ ?_ _ _ ⟨rfl, .refl _⟩)
  · intro c hc
    have hmem : c ∈ s.refs := hc
    have hcell := hs.cell.of_mem_refs (Slice.mem_refs_of_mem hmem)
    exact hn _ true (Slice.sound_ofCell hcell) (Slice.nesting_cell_lt hcell hmem)
  · intro p hp hrefs hbits
    -- opcodes and counts are whole bytes and not none
    rw [Slice.remainingBits_dropBits] at hbits
    exact hn p false hp (Slice.nesting_part_lt hrefs (by omega))

theorem step_settled (hf : find?.Faithful) {s : Slice} (hs : s.Sound) (hn : nested.SettlesBelow nested' s) :
    step find? nested s = step find? nested' s ∧ ∀ limit c, step find? nested s ≠ .failed (.tooDeep limit) c := by
  unfold step
  cases hfind : find? s with
  | none => exact ⟨rfl, nofun⟩
  | some i =>
    obtain ⟨bits, hpos, hroom, hfits, -⟩ := hf.fits hs hfind
    obtain ⟨hsame, hshallow⟩ := i.decode_settled hs hpos hroom hfits hn
    refine ⟨by simp only [hsame], ?_⟩
    intro limit c hfailed
    cases hdec : i.decode nested ⟨s, []⟩ with
    | error f k =>
      simp only [hdec] at hfailed
      cases hfailed
      exact hshallow limit c hdec
    | ok text k =>
      simp only [hdec] at hfailed
      cases text with
      | none => cases hfailed
      | some text =>
        dsimp only at hfailed
        split at hfailed <;> cases hfailed

theorem straight_settled (hf : find?.Faithful) {s : Slice} (hs : s.Sound) (hn : nested.SettlesBelow nested' s) :
    straight find? nested s = straight find? nested' s ∧ (straight find? nested s).Shallow := by
  by_cases hbits : s.remainingBits = 0
  · rw [straight_done hbits, straight_done hbits]
    exact ⟨rfl, nofun⟩
  · obtain ⟨hsame, hshallow⟩ := step_settled hf hs hn
    cases hstep : step find? nested s with
    | line text c =>
      have hadv := advance_of_step hstep
      have := size_lt_of_step hstep
      obtain ⟨hrest, hdeep⟩ := straight_settled hf (hadv.sound hs) (hn.mono hadv.nesting_le)
      rw [straight_more hbits hstep, straight_more hbits (hsame ▸ hstep), hrest]
      exact ⟨rfl, hrest ▸ hdeep⟩
    | unknown =>
      rw [straight_unknown hbits hstep, straight_unknown hbits (hsame ▸ hstep)]
      exact ⟨rfl, nofun⟩
    | undecodable c =>
      rw [straight_undecodable hbits hstep, straight_undecodable hbits (hsame ▸ hstep)]
      exact ⟨rfl, nofun⟩
    | failed f c =>
      rw [straight_failed hbits hstep, straight_failed hbits (hsame ▸ hstep)]
      refine ⟨rfl, ?_⟩
      rintro limit hend
      cases hend
      exact hshallow limit c hstep
termination_by s.size

theorem chain_settled (hf : find?.Faithful) {s : Slice} (hs : s.Sound) (hn : nested.SettlesBelow nested' s) :
    chain find? nested s = chain find? nested' s ∧ (chain find? nested s).Shallow := by
  obtain ⟨hsame, hshallow⟩ := straight_settled hf hs hn
  by_cases hend : (straight find? nested s).ending = .complete
  · have hadv := rest_of_complete hend
    have hend' := hsame ▸ hend
    obtain h₀ | h₁ | h₂ : (straight find? nested s).rest.remainingRefs = 0 ∨
        (straight find? nested s).rest.remainingRefs = 1 ∨ 1 < (straight find? nested s).rest.remainingRefs := by
      omega
    · rw [chain_of_complete hend h₀, chain_of_complete hend' (hsame ▸ h₀)]
      exact ⟨hsame, hshallow⟩
    · obtain ⟨next, hnext, hw⟩ := exists_next (hadv.sound hs) (by omega)
      have hmem : next ∈ s.refs := by
        refine hadv.mem_refs (List.mem_of_mem_head? ?_)
        rw [Slice.getD_refs_eq (hadv.sound hs) (by omega), List.getD_eq_getElem?_getD, hnext]
        rfl
      rw [hadv.cell_eq] at hnext
      have := Cell.sizeOf_lt_of_mem_refs (List.mem_of_getElem? hnext)
      have hlt := Slice.nesting_cell_lt hw hmem
      obtain ⟨hlater, hdeep⟩ := chain_settled hf (Slice.sound_ofCell hw) (hn.mono (Nat.le_of_lt hlt))
      rw [chain_of_next hend h₁ hnext, chain_of_next hend' (hsame ▸ h₁) (hsame ▸ hnext), ← hsame, ← hlater]
      exact ⟨rfl, hdeep⟩
    · rw [chain_of_fork hend h₂, chain_of_fork hend' (hsame ▸ h₂), ← hsame]
      exact ⟨rfl, nofun⟩
  · rw [chain_of_not_complete hend, chain_of_not_complete (hsame ▸ hend)]
    exact ⟨hsame, hshallow⟩
termination_by sizeOf s.cell

/-- **Listers that agree about what nests less deep list a region alike**, and the limit does not stop them. -/
theorem region_settled (hf : find?.Faithful) {s : Slice} (hs : s.Sound) (hn : nested.SettlesBelow nested' s)
    (continuing : Bool) :
    region find? nested s continuing = region find? nested' s continuing ∧
      (region find? nested s continuing).Shallow := by
  cases continuing with
  | false => exact straight_settled hf hs hn
  | true => exact chain_settled hf hs hn

theorem Region.Shallow.rendered {r : Region} (h : r.Shallow) (indent limit : Nat) :
    (r.rendered indent).text ≠ .error (.tooDeep limit) := by
  intro hbody
  unfold Region.rendered at hbody
  split at hbody
  · rename_i f hend
    cases hbody
    exact h limit hend
  · cases hbody

/-- The limit does not stop a listing where there are as many levels as code can nest. -/
theorem listing_shallow (hf : find?.Faithful) {s : Slice} (hs : s.Sound) {levels : Nat} (h : s.nesting ≤ levels)
    (limit indent : Nat) (continuing : Bool) : (listing find? limit indent levels s continuing).Shallow := by
  have hbelow : (bodies find? limit indent levels).SettlesBelow (bodies find? limit indent levels) s := by
    intro p k hp hlt
    obtain ⟨m, rfl⟩ := Nat.exists_eq_add_one_of_ne_zero (n := levels) (by omega)
    refine ⟨rfl, fun limit' => ?_⟩
    rw [bodies_succ, ← listing_eq]
    exact (listing_shallow hf hp (by omega) limit indent k).rendered indent limit'
  rw [listing_eq]
  exact (region_settled hf hs hbelow continuing).2
termination_by s.nesting

/-- Bodies with as many levels as code can nest agree with any others that show what is listed one level further in. -/
theorem bodies_settlesBelow (hf : find?.Faithful) {s : Slice} {levels : Nat} (h : s.nesting ≤ levels)
    {limit indent : Nat}
    (hsame : ∀ (m : Nat) (p : Slice) (k : Bool), levels = m + 1 → p.Sound → p.nesting < s.nesting →
      (listing find? limit indent m p k).rendered indent = nested' p k) :
    (bodies find? limit indent levels).SettlesBelow nested' s := by
  intro p k hp hlt
  obtain ⟨m, rfl⟩ := Nat.exists_eq_add_one_of_ne_zero (n := levels) (by omega)
  refine ⟨?_, fun limit' => ?_⟩
  · rw [bodies_succ, ← listing_eq, hsame m p k rfl hp hlt]
  · rw [bodies_succ, ← listing_eq]
    exact (listing_shallow hf hp (by omega) limit indent k).rendered indent limit'

/-- **The limit is immaterial where there are as many levels as code can nest**, and so is their number. -/
theorem listing_settled (hf : find?.Faithful) {s : Slice} (hs : s.Sound) {levels levels' : Nat}
    (h : s.nesting ≤ levels) (h' : s.nesting ≤ levels') (limit limit' indent : Nat) (continuing : Bool) :
    listing find? limit indent levels s continuing = listing find? limit' indent levels' s continuing := by
  rw [listing_eq, listing_eq]
  refine (region_settled hf hs (bodies_settlesBelow hf h ?_) continuing).1
  intro m p k hm hp hlt
  obtain ⟨m', rfl⟩ := Nat.exists_eq_add_one_of_ne_zero (n := levels') (by omega)
  have hsame := listing_settled hf hp (show p.nesting ≤ m by omega) (show p.nesting ≤ m' by omega) limit limit' indent k
  rw [bodies_succ, ← listing_eq, hsame]
termination_by s.nesting

/-! ## Listing without a limit -/

/-- A way to list code that lists the continuations within it in the same way, to whatever depth. -/
def Unlimited (find? : Dispatcher) (indent : Nat) (list : Slice → Bool → Region) : Prop :=
  ∀ s : Slice, s.Sound → ∀ continuing,
    list s continuing = region find? (fun p k => (list p k).rendered indent) s continuing

/-- Listing without a limit is listing with as many levels as code can nest. -/
theorem Unlimited.eq_listing (hf : find?.Faithful) {indent : Nat} {list : Slice → Bool → Region}
    (hlist : Unlimited find? indent list) {s : Slice} (hs : s.Sound) {levels : Nat} (h : s.nesting ≤ levels)
    (limit : Nat) (continuing : Bool) : list s continuing = listing find? limit indent levels s continuing := by
  rw [hlist s hs, listing_eq]
  refine (region_settled hf hs (bodies_settlesBelow hf h ?_) continuing).1.symm
  intro m p k hm hp hlt
  rw [hlist.eq_listing hf hp (show p.nesting ≤ m by omega) limit k]
termination_by s.nesting

/-- Code can be listed without a limit. -/
theorem unlimited_listing (hf : find?.Faithful) (indent : Nat) :
    Unlimited find? indent fun s continuing => listing find? 0 indent s.nesting s continuing := by
  intro s hs continuing
  dsimp only
  rw [listing_eq]
  refine (region_settled hf hs (bodies_settlesBelow hf (Nat.le_refl _) ?_) continuing).1
  intro m p k hm hp hlt
  rw [listing_settled hf hp (show p.nesting ≤ m by omega) (Nat.le_refl _) 0 0 indent k]

end Settled

/-- **Code nests no deeper than its tree is high and one cell is long.** A larger limit is never met, and the listing is
then the one that listing without a limit gives, in the one way in which this can be done. -/
theorem disassemble_bounded {s : Slice} (hs : s.Sound) {config : Config}
    (hdepth : s.cell.height + 127 ≤ config.maxDepth) (continuing : Bool) :
    (∀ limit, (disassemble CodePage.zero config s continuing).failure? ≠ some (.tooDeep limit)) ∧
      (∃ list, Unlimited CodePage.zero.find? config.indent list) ∧
      ∀ list, Unlimited CodePage.zero.find? config.indent list →
        list s continuing = disassemble CodePage.zero config s continuing := by
  have hf := CodePage.faithful_zero
  have hlevels : s.nesting ≤ config.maxDepth := Nat.le_trans hs.nesting_le hdepth
  refine ⟨?_, ⟨_, unlimited_listing hf config.indent⟩, fun list hlist => hlist.eq_listing hf hs hlevels _ continuing⟩
  intro limit hfailed
  have hshallow := listing_shallow hf hs hlevels config.maxDepth config.indent continuing
  unfold Region.failure? at hfailed
  split at hfailed
  · rename_i f hend
    cases hfailed
    exact hshallow limit hend
  · cases hfailed

/-- A tree of height one, with a continuation behind a reference and another one within that. -/
theorem bounded_of_pushedNop_behind_reference :
    let code : Cell := ⟨[0x8a], 8, [pushedNop], false⟩
    let config : Config := ⟨128, 2, by decide⟩
    (Slice.ofCell code).Sound ∧ code.height + 127 ≤ config.maxDepth ∧
      ∀ limit, (disassemble CodePage.zero config (.ofCell code) true).failure? ≠ some (.tooDeep limit) := by
  intro code config
  have hs : (Slice.ofCell code).Sound :=
    Slice.sound_ofCell (.intro (by decide) (by decide) (by decide) (by simpa [code] using wellFormed_pushedNop))
  have hflat : pushedNop.height ≤ 0 := Cell.height_le_iff.mpr (by simp [pushedNop])
  have hheight : code.height ≤ 1 := Cell.height_le_iff.mpr (by simpa [code] using hflat)
  have hdepth : code.height + 127 ≤ config.maxDepth := Nat.add_le_add_right hheight 127
  exact ⟨hs, hdepth, (disassemble_bounded hs hdepth true).1⟩

end TvmCode
