import TvmCode.Proofs.Listing.Twins

/-!
# Listings see nothing outside their window

Whatever a listing does, also where it fails, it takes from the front of its window and leaves the rest of it
(`advance_region`). What it does depends on the bits and references within the window alone: a window is listed like a
cell of its own that holds just these, and like every other window that shows the same (`disassemble_window`).
-/

namespace TvmCode

/-! ## What is left of a window -/

/-- One run beside itself, which takes from the front of a window. -/
def Coupling.within (s : Slice) : Coupling where
  cursors c c' := c = c' ∧ s.Advance c.slice
  faults := Eq
  excused _ := False
  parts := Eq
  cells := Eq
  bodies := Eq

namespace Coupling

variable {α : Type} {s : Slice}

theorem within_takeBits (look : Slice → Nat → α) (width : Int) :
    (within s).Alongside Eq (Decoder.takeBits look width) (Decoder.takeBits look width) := by
  rintro c _ ⟨rfl, h⟩
  rw [Decoder.takeBits_apply]
  split
  · exact ⟨rfl, rfl, h.trans (.dropBits (by unfold Slice.remainingBits; omega))⟩
  · exact Or.inr ⟨rfl, rfl, h⟩

theorem within_ref : (within s).Alongside Eq Decoder.ref Decoder.ref := by
  rintro c _ ⟨rfl, h⟩
  rw [Decoder.ref_apply]
  split
  · exact ⟨rfl, rfl, h.trans (.dropRefs (by unfold Slice.remainingRefs; omega))⟩
  · exact Or.inr ⟨rfl, rfl, h⟩

theorem within_body (nested : Nested) (code : Slice) (continuing : Bool) :
    (within s).Alongside Eq (Form.body nested code continuing) (Form.body nested code continuing) := by
  rintro c _ ⟨rfl, h⟩
  rw [Form.body_apply]
  cases (nested code continuing).text with
  | ok text => exact ⟨rfl, rfl, h⟩
  | error f => exact Or.inr ⟨rfl, rfl, h⟩

theorem within_reads (nested : Nested) : (within s).Reads nested nested where
  nat width := within_takeBits _ width
  bits width := within_takeBits _ width
  ref := within_ref
  part hp := by
    cases hp
    exact within_body nested _ _
  cell hc := by
    cases hc
    exact within_body nested _ _
  digits := rfl
  hex hp := congrArg _ hp
  plain hp := congrArg _ (congrArg _ hp)
  join hs h := by
    have hs : List.Forall₂ Eq _ _ := hs
    rw [List.forall₂_eq_eq_eq] at hs
    exact congrArg₂ (String.join · ++ ·) hs h

end Coupling

/-- Where decoding has come to. -/
def Step.rest (s : Slice) : Step → Slice
  | .line _ c => c.slice
  | .unknown => s
  | .undecodable c => c.slice
  | .failed _ c => c.slice

section Rest

variable (find? : Dispatcher) (nested : Nested)

theorem advance_step (s : Slice) : s.Advance ((step find? nested s).rest s) := by
  unfold step
  cases find? s with
  | none => exact .refl s
  | some i =>
    have hdec := (Coupling.within_reads nested).instr (L := fun _ _ => True) (fun _ => rfl) i (fun _ _ => trivial)
      (fun _ _ _ _ _ => trivial) ⟨s, []⟩ ⟨s, []⟩ ⟨rfl, .refl s⟩
    cases hi : i.decode nested ⟨s, []⟩ with
    | error f c =>
      rw [hi] at hdec
      simp only [hi]
      rcases hdec with hexc | ⟨-, -, hadv⟩
      · exact hexc.elim
      · exact hadv
    | ok text c =>
      rw [hi] at hdec
      have hadv : s.Advance c.slice := hdec.2.2
      simp only [hi]
      cases text with
      | none => exact hadv
      | some text =>
        dsimp only
        split
        · exact hadv
        · exact hadv

theorem advance_straight (s : Slice) : s.Advance (straight find? nested s).rest := by
  fun_induction straight find? nested s with
  | case1 s hbits => exact .refl s
  | case2 s hbits text c hstep ih =>
    have hadv := advance_step find? nested s
    rw [hstep] at hadv
    exact hadv.trans ih
  | case3 s hbits hstep => exact .refl s
  | case4 s hbits c hstep =>
    have hadv := advance_step find? nested s
    rwa [hstep] at hadv
  | case5 s hbits f c hstep =>
    have hadv := advance_step find? nested s
    rwa [hstep] at hadv

theorem advance_chain (s : Slice) : s.Advance (chain find? nested s).rest := by
  have hadv := advance_straight find? nested s
  rw [chain]
  split
  · split
    · exact hadv
    · split
      · rename_i hone
        split
        · exact hadv.trans (.dropRefs (Nat.le_of_eq hone.symm))
        · exact hadv
      · exact hadv
  · exact hadv

/-- **A listing takes from the front of its window**, also where it fails. -/
theorem advance_region (s : Slice) (continuing : Bool) : s.Advance (region find? nested s continuing).rest := by
  cases continuing with
  | false => exact advance_straight find? nested s
  | true => exact advance_chain find? nested s

end Rest

/-! ## Windows that show the same -/

/-- A fault apart from the place where it arose. -/
def Fault.unplaced : Fault → Fault
  | .underflow _ width kind => .underflow 0 width kind
  | .forkedTail refs _ => .forkedTail refs 0
  | f => f

theorem Fault.Follows.unplaced_eq {shift : Nat} {f f' : Fault} (h : f.Follows shift f') :
    f.unplaced = f'.unplaced := by
  rcases h.eq_or_later with rfl | rfl
  · rfl
  · cases f' <;> rfl

/-- The same outcome of listing two windows: the same text, the same failure if any, and as many bits and references
taken from the start of the one window as from the start of the other. -/
structure Region.SameFrom (s t : Slice) (r r' : Region) : Prop where
  text : r.text = r'.text
  failure : r.failure?.map Fault.unplaced = r'.failure?.map Fault.unplaced
  bits : (r.rest.bitPos : Int) - s.bitPos = r'.rest.bitPos - t.bitPos
  refs : (r.rest.refPos : Int) - s.refPos = r'.rest.refPos - t.refPos

namespace Region.SameFrom

variable {s t u : Slice} {r r' r'' : Region}

theorem symm (h : r.SameFrom s t r') : r'.SameFrom t s r := ⟨h.text.symm, h.failure.symm, h.bits.symm, h.refs.symm⟩

theorem trans (h : r.SameFrom s t r') (h' : r'.SameFrom t u r'') : r.SameFrom s u r'' :=
  ⟨h.text.trans h'.text, h.failure.trans h'.failure, h.bits.trans h'.bits, h.refs.trans h'.refs⟩

end Region.SameFrom

theorem Ending.Alike.failure_eq {shift : Nat} {r r' : Region} (h : r.ending.Alike shift r'.ending) :
    r.failure?.map Fault.unplaced = r'.failure?.map Fault.unplaced := by
  unfold Region.failure?
  generalize r.ending = e at h
  generalize r'.ending = e' at h
  cases h with
  | complete => rfl
  | marked => rfl
  | failed hfollows => exact congrArg some hfollows.unplaced_eq

/-- Twins that are listed alike take as much from their windows. -/
theorem Region.Alike.sameFrom {s t : Slice} {r r' : Region} {shift : Nat} (h : r.Alike shift r')
    (hst : s.Twin shift t) (hs : s.Advance r.rest) (ht : t.Advance r'.rest) : r.SameFrom s t r' := by
  refine ⟨h.text, h.ending.failure_eq, ?_, ?_⟩
  · have hpos := hst.pos
    have hrest := h.rest.pos
    omega
  · -- the ends of the windows stay, so as many references are taken as are no longer left
    have hrefs := hst.remainingRefs_eq
    have hrest := h.rest.remainingRefs_eq
    have hv := h.rest.left.valid.2.2.1
    have hv' := h.rest.right.valid.2.2.1
    have hle := hs.refPos_le
    have hle' := ht.refPos_le
    simp only [Slice.remainingRefs, hs.refEnd_eq, ht.refEnd_eq] at hrefs hrest hv hv'
    omega

/-- A cell of its own that holds what a window shows. -/
structure Cell.Holds (c : Cell) (s : Slice) : Prop where
  wellFormed : c.WellFormed
  bits : c.bits = s.bits
  refs : c.refs = s.refs

theorem Slice.Sound.holds_toCell {s : Slice} (hs : s.Sound) : s.toCell.Holds s :=
  ⟨hs.wellFormed_toCell, Cell.bits_ofBits _ _, Cell.refs_ofBits _ _⟩

/-- A window is a twin of every cell that holds what it shows. -/
theorem Cell.Holds.twin {c : Cell} {s : Slice} (h : c.Holds s) (hs : s.Sound) : s.Twin s.bitPos (Slice.ofCell c) := by
  refine .of_eq hs (Slice.sound_ofCell h.wellFormed) ?_ ?_ (Nat.zero_add _).symm
  · rw [Slice.bits_ofCell h.wellFormed, h.bits]
  · rw [Slice.refs_ofCell, h.refs]

/-- Twins have the same outcome. -/
theorem disassemble_twin {s t : Slice} {shift : Nat} (h : s.Twin shift t) (config : Config) (continuing : Bool) :
    (disassemble CodePage.zero config s continuing).SameFrom s t
      (disassemble CodePage.zero config t continuing) := by
  have halike := listing_twin CodePage.faithful_zero (fun _ _ => rfl) config.maxDepth config.indent config.maxDepth h
    continuing
  refine halike.sameFrom h ?_ ?_
  · rw [listing_eq]
    exact advance_region _ _ s continuing
  · rw [listing_eq]
    exact advance_region _ _ t continuing

/-- **Nothing outside a window is seen**: the window is listed like every cell that holds just what it shows, of which
there is one, and like every window of any cell that shows the same. -/
theorem disassemble_window {s : Slice} (hs : s.Sound) (config : Config) (continuing : Bool) :
    (∃ c : Cell, c.Holds s) ∧
      (∀ c : Cell, c.Holds s →
        (disassemble CodePage.zero config s continuing).SameFrom s (.ofCell c)
          (disassemble CodePage.zero config (.ofCell c) continuing)) ∧
      ∀ t : Slice, t.Sound → t.bits = s.bits → t.refs = s.refs →
        (disassemble CodePage.zero config s continuing).SameFrom s t
          (disassemble CodePage.zero config t continuing) := by
  have hcell := fun (c : Cell) (hc : c.Holds s) => disassemble_twin (hc.twin hs) config continuing
  refine ⟨⟨s.toCell, hs.holds_toCell⟩, hcell, ?_⟩
  intro t ht hbits hrefs
  -- both windows are listed like one cell that holds what they show
  have hc : s.toCell.Holds t := ⟨hs.wellFormed_toCell, hs.holds_toCell.bits.trans hbits.symm,
    hs.holds_toCell.refs.trans hrefs.symm⟩
  exact (hcell _ hs.holds_toCell).trans (disassemble_twin (hc.twin ht) config continuing).symm

/-- A window in the middle of a byte, with a reference on each side of its own. -/
theorem window_within_bytes :
    let leaf : Cell := ⟨[], 0, [], false⟩
    let whole : Cell := ⟨[0xf0, 0x08, 0x8f], 24, [leaf, ⟨[0x00], 8, [], false⟩, leaf], false⟩
    let s : Slice := ⟨whole, 4, 20, 1, 2⟩
    s.Sound ∧ (disassemble CodePage.zero .default s true).SameFrom s (.ofCell s.toCell)
      (disassemble CodePage.zero .default (.ofCell s.toCell) true) := by
  intro leaf whole s
  have hleaf : leaf.WellFormed := .intro (by decide) (by decide) (by decide) (by simp [leaf])
  have hnop : Cell.WellFormed ⟨[0x00], 8, [], false⟩ := .intro (by decide) (by decide) (by decide) (by simp)
  have hs : s.Sound := by
    refine ⟨?_, .intro (by simp [s, whole, maxBits]) (by simp [s, whole, maxRefs]) (by simp [s, whole]) ?_⟩
    · simp [Slice.Valid, s, whole]
    · simpa [s, whole] using ⟨hleaf, hnop, hleaf⟩
  exact ⟨hs, (disassemble_window hs .default true).2.1 _ hs.holds_toCell⟩

end TvmCode
