import TvmCode.Proofs.Builder.Actions

/-!
# Runs of stores

Stores are attempted on a builder in any order and with any values and widths, and those that are refused are passed
over (`Builder.attempts`). A store succeeds just when its number is within the range of its width and there is room for
what it adds, and otherwise it is refused for the one or the other (`Store.ends`). So after a whole run the builder
holds the bits and references of the stores that succeeded (`Builder.Holds.attempts`), also when the run is carried out
action by action (`Builder.parts_attempts`), and its cell can be made at each point (`Builder.attempts_safe`).
-/

namespace TvmCode

/-! ## What comes of a store -/

/-- Whether something is refused for want of room, and not for what it is. -/
def BuilderError.lacksRoom : BuilderError → Bool
  | .noRoom _ _ | .tooManyRefs => true
  | .unsignedRange _ _ | .signedRange _ _ | .negativeWidth | .notBits _ => false

namespace Store

/-- A builder has room for the bits and references of a store. -/
def HasRoom (o : Store) (b : Builder) : Prop :=
  b.bits + o.field.length ≤ maxBits ∧ b.refs.length + o.links.length ≤ maxRefs

/-- What comes of a store: it succeeds, or there is no room, or its number is not within the range of its width. -/
inductive Ends (o : Store) (b : Builder) : Prop
  | stored {b' : Builder} (run : o.run b = .ok b') (fits : o.Fits) (room : o.HasRoom b)
  | full {e : BuilderError} (run : o.run b = .error e) (lacks : e.lacksRoom = true) (fits : o.Fits)
      (room : ¬o.HasRoom b)
  | unfit {e : BuilderError} (run : o.run b = .error e) (lacks : e.lacksRoom = false) (fits : ¬o.Fits)

section Ending

variable {b : Builder} {bits : List Bool} {refs : List Cell} {o : Store}

/-- A store of bits alone comes to putting them behind those that are held. -/
theorem ends_of_append (h : b.Holds bits refs) (fits : o.Fits) {value width : Nat}
    (hrun : o.run b = b.append value width) (hlen : o.field.length = width) (hlinks : o.links = []) : o.Ends b := by
  have hrefs : b.refs.length + o.links.length ≤ maxRefs := by
    rw [hlinks, h.links]
    exact h.refs_le
  by_cases hroom : maxBits < b.bits + width
  · have herror : o.run b = .error (.noRoom width (maxBits - b.bits)) := by rw [hrun, Builder.append, if_pos hroom]
    exact .full herror rfl fits fun hr => absurd hr.1 (by omega)
  · have hok : o.run b = .ok { b with value := (b.value <<< width) + value, bits := b.bits + width } := by
      rw [hrun, Builder.append, if_neg hroom]
    exact .stored hok fits ⟨by omega, hrefs⟩

/-- A number without sign succeeds, or there is no room, or it is not within the range of its width. -/
theorem ends_nat (h : b.Holds bits refs) (value width : Int) : (nat value width).Ends b := by
  by_cases hneg : value < 0
  · have herror : b.storeNat value width = .error (.unsignedRange value width) := by rw [Builder.storeNat, if_pos hneg]
    exact .unfit herror rfl fun hf => absurd hf.2.1 (Int.not_le.mpr hneg)
  by_cases hwidth : width < 0
  · have herror : b.storeNat value width = .error .negativeWidth := by
      rw [Builder.storeNat, if_neg hneg, if_pos hwidth]
    exact .unfit herror rfl fun hf => absurd hf.1 (Int.not_le.mpr hwidth)
  have hpos := Int.not_lt.mp hneg
  obtain ⟨w, rfl⟩ := Int.eq_ofNat_of_zero_le (Int.not_lt.mp hwidth)
  by_cases hlt : value < (2 ^ w : Nat)
  · exact ends_of_append h ⟨Int.natCast_nonneg w, hpos, hlt⟩ (Builder.storeNat_of_fits b hpos hlt)
      (length_bitsOfNat _ _) rfl
  · have hfits : value.toNat >>> w ≠ 0 := by
      rw [Nat.shiftRight_eq_div_pow, ne_eq, Nat.div_eq_zero_iff_lt (Nat.two_pow_pos w), Int.toNat_lt hpos]
      exact hlt
    have herror : b.storeNat value w = .error (.unsignedRange value w) := by
      rw [Builder.storeNat, if_neg hneg, if_neg hwidth, Int.toNat_natCast, if_pos hfits]
    exact .unfit herror rfl fun hf => hlt hf.2.2

/-- An integer succeeds, or there is no room, or it is not within the range of its width. -/
theorem ends_int (h : b.Holds bits refs) (value width : Int) : (int value width).Ends b := by
  by_cases hzero : width = 0
  · have herror : b.storeInt value width = .error (.signedRange value width) := by
      rw [Builder.storeInt, if_pos hzero]
    exact .unfit herror rfl fun hf => absurd hf.1 (by omega)
  by_cases hneg : width < 0
  · have herror : b.storeInt value width = .error .negativeWidth := by
      rw [Builder.storeInt, if_neg hzero, if_pos hneg]
    exact .unfit herror rfl fun hf => absurd hf.1 (by omega)
  by_cases hrange : value < -((2 ^ (width.toNat - 1) : Nat) : Int) ∨ ((2 ^ (width.toNat - 1) : Nat) : Int) ≤ value
  · have herror : b.storeInt value width = .error (.signedRange value width) := by
      rw [Builder.storeInt, if_neg hzero, if_neg hneg]
      simp only [Nat.one_shiftLeft]
      rw [if_pos hrange]
    refine .unfit herror rfl fun hf => ?_
    obtain ⟨-, hlo, hhi⟩ := hf
    omega
  · have hrun : (int value width).run b = b.append (value % (2 ^ width.toNat : Nat)).toNat width.toNat := by
      rw [run, Builder.storeInt, if_neg hzero, if_neg hneg]
      simp only [Nat.one_shiftLeft]
      rw [if_neg hrange]
    exact ends_of_append h ⟨by omega, by omega, by omega⟩ hrun (length_bitsOfNat _ _) rfl

/-- A binary numeral succeeds, or there is no room. -/
theorem ends_bits (h : b.Holds bits refs) {text : String} (binary : Text.IsBinary text) :
    (Store.bits text binary).Ends b := by
  by_cases hempty : text.isEmpty = true
  · have hok : b.storeBits text = .ok b := by rw [Builder.storeBits, if_pos hempty]
    refine .stored hok trivial ⟨?_, ?_⟩
    · rw [field, Text.length_binaryDigits, String.isEmpty_iff.mp hempty, h.count]
      exact h.bits_le
    · rw [links, h.links]
      exact h.refs_le
  · have hlt : (natOfBits (Text.binaryDigits text) : Int) < (2 ^ text.length : Nat) := by
      rw [← Text.length_binaryDigits]
      exact_mod_cast natOfBits_lt _
    have hrun : b.storeBits text = b.append (natOfBits (Text.binaryDigits text)) text.length := by
      rw [Builder.storeBits, if_neg hempty, Text.readInt_of_isBinary binary (by simpa using hempty)]
      exact Builder.storeNat_of_fits b (Int.natCast_nonneg _) hlt
    exact ends_of_append h trivial hrun (Text.length_binaryDigits text) rfl

/-- A reference succeeds, or there is no room. -/
theorem ends_ref (h : b.Holds bits refs) {c : Cell} (wellFormed : c.WellFormed) : (ref c wellFormed).Ends b := by
  have hcount : b.refs.length + (ref c wellFormed).links.length = b.refs.length + 1 := rfl
  by_cases hfull : maxRefs ≤ b.refs.length
  · have herror : b.storeRef c = .error .tooManyRefs := by rw [Builder.storeRef, if_pos hfull]
    exact .full herror rfl trivial fun hr => absurd hr.2 (by omega)
  · have hok : b.storeRef c = .ok { b with refs := b.refs ++ [c] } := by rw [Builder.storeRef, if_neg hfull]
    exact .stored hok trivial ⟨h.count ▸ h.bits_le, by omega⟩

/-- **A store succeeds just when it fits and there is room**, and otherwise it is refused for the one or the other. -/
theorem ends (h : b.Holds bits refs) (o : Store) : o.Ends b := by
  cases o with
  | nat value width => exact ends_nat h value width
  | int value width => exact ends_int h value width
  | bytes data =>
    have hlen : (bytes data).field.length = data.length * 8 := by rw [field, length_bitsOfBytes, Nat.mul_comm]
    exact ends_of_append h trivial rfl hlen rfl
  | bits text binary => exact ends_bits h binary
  | ref c wellFormed => exact ends_ref h wellFormed

/-- What fits and has room is stored, at once and action by action. -/
theorem stored_of_room (h : b.Holds bits refs) (hfits : o.Fits) (hroom : o.HasRoom b) :
    ∃ b', o.run b = .ok b' ∧ o.watched b.parts = .ok () b'.parts := by
  have hwatched := o.watched_eq (h.count ▸ h.bits_le)
  cases ends h o with
  | @stored b' run _ _ => exact ⟨b', run, by rw [hwatched, run]; rfl⟩
  | full _ _ _ room => exact absurd hroom room
  | unfit _ _ fits => exact absurd hfits fits

/-- What does not fit or has no room is refused, and what the builder holds stays as it was. -/
theorem refused_of_not_room (h : b.Holds bits refs) (hnot : ¬(o.Fits ∧ o.HasRoom b)) :
    ∃ e, o.run b = .error e ∧ o.watched b.parts = .error (.refused e) b.parts ∧ (e.lacksRoom = true ↔ o.Fits) := by
  have hwatched := o.watched_eq (h.count ▸ h.bits_le)
  cases ends h o with
  | stored _ fits room => exact absurd ⟨fits, room⟩ hnot
  | @full e run lacks fits _ => exact ⟨e, run, by rw [hwatched, run]; rfl, iff_of_true lacks fits⟩
  | @unfit e run lacks fits => exact ⟨e, run, by rw [hwatched, run]; rfl, iff_of_false (by simp [lacks]) fits⟩

end Ending

end Store

/-! ## Runs -/

namespace Builder

/-- The builder after a store that may be refused. -/
def attempt (b : Builder) (o : Store) : Builder :=
  match o.run b with
  | .ok b' => b'
  | .error _ => b

/-- The builder after some stores, of which any may be refused. -/
def attempts (b : Builder) (os : List Store) : Builder := os.foldl attempt b

/-- The stores that succeed when all are attempted in turn. -/
def stored (b : Builder) : List Store → List Store
  | [] => []
  | o :: os =>
    match o.run b with
    | .ok b' => o :: b'.stored os
    | .error _ => b.stored os

/-- What is held after the actions of a store, also when one of them refuses. -/
def Parts.attempt (p : Parts) (o : Store) : Parts :=
  match o.watched p with
  | .ok _ q => q
  | .error _ q => q

/-- What is held after the actions of some stores, of which any may be refused. -/
def Parts.attempts (p : Parts) (os : List Store) : Parts := os.foldl Parts.attempt p

variable {b : Builder} {bits : List Bool} {refs : List Cell}

/-- **After a run** the builder holds the bits and references of the stores that succeeded. -/
theorem Holds.attempts (h : b.Holds bits refs) (os : List Store) :
    (b.attempts os).Holds (bits ++ (b.stored os).flatMap Store.field)
      (refs ++ (b.stored os).flatMap Store.links) := by
  induction os generalizing b bits refs with
  | nil => simpa [attempts, stored] using h
  | cons o os ih =>
    show ((b.attempt o).attempts os).Holds _ _
    rw [attempt, stored]
    cases hrun : o.run b with
    | error e => exact ih h
    | ok b' =>
      have hholds := ih (Store.holds_of_run h hrun).1
      simp only [List.flatMap_cons, ← List.append_assoc]
      exact hholds

/-- A store that may be refused comes to the same action by action. -/
theorem parts_attempt (h : b.Holds bits refs) (o : Store) : b.parts.attempt o = (b.attempt o).parts := by
  rw [Parts.attempt, o.watched_eq (h.count ▸ h.bits_le), attempt]
  cases o.run b <;> rfl

theorem Holds.attempt (h : b.Holds bits refs) (o : Store) : ∃ bits refs, (b.attempt o).Holds bits refs :=
  ⟨_, _, h.attempts [o]⟩

/-- A run comes to the same action by action. -/
theorem parts_attempts (h : b.Holds bits refs) (os : List Store) : b.parts.attempts os = (b.attempts os).parts := by
  induction os generalizing b bits refs with
  | nil => rfl
  | cons o os ih =>
    obtain ⟨_, _, hnext⟩ := h.attempt o
    show (b.parts.attempt o).attempts os = ((b.attempt o).attempts os).parts
    rw [parts_attempt h, ih hnext]

/-- What a builder holds is within its bounds. -/
theorem Holds.bounds (h : b.Holds bits refs) :
    (0 ≤ b.parts.value ∧ b.parts.value < (2 ^ b.parts.bits.toNat : Nat)) ∧
      (0 ≤ b.parts.bits ∧ b.parts.bits ≤ maxBits) ∧ b.parts.refs.length ≤ maxRefs := by
  have hlt := natOfBits_lt bits
  have hcount := h.count ▸ h.bits_le
  have hrefs := h.links ▸ h.refs_le
  rw [← h.value, ← h.count] at hlt
  rw [value_parts, bits_parts, refs_parts, Int.toNat_natCast]
  exact ⟨⟨Int.natCast_nonneg _, Int.ofNat_lt.mpr hlt⟩, ⟨Int.natCast_nonneg _, Int.ofNat_le.mpr hcount⟩, hrefs⟩

/-- **Builders are safe over whole runs.** Attempt any stores, of any values and widths, each action by action.
Whichever of them are refused, the number held then fits in the bits counted, and these and the references are no more
than a cell holds. The next store succeeds if its number is within the range of its width and there is room; otherwise
it is refused for the one or the other, and the number, the count of bits and the references are what they were. The
cell of what is stored can be made: it has as many bits as are counted, in as few bytes as hold them, which are the bits
of the stores that succeeded, in order, and zeros. -/
theorem attempts_safe (os : List Store) :
    let p := empty.parts.attempts os
    let b := empty.attempts os
    let kept := empty.stored os
    p = b.parts ∧
    (0 ≤ p.value ∧ p.value < (2 ^ p.bits.toNat : Nat)) ∧ (0 ≤ p.bits ∧ p.bits ≤ maxBits) ∧ p.refs.length ≤ maxRefs ∧
    (∀ o : Store,
      (o.Fits ∧ o.HasRoom b → ∃ b', o.run b = .ok b' ∧ o.watched p = .ok () b'.parts) ∧
      (¬(o.Fits ∧ o.HasRoom b) →
        ∃ e, o.run b = .error e ∧ o.watched p = .error (.refused e) p ∧ (e.lacksRoom = true ↔ o.Fits))) ∧
    Watched.endCell p = .ok b.toCell p ∧
    b.toCell.bitLen = b.bits ∧ b.toCell.data.length = (b.bits + 7) / 8 ∧
    bitsOfBytes b.toCell.data = kept.flatMap Store.field ++ List.replicate (padding b.bits) false ∧
    b.toCell.refs = kept.flatMap Store.links := by
  intro p b kept
  have hholds : b.Holds (kept.flatMap Store.field) (kept.flatMap Store.links) := holds_empty.attempts os
  have hparts : p = b.parts := parts_attempts holds_empty os
  have hcell := hholds.toCell_eq
  obtain ⟨hvalue, hbits, hrefs⟩ := hholds.bounds
  rw [hparts]
  refine ⟨rfl, hvalue, hbits, hrefs, ?_, hholds.endCell_eq, rfl, ?_, ?_, ?_⟩
  · intro o
    exact ⟨fun h => Store.stored_of_room hholds h.1 h.2, Store.refused_of_not_room hholds⟩
  · rw [hcell, Cell.ofBits, length_bytesOfBits, hholds.count]
  · rw [hcell, Cell.ofBits, bitsOfBytes_bytesOfBits, hholds.count]
  · rw [hcell, Cell.refs_ofBits]

/-- Of four stores two are refused, one for its range and one for its negative width, and then one for want of room. -/
theorem attempts_safe_of_refusals :
    let os : List Store := [.nat 5 2, .nat 5 3, .int 0 (-1), .int (-4) 3]
    let p := empty.parts.attempts os
    let wide : Store := .nat 0 1018
    p = ⟨0b101100, 6, []⟩ ∧
      (∃ e, wide.watched p = .error (.refused e) p ∧ e.lacksRoom = true) ∧
      Watched.endCell p = .ok ⟨[0b10110000], 6, [], false⟩ p ∧
      bitsOfBytes [0b10110000] = [true, false, true] ++ [true, false, false] ++ [false, false] := by
  intro os p wide
  obtain ⟨hparts, -, -, -, hnext, hcell, -, -, hbits, -⟩ := attempts_safe os
  have hbuilder : empty.attempts os = ⟨0b101100, 6, []⟩ := rfl
  have hfits : wide.Fits := ⟨by decide, by decide, Int.natCast_pos.mpr (Nat.two_pow_pos _)⟩
  have hlen : wide.field.length = 1018 := length_bitsOfNat _ _
  have hfull : ¬wide.HasRoom (empty.attempts os) := by
    intro hroom
    have hbits := hroom.1
    rw [hbuilder, hlen] at hbits
    exact absurd hbits (by decide)
  rw [hbuilder] at hcell hbits
  obtain ⟨e, -, hrefused, hlacks⟩ := (hnext wide).2 fun h => hfull h.2
  exact ⟨hparts, ⟨e, hrefused, hlacks.mpr hfits⟩, hcell, hbits⟩

end Builder

end TvmCode
