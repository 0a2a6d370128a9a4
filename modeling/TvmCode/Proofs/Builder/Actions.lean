import Mathlib.Data.Int.Bitwise
import TvmCode.Proofs.Builder

/-!
# Stores action by action

`Store.watched` is what a store does action by action: it looks at what is to be stored, then at the room that is left,
and only then moves the number that the builder holds, puts the new bits behind it and counts them. Here the builder
holds any integers (`Builder.Parts`), and it stands as the actions left it also when one of them refuses. Making a cell
is watched in the same way: a number might not fit in its bytes, and the parts might make no cell.

A store comes to the same action by action as at once, and one that is refused has changed nothing
(`Store.watched_eq`); the cell of what is stored is always made (`Builder.Holds.endCell_eq`).
-/

namespace TvmCode

/-- A mask of the lowest bits leaves the remainder, also of a negative integer. -/
theorem land_mask (value : Int) (w : Nat) : value.land ((2 ^ w - 1 : Nat) : Int) = value % (2 ^ w : Nat) := by
  cases value with
  | ofNat n => exact congrArg Int.ofNat (Nat.and_two_pow_sub_one_eq_mod n w)
  | negSucc n =>
    have hpow := Nat.two_pow_pos w
    have hlt := Nat.mod_lt n hpow
    have hmask : Nat.ldiff (2 ^ w - 1) n = 2 ^ w - (n % 2 ^ w + 1) := by
      refine Nat.eq_of_testBit_eq fun i => ?_
      rw [Nat.testBit_ldiff, Nat.testBit_two_pow_sub_one, Nat.testBit_two_pow_sub_succ hlt, Nat.testBit_mod_two_pow]
      cases decide (i < w) <;> simp
    have hland : (Int.negSucc n).land ((2 ^ w - 1 : Nat) : Int) = (Nat.ldiff (2 ^ w - 1) n : Nat) := rfl
    rw [hland, hmask, Int.negSucc_emod _ (Int.natCast_pos.mpr hpow), ← Int.natCast_emod]
    omega

namespace Builder

/-- What a builder holds: a number and a count of bits, of any sign and size, and references. -/
structure Parts where
  value : Int
  bits : Int
  refs : List Cell

/-- What can go wrong: a refusal, a number that does not fit in its bytes, or parts that make no cell. -/
inductive Trouble where
  | refused (e : BuilderError)
  | bytes (value count : Int)
  | cell (e : CellError)

/-- Actions on what a builder holds, which stands as they left it also when something goes wrong. -/
abbrev Watched := EStateM Trouble Parts

namespace Watched

/-- Refuses when a condition holds. -/
def refuseIf (p : Prop) [Decidable p] (e : BuilderError) : Watched Unit :=
  if p then throw (.refused e) else pure ()

/-- A number moved to the left. -/
def shiftLeft (value width : Int) : Watched Int := do
  refuseIf (width < 0) .negativeWidth
  return value <<< width.toNat

/-- A number moved to the right. -/
def shiftRight (value width : Int) : Watched Int := do
  refuseIf (width < 0) .negativeWidth
  return value >>> width.toNat

/-- A look at the room that is left. -/
def require (width : Int) : Watched Unit := do
  let p ← get
  refuseIf (maxBits < p.bits + width) (.noRoom width (maxBits - p.bits).toNat)

/-- Bits behind those that are held. -/
def append (value width : Int) : Watched Unit := do
  require width
  let moved ← shiftLeft (← get).value width
  modify fun p => { p with value := moved.lor value }
  modify fun p => { p with bits := p.bits + width }

def storeNat (value width : Int) : Watched Unit := do
  refuseIf (value < 0) (.unsignedRange value width)
  refuseIf ((← shiftRight value width) ≠ 0) (.unsignedRange value width)
  append value width

def storeInt (value width : Int) : Watched Unit := do
  refuseIf (width = 0) (.signedRange value width)
  let bound ← shiftLeft 1 (width - 1)
  refuseIf (value < -bound ∨ bound ≤ value) (.signedRange value width)
  storeNat (value.land ((← shiftLeft 1 width) - 1)) width

def storeBytes (bytes : List UInt8) : Watched Unit := storeNat (natOfBytes bytes) (bytes.length * 8)

def storeBits (text : String) : Watched Unit :=
  if text.isEmpty then pure ()
  else match Text.readInt .binary text with
    | some value => storeNat value text.length
    | none => throw (.refused (.notBits text))

def storeRef (c : Cell) : Watched Unit := do
  refuseIf (maxRefs ≤ (← get).refs.length) .tooManyRefs
  modify fun p => { p with refs := p.refs ++ [c] }

/-- So many bytes of a number, if it fits in them. -/
def bytes (value count : Int) : Watched (List UInt8) :=
  if 0 ≤ count ∧ 0 ≤ value ∧ value < (2 ^ (8 * count.toNat) : Nat) then pure (bytesOfNat count.toNat value.toNat)
  else throw (.bytes value count)

/-- The cell of some parts. -/
def cell (data : List UInt8) (bits : Int) (refs : List Cell) : Watched Cell :=
  match Cell.ofParts data bits refs false with
  | .ok c => pure c
  | .error e => throw (.cell e)

def endCell : Watched Cell := do
  let p ← get
  let pad := -p.bits % 8
  cell (← bytes (← shiftLeft p.value pad) ((p.bits + pad) / 8)) p.bits p.refs

/-! ## One action after the other -/

theorem get_bind {α : Type} (f : Parts → Watched α) (q : Parts) : (get >>= f) q = f q q := rfl

section Refusing

variable {α : Type} {p : Prop} [Decidable p] {e : BuilderError} {f : Unit → Watched α} {q : Parts}

theorem refuseIf_of_pos (h : p) : (refuseIf p e >>= f) q = .error (.refused e) q := by
  rw [refuseIf, if_pos h]
  rfl

theorem refuseIf_of_neg (h : ¬p) : (refuseIf p e >>= f) q = f () q := by
  rw [refuseIf, if_neg h]
  rfl

end Refusing

section Shifting

variable {α : Type} {f : Int → Watched α} {q : Parts} (value : Int) {width : Int}

theorem shiftLeft_of_neg (h : width < 0) : (shiftLeft value width >>= f) q = .error (.refused .negativeWidth) q := by
  rw [shiftLeft, bind_assoc, refuseIf_of_pos h]

theorem shiftLeft_of_nonneg (h : 0 ≤ width) : (shiftLeft value width >>= f) q = f (value <<< width.toNat) q := by
  rw [shiftLeft, bind_assoc, refuseIf_of_neg (Int.not_lt.mpr h), pure_bind]

theorem shiftRight_of_neg (h : width < 0) : (shiftRight value width >>= f) q = .error (.refused .negativeWidth) q := by
  rw [shiftRight, bind_assoc, refuseIf_of_pos h]

theorem shiftRight_of_nonneg (h : 0 ≤ width) : (shiftRight value width >>= f) q = f (value >>> width.toNat) q := by
  rw [shiftRight, bind_assoc, refuseIf_of_neg (Int.not_lt.mpr h), pure_bind]

end Shifting

end Watched

/-! ## Stores -/

/-- The parts of a builder. -/
def parts (b : Builder) : Parts := ⟨b.value, b.bits, b.refs⟩

@[simp] theorem value_parts (b : Builder) : b.parts.value = b.value := rfl

@[simp] theorem bits_parts (b : Builder) : b.parts.bits = b.bits := rfl

@[simp] theorem refs_parts (b : Builder) : b.parts.refs = b.refs := rfl

/-- What comes of a store: the parts of the new builder, or a refusal and the parts of the old one. -/
def outcome (b : Builder) : Except BuilderError Builder → EStateM.Result Trouble Parts Unit
  | .ok b' => .ok () b'.parts
  | .error e => .error (.refused e) b.parts

/-- A number that fits in its width is one of the bits that are put behind the others. -/
theorem storeNat_of_fits (b : Builder) {value : Int} {w : Nat} (hpos : 0 ≤ value) (hlt : value < (2 ^ w : Nat)) :
    b.storeNat value w = b.append value.toNat w := by
  have hfits : value.toNat >>> w = 0 := by
    rw [Nat.shiftRight_eq_div_pow, Nat.div_eq_of_lt ((Int.toNat_lt hpos).mpr hlt)]
  rw [storeNat, if_neg (by omega), if_neg (by omega), Int.toNat_natCast, if_neg (not_not.mpr hfits)]

theorem watched_storeRef (b : Builder) (c : Cell) : Watched.storeRef c b.parts = b.outcome (b.storeRef c) := by
  rw [Watched.storeRef, storeRef, Watched.get_bind]
  by_cases hfull : maxRefs ≤ b.parts.refs.length
  · rw [Watched.refuseIf_of_pos hfull, if_pos (refs_parts b ▸ hfull)]
    rfl
  · rw [Watched.refuseIf_of_neg hfull, if_neg (refs_parts b ▸ hfull)]
    rfl

section Stores

variable {b : Builder} (h : b.bits ≤ maxBits)
include h

/-- Bits that fit in their width are put behind those that are held. -/
theorem watched_append {n w : Nat} (hn : n < 2 ^ w) : Watched.append n w b.parts = b.outcome (b.append n w) := by
  have hbits := bits_parts b
  have hleft : (maxBits - b.parts.bits).toNat = maxBits - b.bits := by omega
  -- the number moved to the left ends in zeros, so that the new bits put there are added to it
  have hvalue : (b.parts.value <<< w).lor n = ((b.value <<< w) + n : Nat) := by
    rw [Nat.shiftLeft_add_eq_or_of_lt hn, parts, ← Int.natCast_shiftLeft]
    rfl
  rw [Watched.append, Watched.require, bind_assoc, Watched.get_bind, hleft, append]
  by_cases hroom : maxBits < b.bits + w
  · rw [Watched.refuseIf_of_pos (by omega), if_pos hroom]
    rfl
  · rw [Watched.refuseIf_of_neg (by omega), if_neg hroom, Watched.get_bind,
      Watched.shiftLeft_of_nonneg _ (Int.natCast_nonneg w), Int.toNat_natCast, hvalue]
    rfl

/-- A number is stored action by action. -/
theorem watched_storeNat (value width : Int) :
    Watched.storeNat value width b.parts = b.outcome (b.storeNat value width) := by
  rw [Watched.storeNat, storeNat]
  by_cases hneg : value < 0
  · rw [Watched.refuseIf_of_pos hneg, if_pos hneg]
    rfl
  rw [Watched.refuseIf_of_neg hneg, if_neg hneg]
  by_cases hwidth : width < 0
  · rw [Watched.shiftRight_of_neg _ hwidth, if_pos hwidth]
    rfl
  rw [Watched.shiftRight_of_nonneg _ (Int.not_lt.mp hwidth), if_neg hwidth]
  obtain ⟨n, rfl⟩ := Int.eq_ofNat_of_zero_le (Int.not_lt.mp hneg)
  obtain ⟨w, rfl⟩ := Int.eq_ofNat_of_zero_le (Int.not_lt.mp hwidth)
  simp only [Int.toNat_natCast, ← Int.natCast_shiftRight]
  by_cases hfits : n >>> w = 0
  · rw [Watched.refuseIf_of_neg (not_not.mpr (Int.natCast_eq_zero.mpr hfits)), if_neg (not_not.mpr hfits)]
    rw [Nat.shiftRight_eq_div_pow, Nat.div_eq_zero_iff_lt (Nat.two_pow_pos _)] at hfits
    exact watched_append h hfits
  · rw [Watched.refuseIf_of_pos (Int.natCast_ne_zero.mpr hfits), if_pos hfits]
    rfl

/-- An integer is stored action by action; its two's complement fits in its width. -/
theorem watched_storeInt (value width : Int) :
    Watched.storeInt value width b.parts = b.outcome (b.storeInt value width) := by
  rw [Watched.storeInt, storeInt]
  by_cases hzero : width = 0
  · rw [Watched.refuseIf_of_pos hzero, if_pos hzero]
    rfl
  rw [Watched.refuseIf_of_neg hzero, if_neg hzero]
  by_cases hneg : width < 0
  · rw [Watched.shiftLeft_of_neg _ (by omega), if_pos hneg]
    rfl
  rw [Watched.shiftLeft_of_nonneg _ (by omega), if_neg hneg]
  obtain ⟨w, rfl⟩ := Int.eq_ofNat_of_zero_le (Int.not_lt.mp hneg)
  have hone : ∀ k : Nat, (1 : Int) <<< k = (1 <<< k : Nat) := fun k => (Int.natCast_shiftLeft 1 k).symm
  have hpred : ((w : Int) - 1).toNat = w - 1 := by omega
  rw [hpred, hone, Int.toNat_natCast]
  dsimp only
  by_cases hrange : value < -((1 <<< (w - 1) : Nat) : Int) ∨ ((1 <<< (w - 1) : Nat) : Int) ≤ value
  · rw [Watched.refuseIf_of_pos hrange, if_pos hrange]
    rfl
  · have hpow : (0 : Int) < (2 ^ w : Nat) := Int.natCast_pos.mpr (Nat.two_pow_pos w)
    have hmask : ((1 <<< w : Nat) : Int) - 1 = (2 ^ w - 1 : Nat) := by rw [Nat.one_shiftLeft]; omega
    rw [Watched.refuseIf_of_neg hrange, if_neg hrange, Watched.shiftLeft_of_nonneg _ (Int.natCast_nonneg w),
      Int.toNat_natCast, hone, hmask, land_mask, watched_storeNat h, Nat.one_shiftLeft,
      storeNat_of_fits b (Int.emod_nonneg value hpow.ne') (Int.emod_lt_of_pos value hpow)]

theorem watched_storeBytes (data : List UInt8) : Watched.storeBytes data b.parts = b.outcome (b.storeBytes data) := by
  have hlt : (natOfBytes data : Int) < (2 ^ (data.length * 8) : Nat) := by
    rw [Nat.mul_comm]
    exact_mod_cast natOfBytes_lt data
  rw [Watched.storeBytes, storeBytes, watched_storeNat h]
  exact congrArg b.outcome (storeNat_of_fits b (Int.natCast_nonneg _) hlt)

theorem watched_storeBits (text : String) : Watched.storeBits text b.parts = b.outcome (b.storeBits text) := by
  rw [Watched.storeBits, storeBits]
  by_cases hempty : text.isEmpty = true
  · rw [if_pos hempty, if_pos hempty]
    rfl
  · rw [if_neg hempty, if_neg hempty]
    cases Text.readInt .binary text with
    | some value => exact watched_storeNat h value text.length
    | none => rfl

end Stores

/-! ## Cells -/

/-- A number that fits in so many bytes has them. -/
theorem Watched.bytes_of_lt {n count : Nat} (h : n < 2 ^ (8 * count)) :
    Watched.bytes n count = pure (bytesOfNat count n) := by
  rw [Watched.bytes, if_pos ⟨Int.natCast_nonneg _, Int.natCast_nonneg _, Int.ofNat_lt.mpr h⟩, Int.toNat_natCast,
    Int.toNat_natCast]

section Cells

variable {b : Builder} {bits : List Bool} {refs : List Cell} (h : b.Holds bits refs)
include h

/-- With zeros up to the end of the last byte the number held fits in its bytes. -/
theorem Holds.padded_lt : b.value <<< padding b.bits < 2 ^ (8 * ((b.bits + 7) / 8)) := by
  rw [← length_add_padding, pow_add, Nat.shiftLeft_eq, h.value, h.count]
  exact Nat.mul_lt_mul_of_pos_right (natOfBits_lt bits) (Nat.two_pow_pos _)

/-- What a builder holds makes a cell. -/
theorem Holds.ofParts_eq :
    Cell.ofParts (bytesOfNat ((b.bits + 7) / 8) (b.value <<< padding b.bits)) b.bits b.refs false = .ok b.toCell := by
  rw [Cell.ofParts_eq_ok false (h.count ▸ h.bits_le) (h.links ▸ h.refs_le) (length_bytesOfNat _ _), toCell, ← padding,
    length_add_padding, Nat.mul_div_cancel_left _ (by decide)]

/-- **The cell of what is stored is made**: the number fits in the bytes, and the parts make a cell. -/
theorem Holds.endCell_eq : Watched.endCell b.parts = .ok b.toCell b.parts := by
  have hlen := length_add_padding b.bits
  have hbits := bits_parts b
  have hpad : -b.parts.bits % 8 = padding b.bits := by
    unfold padding
    omega
  have hcount : (b.parts.bits + padding b.bits) / 8 = ((b.bits + 7) / 8 : Nat) := by omega
  have hvalue : b.parts.value <<< padding b.bits = (b.value <<< padding b.bits : Nat) :=
    (Int.natCast_shiftLeft _ _).symm
  rw [Watched.endCell, Watched.get_bind, hpad, hcount, Watched.shiftLeft_of_nonneg _ (Int.natCast_nonneg _),
    Int.toNat_natCast, hvalue, Watched.bytes_of_lt h.padded_lt, pure_bind, Watched.cell, hbits, refs_parts,
    h.ofParts_eq]
  rfl

end Cells

end Builder

/-- What a store does action by action. -/
def Store.watched : Store → Builder.Watched Unit
  | .nat value width => .storeNat value width
  | .int value width => .storeInt value width
  | .bytes data => .storeBytes data
  | .bits text _ => .storeBits text
  | .ref c _ => .storeRef c

/-- **A store comes to the same action by action**; one that is refused leaves what the builder holds as it was. -/
theorem Store.watched_eq (o : Store) {b : Builder} (h : b.bits ≤ maxBits) :
    o.watched b.parts = b.outcome (o.run b) := by
  cases o with
  | nat value width => exact Builder.watched_storeNat h value width
  | int value width => exact Builder.watched_storeInt h value width
  | bytes data => exact Builder.watched_storeBytes h data
  | bits text _ => exact Builder.watched_storeBits h text
  | ref c _ => exact Builder.watched_storeRef b c

end TvmCode
