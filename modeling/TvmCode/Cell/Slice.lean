import TvmCode.Cell.Basic
import TvmCode.Fault

/-!
# Slices

A slice is a window over the bits and the references of one cell. Reading takes from the front of the window and gives
the slice of what is left; it fails when less is left than asked for, and then nothing is taken. Widths and indices
are integers because a negative one is refused in the same way as one that is too large.
-/

namespace TvmCode

/-- A window `bitPos ≤ · < bitEnd` over the bits and `refPos ≤ · < refEnd` over the references of a cell. -/
structure Slice where
  cell : Cell
  bitPos : Nat
  bitEnd : Nat
  refPos : Nat
  refEnd : Nat

/-- Why bounds make no window of a cell. -/
inductive WindowError where
  | bits (start stop : Int)
  | refs (start stop : Int)

/-- The wording of a refusal. -/
def WindowError.message : WindowError → String
  | .bits start stop => s!"bad bit window {start}..{stop}"
  | .refs start stop => s!"bad ref window {start}..{stop}"

/-- The number of zero bits below the lowest one; zero has none. -/
def trailingZeros (n : Nat) : Nat :=
  if n = 0 ∨ n % 2 = 1 then 0 else trailingZeros (n / 2) + 1
termination_by n
decreasing_by omega

namespace Slice

/-- The whole of a cell. -/
def ofCell (c : Cell) : Slice := ⟨c, 0, c.bitLen, 0, c.refs.length⟩

/-- A window lies within its cell. -/
def Valid (s : Slice) : Prop :=
  s.bitPos ≤ s.bitEnd ∧ s.bitEnd ≤ s.cell.bitLen ∧ s.refPos ≤ s.refEnd ∧ s.refEnd ≤ s.cell.refs.length

/-- The window with the given bounds, where a negative end is the end of the cell. -/
def ofBounds (c : Cell) (bitPos bitEnd refPos refEnd : Int) : Except WindowError Slice :=
  let bitStop := if bitEnd < 0 then (c.bitLen : Int) else bitEnd
  let refStop := if refEnd < 0 then (c.refs.length : Int) else refEnd
  if ¬(0 ≤ bitPos ∧ bitPos ≤ bitStop ∧ bitStop ≤ c.bitLen) then .error (.bits bitPos bitStop)
  else if ¬(0 ≤ refPos ∧ refPos ≤ refStop ∧ refStop ≤ c.refs.length) then .error (.refs refPos refStop)
  else .ok ⟨c, bitPos.toNat, bitStop.toNat, refPos.toNat, refStop.toNat⟩

/-- The number of bits left. -/
def remainingBits (s : Slice) : Nat := s.bitEnd - s.bitPos

/-- The number of references left. -/
def remainingRefs (s : Slice) : Nat := s.refEnd - s.refPos

/-- Neither bits nor references are left. -/
def isEmpty (s : Slice) : Bool := s.remainingBits == 0 && s.remainingRefs == 0

/-- The bits left as one number. -/
def value (s : Slice) : Nat := s.cell.bitsAt s.bitPos s.remainingBits

/-- The bits left in hexadecimal. -/
def toHex (s : Slice) : String := hexOfBits s.value s.remainingBits

/-- A slice by the bits and the number of references left. -/
def describe (s : Slice) : String := s!"Slice(x\x7b{s.toHex}\x7d, refs={s.remainingRefs})"

/-! ## Bits -/

/-- The width as a number, if that many bits are left. -/
def requireBits (s : Slice) (width : Int) : Except Fault Nat :=
  if width < 0 ∨ (s.bitEnd : Int) < s.bitPos + width then .error (.short s.bitPos width .bits)
  else .ok width.toNat

/-- The slice after its first bits. -/
def dropBits (s : Slice) (width : Nat) : Slice := { s with bitPos := s.bitPos + width }

/-- The next bits as a number, left in place. -/
def peekNat (s : Slice) (width : Int) : Except Fault Nat :=
  (s.requireBits width).map (s.cell.bitsAt s.bitPos)

/-- The next bits as a number. -/
def readNat (s : Slice) (width : Int) : Except Fault (Nat × Slice) :=
  (s.requireBits width).map fun w => (s.cell.bitsAt s.bitPos w, s.dropBits w)

/-- A number of `width` bits in two's complement. -/
def signed (value width : Nat) : Int :=
  if 0 < width ∧ 1 <<< (width - 1) ≤ value then (value : Int) - (1 <<< width : Nat) else value

/-- The next bits as an integer in two's complement. -/
def readInt (s : Slice) (width : Int) : Except Fault (Int × Slice) :=
  (s.requireBits width).map fun w => (signed (s.cell.bitsAt s.bitPos w) w, s.dropBits w)

/-- The next bits as a slice of their own, without references. -/
def readBits (s : Slice) (width : Int) : Except Fault (Slice × Slice) :=
  (s.requireBits width).map fun w => (⟨s.cell, s.bitPos, s.bitPos + w, s.refPos, s.refPos⟩, s.dropBits w)

/-- The slice without references and without the last one bit and the zeros after it; if there is no one, no bits. -/
def trimMarker (s : Slice) : Slice :=
  let stop := if s.value = 0 then s.bitPos else s.bitEnd - (trailingZeros s.value + 1)
  ⟨s.cell, s.bitPos, stop, s.refPos, s.refPos⟩

/-! ## References -/

/-- The index as a number, if the reference is there. -/
def requireRef (s : Slice) (index : Int) : Except Fault Nat :=
  if index < 0 ∨ (s.refEnd : Int) ≤ s.refPos + index then .error (.short s.bitPos (index + 1) .refs)
  else .ok index.toNat

/-- The cell a reference leads to, by its position among those left. -/
def reference (s : Slice) (index : Int) : Except Fault Cell :=
  (s.requireRef index).map fun i => s.cell.refs.getD (s.refPos + i) default

/-- The slice after its first references. -/
def dropRefs (s : Slice) (count : Nat) : Slice := { s with refPos := s.refPos + count }

/-- The cell a reference leads to, taken together with the references before it. -/
def descend (s : Slice) (index : Int) : Except Fault (Cell × Slice) :=
  (s.requireRef index).map fun i => (s.cell.refs.getD (s.refPos + i) default, s.dropRefs (i + 1))

/-- The next bits and references as a slice of their own. -/
def readSlice (s : Slice) (bits refs : Int) : Except Fault (Slice × Slice) := do
  let w ← s.requireBits bits
  if refs ≠ 0 then
    let _ ← s.requireRef (refs - 1)
  let n := refs.toNat
  return (⟨s.cell, s.bitPos, s.bitPos + w, s.refPos, s.refPos + n⟩, (s.dropBits w).dropRefs n)

end Slice

end TvmCode
