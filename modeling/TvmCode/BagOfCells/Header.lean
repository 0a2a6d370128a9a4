import TvmCode.BagOfCells.Reader

/-!
# The header of a bag of cells

There are three layouts, told apart by the first four bytes: the generic one with flags and any number of roots, and
two indexed ones, with and without a checksum, whose single root is the first cell.
-/

namespace TvmCode.BagOfCells

/-- The layouts of a bag of cells. -/
inductive Layout where
  | generic
  | indexed
  | indexedChecked
  deriving DecidableEq

/-- The four bytes that a layout starts with. -/
def Layout.magic : Layout → Nat
  | .generic => 0xb5ee9c72
  | .indexed => 0x68ff65f3
  | .indexedChecked => 0xacc3a728

/-- The layout that starts with the given four bytes. -/
def Layout.ofMagic? (magic : Nat) : Option Layout :=
  [Layout.generic, .indexed, .indexedChecked].find? (·.magic == magic)

/-- What is known before the cells: whether an index precedes and a checksum follows them, how many bytes a cell
number takes, how many cells there are, how many bytes they take, and which of them are roots. -/
structure Header where
  hasIndex : Bool
  hasChecksum : Bool
  refSize : Nat
  offsetSize : Nat
  cellCount : Nat
  cellBytes : Nat
  roots : List Nat

open Reader

/-- Whether an index and a checksum are there, and the bytes of a cell number. -/
def readLayoutFlags : Layout → Reader (Bool × Bool × Nat)
  | .generic => do
    let flags ← number 1 "flags"
    refuseIf (flags / 8 % 4 ≠ 0) (.reservedFlags flags)
    return (flags / 128 % 2 = 1, flags / 64 % 2 = 1, flags % 8)
  | .indexed => do
    return (true, false, ← number 1 "ref size")
  | .indexedChecked => do
    return (true, true, ← number 1 "ref size")

/-- The numbers of the root cells. -/
def readRoots (layout : Layout) (refSize rootCount : Nat) : Reader (List Nat) :=
  match layout with
  | .generic => forEach (fun _ => number refSize "root index") 0 rootCount
  | _ => do
    refuseIf (rootCount ≠ 1) .severalRoots
    return [0]

/-- The header at the front of the input. -/
def readHeader : Reader Header := do
  let magic ← number 4 "magic"
  let some layout := Layout.ofMagic? magic | throw (.unknownMagic magic)
  let (hasIndex, hasChecksum, refSize) ← readLayoutFlags layout
  refuseIf (refSize < 1 ∨ 4 < refSize) (.refSize refSize)
  let offsetSize ← number 1 "offset size"
  refuseIf (offsetSize < 1 ∨ 8 < offsetSize) (.offsetSize offsetSize)
  let cellCount ← number refSize "cell count"
  let rootCount ← number refSize "root count"
  let absentCount ← number refSize "absent count"
  let cellBytes ← number offsetSize "total cells size"
  refuseIf (rootCount < 1 ∨ cellCount < rootCount) (.rootCount rootCount cellCount)
  refuseIf (cellCount < absentCount) (.absentCount absentCount)
  let roots ← readRoots layout refSize rootCount
  refuseAny roots (cellCount ≤ ·) .rootIndex
  return ⟨hasIndex, hasChecksum, refSize, offsetSize, cellCount, cellBytes, roots⟩

end TvmCode.BagOfCells
