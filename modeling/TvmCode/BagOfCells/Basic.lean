import TvmCode.BagOfCells.Header
import TvmCode.Cell.Slice
import TvmCode.Note

/-!
# Bags of cells

A bag of cells is a table of cells that refer to later cells of the table by number, with some of them marked as
roots. `BagOfCells.deserialize` reads it and unfolds the roots into trees; a cell to which several cells refer is
unfolded once. Stored hashes, the index and the checksum are passed over.
-/

namespace TvmCode.BagOfCells

/-- A cell of the table: as a cell, but with the numbers of the cells it refers to. -/
structure RawCell where
  data : List UInt8
  bitLen : Nat
  refs : List Nat
  exotic : Bool

/-- The bytes and the bit length that remain when the last one bit and the zeros after it are taken away. -/
def stripTag (data : List UInt8) : Except BagError (List UInt8 × Nat) :=
  let last := (data.getLastD 0).toNat
  if last = 0 then .error .missingTag
  else
    let pad := trailingZeros last + 1
    let bitLen := data.length * 8 - pad
    let cleared := (last >>> pad) <<< pad
    .ok ((data.dropLast ++ [UInt8.ofNat cleared]).take ((bitLen + 7) / 8), bitLen)

/-- The number of one bits of a number below eight. -/
def popCount3 (n : Nat) : Nat := n % 2 + n / 2 % 2 + n / 4 % 2

/-- The bytes of a stored hash and the depth stored with it. -/
def hashBytes : Nat := 32 + 2

open Reader

/-- The data and the bit length of a cell, by its second byte. -/
def untag (d2 : Nat) (bytes : List UInt8) : Reader (List UInt8 × Nat) :=
  if d2 % 2 = 1 then liftM (stripTag bytes) else pure (bytes, bytes.length * 8)

/-- The cell with the given number. Its first byte has the number of references, the exotic mark, the mark of stored
hashes and the level; the second has twice the number of data bytes, less one if the last byte is completed by a tag.
-/
def readCell (refSize index : Nat) : Reader RawCell := do
  let d1 ← number 1 "cell descriptor"
  let d2 ← number 1 "cell descriptor"
  let refCount := d1 % 8
  refuseIf (refCount = 7) (.absentCell index)
  refuseIf (maxRefs < refCount) (.refCount index refCount)
  skipIf (d1 / 16 % 2 = 1) ((popCount3 (d1 / 32) + 1) * hashBytes) "stored hashes"
  let bytes ← take ((d2 + 1) / 2) "cell data"
  let (data, bitLen) ← untag d2 bytes
  refuseIf (maxBits < bitLen) (.bitCount index bitLen)
  let refs ← forEach (fun _ => number refSize "cell reference") 0 refCount
  refuseAny refs (· ≤ index) (.backwardRef index)
  return ⟨data, bitLen, refs, d1 / 8 % 2 = 1⟩

/-- The cells of the end of a table, from the one with the given number on: the later ones are unfolded first, so that
the references of a cell lead to cells that are there. -/
def unfold (start : Nat) : List RawCell → List Cell
  | [] => []
  | raw :: later =>
    let cells := unfold (start + 1) later
    ⟨raw.data, raw.bitLen, raw.refs.map fun target => cells.getD (target - (start + 1)) default, raw.exotic⟩ :: cells

/-- What reading a bag of cells gives: its roots, and how many cells were read and bytes left over. -/
structure Contents where
  roots : List Cell
  cellCount : Nat
  leftOver : Nat

/-- A bag of cells at the front of the input. -/
def readBag : Reader Contents := do
  let header ← readHeader
  skipIf header.hasIndex (header.cellCount * header.offsetSize) "cell index"
  let start ← position
  let table ← forEach (readCell header.refSize) 0 header.cellCount
  let parsed := (← position) - start
  refuseIf (parsed ≠ header.cellBytes) (.sizeMismatch header.cellBytes parsed)
  refuseAny (table.flatMap (·.refs)) (header.cellCount ≤ ·) .refIndex
  skipIf header.hasChecksum 4 "crc32c"
  let leftOver := (← get).rest.length
  let cells := unfold 0 table
  return ⟨header.roots.map (cells.getD · default), header.cellCount, leftOver⟩

/-- The roots of a serialized bag of cells. -/
def contents (bytes : List UInt8) : Except BagError Contents :=
  (readBag ⟨0, bytes⟩).map (·.1)

/-- What is reported of a bag of cells once it is read. -/
def notes (c : Contents) : List Note :=
  (if c.leftOver = 0 then [] else [.trailingBytes c.leftOver]) ++ [.bagRead c.cellCount c.roots.length]

/-- The root cells of a serialized bag of cells, in order. -/
def deserialize (bytes : List UInt8) : Except BagError (List Cell) :=
  (contents bytes).map (·.roots)

end TvmCode.BagOfCells
