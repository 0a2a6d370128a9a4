import TvmCode.Text.Hex

/-!
# Cells

A cell holds up to 1023 bits and up to four references to further cells. The bits fill bytes from the high end; what
the last byte holds beyond the bit length is kept but no bit of the cell. `Cell.ofParts` checks the bounds, and
`Cell.bitsAt` reads any run of bits as a number.
-/

namespace TvmCode

/-- A tree of cells: data bytes, the number of bits they hold, references and the mark of an exotic cell. -/
structure Cell where
  data : List UInt8
  bitLen : Nat
  refs : List Cell
  exotic : Bool

instance : Inhabited Cell := ⟨⟨[], 0, [], false⟩⟩

/-- The most bits a cell holds. -/
def maxBits : Nat := 1023

/-- The most references a cell holds. -/
def maxRefs : Nat := 4

/-- Why parts make no cell. -/
inductive CellError where
  | bits (count : Int)
  | refs (count : Nat)
  | dataLength (bytes : Nat) (count : Int)

/-- The wording of a refusal. -/
def CellError.message : CellError → String
  | .bits count => s!"cell holds at most {maxBits} bits, got {count}"
  | .refs count => s!"cell holds at most {maxRefs} refs, got {count}"
  | .dataLength bytes count => s!"data length {bytes} does not match {count} bits"

/-- The number that bytes spell, highest first. -/
def natOfBytes (bytes : List UInt8) : Nat :=
  bytes.foldl (fun n b => n * 256 + b.toNat) 0

namespace Cell

/-- A cell of the given parts, if the counts are within bounds and the bytes are as many as the bits need. -/
def ofParts (data : List UInt8) (bitLen : Int) (refs : List Cell) (exotic : Bool) : Except CellError Cell :=
  if bitLen < 0 ∨ (maxBits : Int) < bitLen then .error (.bits bitLen)
  else if maxRefs < refs.length then .error (.refs refs.length)
  else if data.length ≠ (bitLen.toNat + 7) / 8 then .error (.dataLength data.length bitLen)
  else .ok ⟨data, bitLen.toNat, refs, exotic⟩

/-- The `width` bits from position `pos` on as a number: the bytes that hold them, shifted and cut to the width. Bytes
past the end of the data are left out and not taken for zeros. -/
def bitsAt (c : Cell) (pos width : Nat) : Nat :=
  let first := pos / 8
  let last := (pos + width + 7) / 8
  (natOfBytes ((c.data.drop first).take (last - first)) >>> (last * 8 - (pos + width))) % (1 <<< width)

/-- A cell without bits and references. -/
def isEmpty (c : Cell) : Bool := c.bitLen == 0 && c.refs.isEmpty

/-- The bits of a cell in hexadecimal. -/
def toHex (c : Cell) : String := hexOfBits (c.bitsAt 0 c.bitLen) c.bitLen

/-- A cell by its bits and its number of references. -/
def describe (c : Cell) : String := s!"Cell(x\x7b{c.toHex}\x7d, refs={c.refs.length})"

end Cell

/-- A reference is smaller than the cell that holds it. -/
theorem Cell.sizeOf_lt_of_mem_refs {c d : Cell} (h : d ∈ c.refs) : sizeOf d < sizeOf c := by
  have := List.sizeOf_lt_of_mem h
  cases c
  simp only [Cell.mk.sizeOf_spec] at *
  omega

end TvmCode
