import TvmCode.Cell.Slice
import TvmCode.Note

/-!
# Decoders

A decoder reads from the front of a slice and may fail. The place it has reached and the notes it has made are kept
also when it fails, because both can be seen afterwards.
-/

namespace TvmCode

/-- How far a decoder has read, and what it has reported. -/
structure Cursor where
  slice : Slice
  notes : List Note

/-- A reader of a slice that may fail at the place it has reached. -/
abbrev Decoder := EStateM Fault Cursor

namespace Decoder

/-- Takes something from the slice; on failure nothing is taken. -/
def take {α : Type} (read : Slice → Except Fault (α × Slice)) : Decoder α := fun c =>
  match read c.slice with
  | .ok (a, rest) => .ok a { c with slice := rest }
  | .error f => .error f c

/-- The next bits as a number. -/
def nat (width : Int) : Decoder Nat := take (·.readNat width)

/-- The next bits as an integer in two's complement. -/
def int (width : Int) : Decoder Int := take (·.readInt width)

/-- The next bits as a slice. -/
def bits (width : Int) : Decoder Slice := take (·.readBits width)

/-- The next reference. -/
def ref : Decoder Cell := take (·.descend 0)

/-- The next references. -/
def refs : Nat → Decoder (List Cell)
  | 0 => return []
  | count + 1 => do
    let c ← ref
    let cs ← refs count
    return c :: cs

/-- The results of a decoder for each member of a list in turn. -/
def each {α β : Type} (decode : α → Decoder β) : List α → Decoder (List β)
  | [] => return []
  | a :: as => do
    let b ← decode a
    let bs ← each decode as
    return b :: bs

/-- Adds notes to those made so far. -/
def report (notes : List Note) : Decoder Unit :=
  modify fun c => { c with notes := c.notes ++ notes }

/-- An integer literal: five bits give a length `l`, and `8 * l + 19` bits in two's complement follow. The header byte
is taken first and the whole bytes of the literal after it. -/
def bigInt : Decoder Int := do
  let header ← nat 8
  let tailBits := (header / 8 + 2) * 8
  let tail ← nat tailBits
  return Slice.signed (((header % 8) <<< tailBits) + tail) (tailBits + 3)

end Decoder

end TvmCode
