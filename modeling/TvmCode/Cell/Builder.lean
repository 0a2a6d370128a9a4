import TvmCode.Cell.Basic
import TvmCode.Text.Numeral
import TvmCode.Text.Quoted

/-!
# Building cells

A builder collects bits and references from the front. Every store either succeeds or leaves the builder as it was,
and the reasons to refuse one are tried in a fixed order: the number must be within the range of its width, and then
the width within the room that is left. `Builder.toCell` fills the last byte up with zeros.
-/

namespace TvmCode

/-- The bits stored so far as one number, how many they are, and the references in order. -/
structure Builder where
  value : Nat
  bits : Nat
  refs : List Cell

/-- Why something cannot be stored. -/
inductive BuilderError where
  | unsignedRange (value width : Int)
  | signedRange (value width : Int)
  | negativeWidth
  | noRoom (width : Int) (left : Nat)
  | tooManyRefs
  | notBits (text : String)

/-- The wording of a refusal; a text that is no numeral is shown by the first 200 characters of its quoted form. -/
def BuilderError.message : BuilderError → String
  | .unsignedRange value width => s!"{value} does not fit in {width} unsigned bits"
  | .signedRange value width => s!"{value} does not fit in {width} signed bits"
  | .negativeWidth => "negative shift count"
  | .noRoom width left => s!"cannot store {width} bits: {left} left"
  | .tooManyRefs => s!"cell holds at most {maxRefs} refs"
  | .notBits text =>
    "invalid literal for int() with base 2: " ++ String.ofList ((Text.quote text).toList.take 200)

/-- The lowest `count` bytes of a number, highest first. -/
def bytesOfNat : Nat → Nat → List UInt8
  | 0, _ => []
  | count + 1, n => bytesOfNat count (n / 256) ++ [UInt8.ofNat (n % 256)]

namespace Builder

/-- Nothing is stored yet. -/
def empty : Builder := ⟨0, 0, []⟩

/-- The builder with `width` more bits, if there is room for them. -/
def append (b : Builder) (value width : Nat) : Except BuilderError Builder :=
  if maxBits < b.bits + width then .error (.noRoom width (maxBits - b.bits))
  else .ok { b with value := (b.value <<< width) + value, bits := b.bits + width }

/-- Stores a number without sign. -/
def storeNat (b : Builder) (value width : Int) : Except BuilderError Builder :=
  if value < 0 then .error (.unsignedRange value width)
  else if width < 0 then .error .negativeWidth
  else if value.toNat >>> width.toNat ≠ 0 then .error (.unsignedRange value width)
  else b.append value.toNat width.toNat

/-- Stores an integer in two's complement. -/
def storeInt (b : Builder) (value width : Int) : Except BuilderError Builder :=
  if width = 0 then .error (.signedRange value width)
  else if width < 0 then .error .negativeWidth
  else
    let bound : Nat := 1 <<< (width.toNat - 1)
    if value < -(bound : Int) ∨ (bound : Int) ≤ value then .error (.signedRange value width)
    else b.append (value % ((1 <<< width.toNat : Nat) : Int)).toNat width.toNat

/-- Stores bytes. -/
def storeBytes (b : Builder) (bytes : List UInt8) : Except BuilderError Builder :=
  b.append (natOfBytes bytes) (bytes.length * 8)

/-- Stores the number that a binary numeral spells in as many bits as the text has characters. -/
def storeBits (b : Builder) (text : String) : Except BuilderError Builder :=
  if text.isEmpty then .ok b
  else match Text.readInt .binary text with
    | some value => b.storeNat value text.length
    | none => .error (.notBits text)

/-- Stores a reference. -/
def storeRef (b : Builder) (c : Cell) : Except BuilderError Builder :=
  if maxRefs ≤ b.refs.length then .error .tooManyRefs
  else .ok { b with refs := b.refs ++ [c] }

/-- The cell of what is stored. -/
def toCell (b : Builder) : Cell :=
  let pad := (8 - b.bits % 8) % 8
  ⟨bytesOfNat ((b.bits + pad) / 8) (b.value <<< pad), b.bits, b.refs, false⟩

end Builder

end TvmCode
