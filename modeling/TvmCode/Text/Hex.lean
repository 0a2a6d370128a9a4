/-!
# Hexadecimal numerals

`hexDigits` writes a number with the fewest lowercase digits, one for zero. `hexPadded` fills up with zeros on the
left, and `hexNumeral` also writes a sign and a mark such as `0x` in front of the zeros, all of which count towards
the width.

`hexOfBits` writes a bit string. One whose length is a multiple of four has one digit for each four bits. Any other is
completed by a one and as many zeros as the last digit needs, and an underscore follows the digits.
-/

namespace TvmCode

namespace Text

/-- The lowercase digit with the given value below sixteen. -/
def hexDigit (n : Nat) : Char :=
  if n < 10 then Char.ofNat (0x30 + n) else Char.ofNat (0x57 + n)

/-- The digits of a number, highest first, without leading zeros. -/
def hexDigits (n : Nat) : List Char :=
  if n < 16 then [hexDigit n] else hexDigits (n / 16) ++ [hexDigit (n % 16)]

/-- A number with at least `width` digits. -/
def hexPadded (width n : Nat) : String :=
  String.ofList ((hexDigits n).leftpad width '0')

/-- A number behind its sign and a mark, with zeros between the mark and the digits up to `width` characters. -/
def hexNumeral (mark : String) (width : Nat) (n : Int) : String :=
  let lead := if n < 0 then "-" ++ mark else mark
  lead ++ hexPadded (width - lead.length) n.natAbs

/-- A number with the fewest digits. -/
def hex (n : Nat) : String := hexPadded 0 n

/-- A number with the fewest digits behind `0x`. -/
def hexMarked (n : Int) : String := hexNumeral "0x" 0 n

end Text

/-- The `width` bits of a number as hexadecimal text. -/
def hexOfBits (value width : Nat) : String :=
  if width = 0 then ""
  else if width % 4 = 0 then Text.hexPadded (width / 4) value
  else
    let pad := 4 - width % 4
    Text.hexPadded ((width + pad) / 4) ((value <<< pad) + (1 <<< (pad - 1))) ++ "_"

end TvmCode
