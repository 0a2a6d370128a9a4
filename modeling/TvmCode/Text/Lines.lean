/-!
# Blanks, lines and margins

Two sets of blank characters are told apart. `isSpace` is the `White_Space` property of the character database and is
what may surround a numeral. `isBlank` adds the four information separators U+001C to U+001F and is what a setting is
trimmed of and what makes a line count as blank.

`splitLines` cuts a text after every line break, a carriage return and a line feed together counting as one, and keeps
the breaks. `indent` puts a margin in front of every line that is not blank.
-/

namespace TvmCode.Text

/-! ## Blanks -/

/-- The characters with the `White_Space` property. -/
def isSpace (c : Char) : Bool :=
  (0x09 ≤ c.toNat && c.toNat ≤ 0x0d) || c.toNat == 0x20 || c.toNat == 0x85 || c.toNat == 0xa0 ||
  c.toNat == 0x1680 || (0x2000 ≤ c.toNat && c.toNat ≤ 0x200a) || c.toNat == 0x2028 || c.toNat == 0x2029 ||
  c.toNat == 0x202f || c.toNat == 0x205f || c.toNat == 0x3000

/-- White space and the information separators. -/
def isBlank (c : Char) : Bool :=
  isSpace c || (0x1c ≤ c.toNat && c.toNat ≤ 0x1f)

/-- The text without the characters of a class at either end. -/
def trimChars (drop : Char → Bool) (cs : List Char) : List Char :=
  ((cs.dropWhile drop).reverse.dropWhile drop).reverse

/-! ## Lines -/

/-- The characters that end a line. -/
def isLineBreak (c : Char) : Bool :=
  (0x0a ≤ c.toNat && c.toNat ≤ 0x0d) || (0x1c ≤ c.toNat && c.toNat ≤ 0x1e) || c.toNat == 0x85 ||
  c.toNat == 0x2028 || c.toNat == 0x2029

/-- The lines of a text with their breaks. -/
def splitLines : List Char → List (List Char)
  | [] => []
  | '\r' :: '\n' :: cs => ['\r', '\n'] :: splitLines cs
  | c :: cs =>
    if isLineBreak c then [c] :: splitLines cs
    else match splitLines cs with
      | [] => [[c]]
      | line :: lines => (c :: line) :: lines

/-- A line behind a margin, unless it is blank. -/
def indentLine (margin : List Char) (line : List Char) : List Char :=
  if line.all isBlank then line else margin ++ line

/-- Every line that is not blank gets `width` spaces in front. -/
def indent (width : Nat) (text : String) : String :=
  String.ofList ((splitLines text.toList).flatMap (indentLine (List.replicate width ' ')))

end TvmCode.Text
