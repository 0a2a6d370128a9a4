import TvmCode.Text.Hex
import TvmCode.Text.Printable

/-!
# Quoted text

`quote` shows a text between quotes on one line. Single quotes are used unless the text has a single quote and no
double quote. The quote in use, the backslash and every character that is not printable are escaped; the escape of a
character by its code point has two, four or eight digits, as few as hold it.
-/

namespace TvmCode.Text

/-- A character by its code point. -/
def escapeCode (c : Char) : String :=
  if c.toNat < 0x100 then "\\x" ++ hexPadded 2 c.toNat
  else if c.toNat < 0x10000 then "\\u" ++ hexPadded 4 c.toNat
  else "\\U" ++ hexPadded 8 c.toNat

/-- One character of a text between the given quotes. -/
def escapeChar (mark c : Char) : String :=
  if c = mark || c = '\\' then String.ofList ['\\', c]
  else if c = '\t' then "\\t"
  else if c = '\n' then "\\n"
  else if c = '\r' then "\\r"
  else if isPrintable c then String.singleton c
  else escapeCode c

/-- The quote in which a text is shown. -/
def quoteMark (text : List Char) : Char :=
  if text.contains '\x27' && !text.contains '\x22' then '\x22' else '\x27'

/-- A text between quotes, on one line. -/
def quote (text : String) : String :=
  let mark := quoteMark text.toList
  String.singleton mark ++ String.join (text.toList.map (escapeChar mark)) ++ String.singleton mark

end TvmCode.Text
