import TvmCode.Text.Lines

/-!
# Integer numerals

`readInt` reads an integer numeral: white space around it, one sign, a mark for the base, digits of any script with
single underscores between them. A numeral is read in a fixed base, whose own mark it may carry, or in the base that
its mark names, where a decimal numeral has no leading zeros unless it is zero.

The digits of a script are ten consecutive characters, which make up the general category `Nd` of the character
database (version 14). `digitZeros` lists where they start.

Decimal numerals have a bounded number of digits. `readInt` takes none with more, and `writeInt?` writes none.
-/

namespace TvmCode.Text

/-! ## Digits -/

/-- The code point of the digit zero of each script, in increasing order. -/
def digitZeros : List Nat := [
  0x30, 0x660, 0x6f0, 0x7c0, 0x966, 0x9e6, 0xa66, 0xae6, 0xb66, 0xbe6, 0xc66, 0xce6, 0xd66, 0xde6, 0xe50, 0xed0,
  0xf20, 0x1040, 0x1090, 0x17e0, 0x1810, 0x1946, 0x19d0, 0x1a80, 0x1a90, 0x1b50, 0x1bb0, 0x1c40, 0x1c50, 0xa620,
  0xa8d0, 0xa900, 0xa9d0, 0xa9f0, 0xaa50, 0xabf0, 0xff10, 0x104a0, 0x10d30, 0x11066, 0x110f0, 0x11136, 0x111d0,
  0x112f0, 0x11450, 0x114d0, 0x11650, 0x116c0, 0x11730, 0x118e0, 0x11950, 0x11c50, 0x11d50, 0x11da0, 0x16a60,
  0x16ac0, 0x16b50, 0x1d7ce, 0x1d7d8, 0x1d7e2, 0x1d7ec, 0x1d7f6, 0x1e140, 0x1e2f0, 0x1e950, 0x1fbf0]

/-- The value of a decimal digit, whatever its script. -/
def digitValue? (c : Char) : Option Nat :=
  (digitZeros.find? fun first => first ≤ c.toNat && c.toNat < first + 10).map (c.toNat - ·)

/-- The most digits that a numeral may have whose base is not a power of two. -/
def maxDecimalDigits : Nat := 4300

/-! ## Reading -/

/-- The bases in which a numeral can be read: two, ten, or the one that its mark names, which is ten without a mark.
-/
inductive Base where
  | binary
  | decimal
  | marked

/-- Digits of other scripts become the ASCII digits, other white space becomes a blank. -/
def plainChar (c : Char) : Char :=
  if c.toNat < 0x80 then c
  else if isSpace c then ' '
  else match digitValue? c with
    | some d => Char.ofNat (0x30 + d)
    | none => c

/-- The value of an ASCII digit or letter as a digit below thirty-six. -/
def letterValue? (c : Char) : Option Nat :=
  if '0' ≤ c && c ≤ '9' then some (c.toNat - 0x30)
  else if 'a' ≤ c && c ≤ 'z' then some (c.toNat - 0x57)
  else if 'A' ≤ c && c ≤ 'Z' then some (c.toNat - 0x37)
  else none

/-- The value of a digit of the given base. -/
def digitIn? (base : Nat) (c : Char) : Option Nat :=
  (letterValue? c).filter (· < base)

/-- One digit or more, with single underscores between them. -/
def digitRun? (base : Nat) : List Char → Option (List Nat)
  | [] => none
  | [c] => (digitIn? base c).map fun d => [d]
  | c :: '_' :: cs => do
    let d ← digitIn? base c
    let ds ← digitRun? base cs
    return d :: ds
  | c :: cs => do
    let d ← digitIn? base c
    let ds ← digitRun? base cs
    return d :: ds

/-- The number with the given digits, highest first. -/
def ofDigits (base : Nat) (ds : List Nat) : Nat :=
  ds.foldl (fun n d => n * base + d) 0

/-- A decimal numeral of bounded length. -/
def decimal? (cs : List Char) : Option Nat :=
  match digitRun? 10 cs with
  | some ds => if ds.length ≤ maxDecimalDigits then some (ofDigits 10 ds) else none
  | none => none

/-- The digits that follow the mark of a base, perhaps after an underscore. -/
def afterMark? (base : Nat) (cs : List Char) : Option Nat :=
  (digitRun? base (if cs.head? = some '_' then cs.tail else cs)).map (ofDigits base)

/-- The base that a letter after a zero stands for. -/
def markBase? (c : Char) : Option Nat :=
  if c = 'x' || c = 'X' then some 16
  else if c = 'o' || c = 'O' then some 8
  else if c = 'b' || c = 'B' then some 2
  else none

/-- A numeral without sign in the base that its mark names. -/
def marked? (cs : List Char) : Option Nat :=
  match cs with
  | '0' :: c :: rest =>
    match markBase? c with
    | some base => afterMark? base rest
    | none => (decimal? cs).filter (· == 0)
  | _ => decimal? cs

/-- A numeral without sign in base two, with or without its mark. -/
def binary? (cs : List Char) : Option Nat :=
  match cs with
  | '0' :: c :: rest => if markBase? c = some 2 then afterMark? 2 rest else (digitRun? 2 cs).map (ofDigits 2)
  | _ => (digitRun? 2 cs).map (ofDigits 2)

/-- A numeral without sign. -/
def magnitude? : Base → List Char → Option Nat
  | .binary => binary?
  | .decimal => decimal?
  | .marked => marked?

/-- An integer numeral with its sign, between white space. -/
def readInt (base : Base) (text : String) : Option Int :=
  match trimChars isSpace (text.toList.map plainChar) with
  | '-' :: cs => (magnitude? base cs).map fun n => -(n : Int)
  | '+' :: cs => (magnitude? base cs).map fun n => (n : Int)
  | cs => (magnitude? base cs).map fun n => (n : Int)

/-! ## Writing -/

/-- An integer has few enough digits for a decimal numeral. -/
def Writable (n : Int) : Prop := (Nat.toDigits 10 n.natAbs).length ≤ maxDecimalDigits

instance (n : Int) : Decidable (Writable n) := inferInstanceAs (Decidable (_ ≤ _))

/-- An integer as a decimal numeral, if it has few enough digits. -/
def writeInt? (n : Int) : Option String := if Writable n then some (toString n) else none

end TvmCode.Text
