import TvmCode.Dispatch

/-!
# Instructions

An instruction is given by the opcode bits it starts with and by the form of what follows. Most instructions have
immediate operands shown within a fixed text; others carry literals, references or whole continuations. A code page
declares its instructions by records, often a whole group of them that differ in their last byte and their name.
-/

namespace TvmCode

/-- Bits that an instruction has to start with. -/
structure Opcode where
  code : Int
  width : Int

/-- An immediate operand of `bits` bits, shown as `scale * value + bias`. -/
structure Operand where
  bits : Int
  bias : Int
  signed : Bool
  scale : Int

namespace Operand

/-- An operand without sign. -/
def uint (bits : Int) : Operand := ⟨bits, 0, false, 1⟩

/-- An operand without sign that is stored less `bias`. -/
def biased (bits bias : Int) : Operand := ⟨bits, bias, false, 1⟩

/-- An operand in two's complement. -/
def sint (bits : Int) : Operand := ⟨bits, 0, true, 1⟩

end Operand

/-- A text with places for operands: the pieces before, between and after them. -/
abbrev Template := List String

namespace Template

/-- The pieces behind the places, each after the operand in its place, if all these can be written. Operands without a
place are left out. -/
def fillPlaces : List String → List Int → Option String
  | [], _ => some ""
  | piece :: pieces, [] => do
    let rest ← fillPlaces pieces []
    return piece ++ rest
  | piece :: pieces, v :: vs => do
    let shown ← Text.writeInt? v
    let rest ← fillPlaces pieces vs
    return shown ++ piece ++ rest

/-- The text with the operands in their places, if these can be written. -/
def fill : Template → List Int → Option String
  | [], _ => some ""
  | head :: pieces, values => (fillPlaces pieces values).map (head ++ ·)

/-- The pieces with one more character in front of the first. -/
def prepend (c : Char) : List (List Char) → List (List Char)
  | [] => [[c]]
  | piece :: pieces => (c :: piece) :: pieces

/-- The pieces between pairs of braces. Two braces of one kind stand for one, and a single one for itself. -/
def pieces : List Char → List (List Char)
  | [] => [[]]
  | [c] => [[c]]
  | c :: d :: rest =>
    if c = '\x7b' ∧ d = '\x7d' then [] :: pieces rest
    else if c = d ∧ (c = '\x7b' ∨ c = '\x7d') then prepend c (pieces rest)
    else prepend c (pieces (d :: rest))

/-- The template of a text in which a pair of braces marks each place, and any other brace is written twice. -/
def ofText (text : String) : Template := (pieces text.toList).map String.ofList

end Template

/-- What follows the opcode of an instruction, and how the instruction is shown. -/
inductive Form where
  /-- Operands, and then references that are data and not shown. -/
  | line (text : Template) (operands : List Operand) (refs : Nat)
  /-- Operands, and then references that are continuations and shown as blocks. -/
  | blocks (text : Template) (operands : List Operand) (refs : Nat)
  /-- A stack register in four bits, where register zero has a name of its own. -/
  | register (zero other : String)
  /-- An integer from -5 to 10 in four bits. -/
  | smallInt (name : String)
  /-- An integer of variable length. -/
  | bigInt (name : String)
  /-- A bit string of `8 * n + extra` bits with its completion tag, where `n` is given in `size` bits. The `reserved`
  bits before them have to be zero. -/
  | literal (lead : String) (reserved size extra : Nat)
  /-- A continuation made of references, counted in `refBits` bits, and of bytes, counted in `sizeBits` bits. -/
  | inlineBody (name : String) (refBits sizeBits : Nat)
  /-- A byte selects one of several lines. -/
  | select (cases : List (Nat × Template × List Operand))
  /-- A text of up to fifteen bytes and the byte that says what to do with it. -/
  | debugText

/-- An instruction: the opcodes that are checked one after the other, and the form of the rest. -/
structure Instr where
  opcodes : List Opcode
  form : Form

namespace Instr

/-- An instruction without operands. -/
def plain (name : String) (code width : Int) : Instr := ⟨[⟨code, width⟩], .line [name] [] 0⟩

/-- An instruction with immediate operands. -/
def line (text : Template) (code width : Int) (operands : List Operand) : Instr :=
  ⟨[⟨code, width⟩], .line text operands 0⟩

/-- An instruction with references that are data. -/
def refData (name : String) (code width : Int) (refs : Nat) : Instr :=
  ⟨[⟨code, width⟩], .line [name] [] refs⟩

/-- An instruction with references that are continuations. -/
def refBlocks (name : String) (code width : Int) (refs : Nat) : Instr :=
  ⟨[⟨code, width⟩], .blocks [name] [] refs⟩

end Instr

/-! ## Declaring instructions -/

namespace CodePage

open Operand

/-- Instructions of one byte without operands. -/
def oneByte (names : List (Int × String)) : List (Record Instr) :=
  names.map fun (code, name) => .byte code (.plain name code 8)

/-- Instructions of two bytes without operands, within the group of their first byte. -/
def twoBytes (first : Int) (names : List (Int × String)) : List (Record Instr) :=
  names.map fun (code, name) => .byte code (.plain name (first * 256 + code) 16)

/-- Instructions of two bytes and a length from 1 to 256 in a third, within the group of their first byte. -/
def withLength (first : Int) (names : List (Int × String)) : List (Record Instr) :=
  names.map fun (code, name) => .byte code (.line [name ++ " ", ""] (first * 256 + code) 16 [biased 8 1])

/-- Instructions with an operand in the last four of their sixteen bits, within the group of their first byte. The
number beside the name is the upper half of the second byte. -/
def withNibble (first : Int) (lead : String) (names : List (Int × String)) : List (Record Instr) :=
  names.map fun (high, name) =>
    .span (high * 16) (high * 16 + 16) (.line [name ++ " " ++ lead, ""] (first * 16 + high) 12 [uint 4])

end CodePage

end TvmCode
