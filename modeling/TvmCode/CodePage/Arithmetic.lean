import TvmCode.Instruction.Basic

/-!
# Arithmetic and comparison

The bytes `A0` to `C7`. Arithmetic and integer comparison, up to `C3`, exist twice: as they are, and behind the byte
`B7` with a `Q` at the end of the name, where they yield a NaN and raise nothing. `arithmetic` declares both.
-/

namespace TvmCode.CodePage

open Operand

/-- The two ways in which arithmetic reacts to an impossible result. -/
inductive Mode where
  | signaling
  | quiet

namespace Mode

/-- What is appended to the name of an instruction. -/
def suffix : Mode → String
  | .signaling => ""
  | .quiet => "Q"

/-- What stands in front of the opcode of an instruction. -/
def opcodes : Mode → List Opcode
  | .signaling => []
  | .quiet => [⟨0xb7, 8⟩]

/-- An instruction without operands. -/
def plain (m : Mode) (name : String) (code width : Int) : Instr :=
  ⟨m.opcodes ++ [⟨code, width⟩], .line [name ++ m.suffix] [] 0⟩

/-- An instruction of one byte with one operand. -/
def immediate (m : Mode) (name : String) (code : Int) (x : Operand) : Instr :=
  ⟨m.opcodes ++ [⟨code, 8⟩], .line [name ++ m.suffix ++ " ", ""] [x] 0⟩

/-- A variant of division without operands, by its second byte. -/
def division (m : Mode) (code : Nat) (name : String) : Nat × Template × List Operand :=
  (code, [name ++ m.suffix], [])

/-- A variant of division with a shift in a third byte, by its second byte. -/
def shift (m : Mode) (code : Nat) (name : String) : Nat × Template × List Operand :=
  (code, [name ++ m.suffix ++ " ", ""], [biased 8 1])

/-- The variants of division, which the byte after `A9` selects. -/
def divisions (m : Mode) : List (Nat × Template × List Operand) := [
  m.division 0x04 "DIV", m.division 0x05 "DIVR", m.division 0x06 "DIVC", m.division 0x08 "MOD",
  m.division 0x0c "DIVMOD", m.division 0x0d "DIVMODR", m.division 0x0e "DIVMODC", m.division 0x24 "RSHIFT",
  m.shift 0x34 "RSHIFT", m.shift 0x38 "MODPOW2", m.division 0x84 "MULDIV", m.division 0x85 "MULDIVR",
  m.division 0x8c "MULDIVMOD", m.division 0xa4 "MULRSHIFT", m.division 0xa5 "MULRSHIFTR", m.shift 0xb4 "MULRSHIFT",
  m.shift 0xb5 "MULRSHIFTR", m.division 0xc4 "LSHIFTDIV", m.division 0xc5 "LSHIFTDIVR", m.shift 0xd4 "LSHIFTDIV",
  m.shift 0xd5 "LSHIFTDIVR"]

end Mode

/-- Arithmetic and integer comparison in one of the two ways. -/
def arithmetic (m : Mode) : List (Record Instr) :=
  ([(0xa0, "ADD"), (0xa1, "SUB"), (0xa2, "SUBR"), (0xa3, "NEGATE"), (0xa4, "INC"), (0xa5, "DEC"), (0xa8, "MUL"),
    (0xac, "LSHIFT"), (0xad, "RSHIFT"), (0xae, "POW2"), (0xb0, "AND"), (0xb1, "OR"), (0xb2, "XOR"), (0xb3, "NOT"),
    (0xb8, "SGN"), (0xb9, "LESS"), (0xba, "EQUAL"), (0xbb, "LEQ"), (0xbc, "GREATER"), (0xbd, "NEQ"), (0xbe, "GEQ"),
    (0xbf, "CMP")].map fun (code, name) => .byte code (m.plain name code 8)) ++
  ([(0xa6, "ADDCONST", sint 8), (0xa7, "MULCONST", sint 8), (0xaa, "LSHIFT", biased 8 1),
    (0xab, "RSHIFT", biased 8 1), (0xb4, "FITS", biased 8 1), (0xb5, "UFITS", biased 8 1), (0xc0, "EQINT", sint 8),
    (0xc1, "LESSINT", sint 8), (0xc2, "GTINT", sint 8),
    (0xc3, "NEQINT", sint 8)].map fun (code, name, x) => .byte code (m.immediate name code x)) ++ [
  .byte 0xa9 ⟨m.opcodes ++ [⟨0xa9, 8⟩], .select m.divisions⟩,
  .group 0xb6 ([(0x00, "FITSX"), (0x01, "UFITSX"), (0x02, "BITSIZE"), (0x03, "UBITSIZE"), (0x08, "MIN"), (0x09, "MAX"),
    (0x0a, "MINMAX"), (0x0b, "ABS")].map fun (code, name) => .byte code (m.plain name (0xb600 + code) 16))]

/-- Arithmetic in both ways, tests for NaN and comparison of slices. -/
def numbers : List (Record Instr) :=
  arithmetic .signaling ++ [
  .group 0xb7 (arithmetic .quiet),
  .byte 0xc4 (.plain "ISNAN" 0xc4 8),
  .byte 0xc5 (.plain "CHKNAN" 0xc5 8),
  .group 0xc7 (twoBytes 0xc7 [
    (0x00, "SEMPTY"), (0x01, "SDEMPTY"), (0x02, "SREMPTY"), (0x03, "SDFIRST"), (0x04, "SDLEXCMP"), (0x05, "SDEQ"),
    (0x08, "SDPFX"), (0x09, "SDPFXREV"), (0x0a, "SDPPFX"), (0x0b, "SDPPFXREV"), (0x0c, "SDSFX"), (0x0d, "SDSFXREV"),
    (0x0e, "SDPSFX"), (0x0f, "SDPSFXREV"), (0x10, "SDCNTLEAD0"), (0x11, "SDCNTLEAD1"), (0x12, "SDCNTTRAIL0"),
    (0x13, "SDCNTTRAIL1")])]

end TvmCode.CodePage
