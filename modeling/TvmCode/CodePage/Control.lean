import TvmCode.Instruction.Basic

/-!
# Control flow

The bytes `D8` to `F3`: calls, jumps, conditions and loops, continuations and their registers, and exceptions.
-/

namespace TvmCode.CodePage

open Operand

/-- Calls, jumps and returns, after the byte `DB`. -/
def calls : List (Record Instr) :=
  twoBytes 0xdb [
    (0x30, "RET"), (0x31, "RETALT"), (0x32, "RETBOOL"), (0x34, "CALLCC"), (0x35, "JMPXDATA"), (0x38, "CALLXVARARGS"),
    (0x39, "RETVARARGS"), (0x3a, "JMPXVARARGS"), (0x3b, "CALLCCVARARGS"), (0x3f, "RETDATA")] ++ [
  .span 0x00 0x10 (.line ["CALLXARGS ", ", -1"] 0xdb0 12 [uint 4]),
  .span 0x10 0x20 (.line ["JMPXARGS ", ""] 0xdb1 12 [uint 4]),
  .span 0x20 0x30 (.line ["RETARGS ", ""] 0xdb2 12 [uint 4]),
  .byte 0x36 (.line ["CALLCCARGS ", ", ", ""] 0xdb36 16 [uint 4, uint 4]),
  .byte 0x3c (.refBlocks "CALLREF" 0xdb3c 16 1),
  .byte 0x3d (.refBlocks "JMPREF" 0xdb3d 16 1),
  .byte 0x3e (.refBlocks "JMPREFDATA" 0xdb3e 16 1)]

/-- Conditions with continuations in references, jumps on one bit and loops with breaks, after the byte `E3`. -/
def conditions : List (Record Instr) :=
  twoBytes 0xe3 [
    (0x04, "CONDSEL"), (0x05, "CONDSELCHK"), (0x08, "IFRETALT"), (0x09, "IFNOTRETALT"), (0x14, "REPEATBRK"),
    (0x15, "REPEATENDBRK"), (0x16, "UNTILBRK"), (0x17, "UNTILENDBRK"), (0x18, "WHILEBRK"), (0x19, "WHILEENDBRK"),
    (0x1a, "AGAINBRK"), (0x1b, "AGAINENDBRK")] ++ [
  .byte 0x00 (.refBlocks "IFREF" 0xe300 16 1),
  .byte 0x01 (.refBlocks "IFNOTREF" 0xe301 16 1),
  .byte 0x02 (.refBlocks "IFJMPREF" 0xe302 16 1),
  .byte 0x03 (.refBlocks "IFNOTJMPREF" 0xe303 16 1),
  .byte 0x0d (.refBlocks "IFREFELSE" 0xe30d 16 1),
  .byte 0x0e (.refBlocks "IFELSEREF" 0xe30e 16 1),
  .byte 0x0f (.refBlocks "IFREFELSEREF" 0xe30f 16 2),
  .span 0x80 0xa0 (.line ["IFBITJMP ", ""] 0x71c 11 [uint 5]),
  .span 0xa0 0xc0 (.line ["IFNBITJMP ", ""] 0x71d 11 [uint 5]),
  .span 0xc0 0xe0 ⟨[⟨0x71e, 11⟩], .blocks ["IFBITJMPREF ", ""] [uint 5] 1⟩,
  .span 0xe0 0x100 ⟨[⟨0x71f, 11⟩], .blocks ["IFNBITJMPREF ", ""] [uint 5] 1⟩]

/-- Continuations and control registers, after the byte `ED`. -/
def continuations : List (Record Instr) :=
  twoBytes 0xed [
    (0x10, "RETURNVARARGS"), (0x11, "SETCONTVARARGS"), (0x12, "SETNUMVARARGS"), (0x1e, "BLESS"), (0x1f, "BLESSVARARGS"),
    (0xe0, "PUSHCTRX"), (0xe1, "POPCTRX"), (0xe2, "SETCONTCTRX"), (0xf0, "COMPOS"), (0xf1, "COMPOSALT"),
    (0xf2, "COMPOSBOTH"), (0xf3, "ATEXIT"), (0xf4, "ATEXITALT"), (0xf5, "SETEXITALT"), (0xf6, "THENRET"),
    (0xf7, "THENRETALT"), (0xf8, "INVERT"), (0xf9, "BOOLEVAL"), (0xfa, "SAMEALT"), (0xfb, "SAMEALTSAVE")] ++
  withNibble 0xed "" [(0x0, "RETURNARGS")] ++
  withNibble 0xed "c" [
    (0x4, "PUSHCTR"), (0x5, "POPCTR"), (0x6, "SETCONTCTR"), (0x7, "SETRETCTR"), (0x8, "SETALTCTR"), (0x9, "POPSAVE"),
    (0xa, "SAVE"), (0xb, "SAVEALT"), (0xc, "SAVEBOTH")]

/-- Exceptions, after the byte `F2`: a code of six bits, a code of eleven bits, or a code on the stack. -/
def exceptions : List (Record Instr) := [
  .span 0x00 0x40 (.line ["THROW ", ""] 0x3c8 10 [uint 6]),
  .span 0x40 0x80 (.line ["THROWIF ", ""] 0x3c9 10 [uint 6]),
  .span 0x80 0xc0 (.line ["THROWIFNOT ", ""] 0x3ca 10 [uint 6]),
  .span 0xc0 0xc8 (.line ["THROW ", ""] 0x1e58 13 [uint 11]),
  .span 0xc8 0xd0 (.line ["THROWARG ", ""] 0x1e59 13 [uint 11]),
  .span 0xd0 0xd8 (.line ["THROWIF ", ""] 0x1e5a 13 [uint 11]),
  .span 0xd8 0xe0 (.line ["THROWARGIF ", ""] 0x1e5b 13 [uint 11]),
  .span 0xe0 0xe8 (.line ["THROWIFNOT ", ""] 0x1e5c 13 [uint 11]),
  .span 0xe8 0xf0 (.line ["THROWARGIFNOT ", ""] 0x1e5d 13 [uint 11])] ++
  twoBytes 0xf2 [
    (0xf0, "THROWANY"), (0xf1, "THROWARGANY"), (0xf2, "THROWANYIF"), (0xf3, "THROWARGANYIF"), (0xf4, "THROWANYIFNOT"),
    (0xf5, "THROWARGANYIFNOT"), (0xff, "TRY")]

/-- Control flow. -/
def control : List (Record Instr) :=
  oneByte [
    (0xd8, "CALLX"), (0xd9, "JMPX"), (0xdc, "IFRET"), (0xdd, "IFNOTRET"), (0xde, "IF"), (0xdf, "IFNOT"),
    (0xe0, "IFJMP"), (0xe1, "IFNOTJMP"), (0xe2, "IFELSE"), (0xe4, "REPEAT"), (0xe5, "REPEATEND"), (0xe6, "UNTIL"),
    (0xe7, "UNTILEND"), (0xe8, "WHILE"), (0xe9, "WHILEEND"), (0xea, "AGAIN"), (0xeb, "AGAINEND")] ++ [
  .byte 0xda (.line ["CALLXARGS ", ", ", ""] 0xda 8 [uint 4, uint 4]),
  .group 0xdb calls,
  .group 0xe3 conditions,
  .byte 0xec (.line ["SETCONTARGS ", ", ", ""] 0xec 8 [uint 4, uint 4]),
  .group 0xed continuations,
  .byte 0xee (.line ["BLESSARGS ", ", ", ""] 0xee 8 [uint 4, uint 4]),
  .byte 0xf0 (.line ["CALL ", ""] 0xf0 8 [uint 8]),
  .group 0xf1 [
    .span 0x00 0x40 (.line ["CALL ", ""] 0x3c4 10 [uint 14]),
    .span 0x40 0x80 (.line ["JMPDICT ", ""] 0x3c5 10 [uint 14]),
    .span 0x80 0xc0 (.line ["PREPARE ", ""] 0x3c6 10 [uint 14])],
  .group 0xf2 exceptions,
  .byte 0xf3 (.line ["TRYARGS ", ", ", ""] 0xf3 8 [uint 4, uint 4])]

end TvmCode.CodePage
