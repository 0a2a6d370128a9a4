import TvmCode.Instruction.Basic

/-!
# Stack, tuple and constant primitives

The bytes `00` to `6F`: exchanging, copying and dropping stack registers, and tuples. The bytes `70` to `9F`: integers,
bit strings, references and continuations that are pushed on the stack.
-/

namespace TvmCode.CodePage

open Operand

/-- Exchanges and copies of three registers, after the byte `54`. -/
def threeRegisters : List (Record Instr) := [
  .span 0x00 0x10 (.line ["XCHG3 s", ", s", ", s", ""] 0x540 12 [uint 4, uint 4, uint 4]),
  .span 0x10 0x20 (.line ["XC2PU s", ", s", ", s", ""] 0x541 12 [uint 4, uint 4, uint 4]),
  .span 0x20 0x30 (.line ["XCPUXC s", ", s", ", s", ""] 0x542 12 [uint 4, uint 4, biased 4 (-1)]),
  .span 0x30 0x40 (.line ["XCPU2 s", ", s", ", s", ""] 0x543 12 [uint 4, uint 4, uint 4]),
  .span 0x40 0x50 (.line ["PUXC2 s", ", s", ", s", ""] 0x544 12 [uint 4, biased 4 (-1), biased 4 (-1)]),
  .span 0x50 0x60 (.line ["PUXCPU s", ", s", ", s", ""] 0x545 12 [uint 4, biased 4 (-1), biased 4 (-1)]),
  .span 0x60 0x70 (.line ["PU2XC s", ", s", ", s", ""] 0x546 12 [uint 4, biased 4 (-1), biased 4 (-2)]),
  .span 0x70 0x80 (.line ["PUSH3 s", ", s", ", s", ""] 0x547 12 [uint 4, uint 4, uint 4])]

/-- Tuple primitives, after the byte `6F`. -/
def tuples : List (Record Instr) :=
  withNibble 0x6f "" [
    (0, "TUPLE"), (1, "INDEX"), (2, "UNTUPLE"), (3, "UNPACKFIRST"), (4, "EXPLODE"), (5, "SETINDEX"), (6, "INDEXQ"),
    (7, "SETINDEXQ")] ++
  twoBytes 0x6f [
    (0x80, "TUPLEVAR"), (0x81, "INDEXVAR"), (0x82, "UNTUPLEVAR"), (0x83, "UNPACKFIRSTVAR"), (0x84, "EXPLODEVAR"),
    (0x85, "SETINDEXVAR"), (0x86, "INDEXVARQ"), (0x87, "SETINDEXVARQ"), (0x88, "TLEN"), (0x89, "QTLEN"),
    (0x8a, "ISTUPLE"), (0x8b, "LAST"), (0x8c, "TPUSH"), (0x8d, "TPOP"), (0xa0, "NULLSWAPIF"), (0xa1, "NULLSWAPIFNOT"),
    (0xa2, "NULLROTRIF"), (0xa3, "NULLROTRIFNOT"), (0xa4, "NULLSWAPIF2"), (0xa5, "NULLSWAPIFNOT2"),
    (0xa6, "NULLROTRIF2"), (0xa7, "NULLROTRIFNOT2")] ++ [
  .span 0xb0 0xc0 (.line ["INDEX2 ", ", ", ""] 0x6fb 12 [uint 2, uint 2]),
  .span 0xc0 0x100 (.line ["INDEX3 ", ", ", ", ", ""] 0x1bf 10 [uint 2, uint 2, uint 2])]

/-- Stack and tuple primitives. -/
def stack : List (Record Instr) := [
  .byte 0x00 (.plain "NOP" 0x00 8),
  .span 0x01 0x10 (.line ["XCHG s", ""] 0x0 4 [uint 4]),
  .byte 0x10 (.line ["XCHG s", ", s", ""] 0x10 8 [uint 4, uint 4]),
  .byte 0x11 (.line ["XCHG s0, s", ""] 0x11 8 [uint 8]),
  .span 0x12 0x20 (.line ["XCHG s1, s", ""] 0x1 4 [uint 4]),
  .span 0x20 0x30 ⟨[⟨0x2, 4⟩], .register "DUP" "PUSH s"⟩,
  .span 0x30 0x40 ⟨[⟨0x3, 4⟩], .register "DROP" "POP s"⟩,
  .span 0x40 0x50 (.line ["XCHG3 s", ", s", ", s", ""] 0x4 4 [uint 4, uint 4, uint 4]),
  .byte 0x50 (.line ["XCHG2 s", ", s", ""] 0x50 8 [uint 4, uint 4]),
  .byte 0x51 (.line ["XCPU s", ", s", ""] 0x51 8 [uint 4, uint 4]),
  .byte 0x52 (.line ["PUXC s", ", s", ""] 0x52 8 [uint 4, biased 4 (-1)]),
  .byte 0x53 (.line ["PUSH2 s", ", s", ""] 0x53 8 [uint 4, uint 4]),
  .group 0x54 threeRegisters,
  .byte 0x55 (.line ["BLKSWAP ", ", ", ""] 0x55 8 [biased 4 1, biased 4 1]),
  .byte 0x56 (.line ["PUSH s", ""] 0x56 8 [uint 8]),
  .byte 0x57 (.line ["POP s", ""] 0x57 8 [uint 8]),
  .byte 0x5e (.line ["REVERSE ", ", ", ""] 0x5e 8 [biased 4 2, uint 4]),
  .group 0x5f [
    .span 0x00 0x10 (.line ["BLKDROP ", ""] 0x5f0 12 [uint 4]),
    .span 0x10 0x100 (.line ["BLKPUSH ", ", ", ""] 0x5f 8 [uint 4, uint 4])],
  .group 0x6c [.span 0x10 0x100 (.line ["BLKDROP2 ", ", ", ""] 0x6c 8 [uint 4, uint 4])],
  .group 0x6f tuples] ++
  oneByte [
    (0x58, "ROT"), (0x59, "ROTREV"), (0x5a, "SWAP2"), (0x5b, "DROP2"), (0x5c, "DUP2"), (0x5d, "OVER2"),
    (0x60, "PICK"), (0x61, "ROLL"), (0x62, "ROLLREV"), (0x63, "BLKSWX"), (0x64, "REVX"), (0x65, "DROPX"),
    (0x66, "TUCK"), (0x67, "XCHGX"), (0x68, "DEPTH"), (0x69, "CHKDEPTH"), (0x6a, "ONLYTOPX"), (0x6b, "ONLYX"),
    (0x6d, "NULL"), (0x6e, "ISNULL")]

/-- Primitives that push a constant. -/
def constants : List (Record Instr) := [
  .span 0x70 0x80 ⟨[⟨0x7, 4⟩], .smallInt "PUSHINT "⟩,
  .byte 0x80 (.line ["PUSHINT ", ""] 0x80 8 [sint 8]),
  .byte 0x81 (.line ["PUSHINT ", ""] 0x81 8 [sint 16]),
  .byte 0x82 ⟨[⟨0x82, 8⟩], .bigInt "PUSHINT "⟩,
  .group 0x83 [
    .span 0x00 0xff (.line ["PUSHPOW2 ", ""] 0x83 8 [biased 8 1]),
    .byte 0xff (.plain "PUSHNAN" 0x83ff 16)],
  .byte 0x84 (.line ["PUSHPOW2DEC ", ""] 0x84 8 [biased 8 1]),
  .byte 0x85 (.line ["PUSHNEGPOW2 ", ""] 0x85 8 [biased 8 1]),
  .byte 0x88 (.refData "PUSHREF" 0x88 8 1),
  .byte 0x89 (.refData "PUSHREFSLICE" 0x89 8 1),
  .byte 0x8a (.refBlocks "PUSHREFCONT" 0x8a 8 1),
  .byte 0x8b ⟨[⟨0x8b, 8⟩], .literal "PUSHSLICE x" 0 4 4⟩,
  .byte 0x8c ⟨[⟨0x8c, 8⟩], .literal "PUSHSLICE x" 2 5 1⟩,
  .byte 0x8d ⟨[⟨0x8d, 8⟩], .literal "PUSHSLICE x" 3 7 6⟩,
  .span 0x8e 0x90 ⟨[⟨0x47, 7⟩], .inlineBody "PUSHCONT" 2 7⟩,
  .span 0x90 0xa0 ⟨[⟨0x9, 4⟩], .inlineBody "PUSHCONT" 0 4⟩]

end TvmCode.CodePage
