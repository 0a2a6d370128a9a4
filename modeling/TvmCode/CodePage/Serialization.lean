import TvmCode.Instruction.Basic

/-!
# Serialization

The bytes `C8` to `D7`: storing values in builders and loading them from slices.
-/

namespace TvmCode.CodePage

open Operand

/-- Further builder primitives, after the byte `CF`. -/
def storing : List (Record Instr) :=
  twoBytes 0xcf [
    (0x00, "STIX"), (0x01, "STUX"), (0x02, "STIXR"), (0x03, "STUXR"), (0x04, "STIXQ"), (0x05, "STUXQ"),
    (0x06, "STIXRQ"), (0x07, "STUXRQ"), (0x10, "STREF"), (0x11, "STBREF"), (0x12, "STSLICE"), (0x13, "STB"),
    (0x14, "STREFR"), (0x15, "STBREFR"), (0x16, "STSLICER"), (0x17, "STBR"), (0x18, "STREFQ"), (0x19, "STBREFQ"),
    (0x1a, "STSLICEQ"), (0x1b, "STBQ"), (0x1c, "STREFRQ"), (0x1d, "STBREFRQ"), (0x1e, "STSLICERQ"), (0x1f, "STBRQ"),
    (0x23, "ENDXC"), (0x28, "STILE4"), (0x29, "STULE4"), (0x2a, "STILE8"), (0x2b, "STULE8"), (0x30, "BDEPTH"),
    (0x31, "BBITS"), (0x32, "BREFS"), (0x33, "BBITREFS"), (0x35, "BREMBITS"), (0x36, "BREMREFS"),
    (0x37, "BREMBITREFS"), (0x39, "BCHKBITS"), (0x3a, "BCHKREFS"), (0x3b, "BCHKBITREFS"), (0x3d, "BCHKBITSQ"),
    (0x3e, "BCHKREFSQ"), (0x3f, "BCHKBITREFSQ"), (0x40, "STZEROES"), (0x41, "STONES"), (0x42, "STSAME")] ++
  withLength 0xcf [
    (0x08, "STI"), (0x09, "STU"), (0x0a, "STIR"), (0x0b, "STUR"), (0x0c, "STIQ"), (0x0d, "STUQ"), (0x0e, "STIRQ"),
    (0x0f, "STURQ"), (0x38, "BCHKBITS"), (0x3c, "BCHKBITSQ")] ++ [
  .byte 0x20 (.refData "STREFCONST" 0xcf20 16 1),
  .byte 0x21 (.refData "STREF2CONST" 0xcf21 16 2),
  .span 0x80 0x100 ⟨[⟨0x19f, 9⟩], .literal "STSLICECONST x" 2 3 2⟩]

/-- Further slice primitives, after the byte `D7`. -/
def loading : List (Record Instr) :=
  twoBytes 0xd7 [
    (0x00, "LDIX"), (0x01, "LDUX"), (0x02, "PLDIX"), (0x03, "PLDUX"), (0x04, "LDIXQ"), (0x05, "LDUXQ"),
    (0x06, "PLDIXQ"), (0x07, "PLDUXQ"), (0x18, "LDSLICEX"), (0x19, "PLDSLICEX"), (0x1a, "LDSLICEXQ"),
    (0x1b, "PLDSLICEXQ"), (0x20, "PLDSLICEX"), (0x21, "SDSKIPFIRST"), (0x22, "SDCUTLAST"), (0x23, "SDSKIPLAST"),
    (0x24, "SDSUBSTR"), (0x26, "SDBEGINSX"), (0x27, "SDBEGINSXQ"), (0x30, "SCUTFIRST"), (0x31, "SSKIPFIRST"),
    (0x32, "SCUTLAST"), (0x33, "SSKIPLAST"), (0x34, "SUBSLICE"), (0x36, "SPLIT"), (0x37, "SPLITQ"), (0x39, "XCTOS"),
    (0x3a, "XLOAD"), (0x3b, "XLOADQ"), (0x41, "SCHKBITS"), (0x42, "SCHKREFS"), (0x43, "SCHKBITREFS"),
    (0x45, "SCHKBITSQ"), (0x46, "SCHKREFSQ"), (0x47, "SCHKBITREFSQ"), (0x48, "PLDREFVAR"), (0x49, "SBITS"),
    (0x4a, "SREFS"), (0x4b, "SBITREFS"), (0x4c, "PLDREF"), (0x50, "LDILE4"), (0x51, "LDULE4"), (0x52, "LDILE8"),
    (0x53, "LDULE8"), (0x54, "PLDILE4"), (0x55, "PLDULE4"), (0x56, "PLDILE8"), (0x57, "PLDULE8"), (0x58, "LDILE4Q"),
    (0x59, "LDULE4Q"), (0x5a, "LDILE8Q"), (0x5b, "LDULE8Q"), (0x5c, "PLDILE4Q"), (0x5d, "PLDULE4Q"),
    (0x5e, "PLDILE8Q"), (0x5f, "PLDULE8Q"), (0x60, "LDZEROES"), (0x61, "LDONES"), (0x62, "LDSAME"), (0x64, "SDEPTH"),
    (0x65, "CDEPTH")] ++
  withLength 0xd7 [
    (0x08, "LDI"), (0x09, "LDU"), (0x0a, "PLDI"), (0x0b, "PLDU"), (0x0c, "LDIQ"), (0x0d, "LDUQ"), (0x0e, "PLDIQ"),
    (0x0f, "PLDUQ"), (0x1c, "LDSLICE"), (0x1d, "PLDSLICE"), (0x1e, "LDSLICEQ"), (0x1f, "PLDSLICEQ")] ++ [
  .span 0x10 0x18 (.line ["PLDUZ ", ""] 0x1ae2 13 [⟨3, 32, false, 32⟩]),
  .span 0x28 0x2c ⟨[⟨0x35ca, 14⟩], .literal "SDBEGINS " 0 7 3⟩,
  .span 0x2c 0x30 ⟨[⟨0x35cb, 14⟩], .literal "SDBEGINSQ " 0 7 3⟩,
  .span 0x4d 0x50 (.line ["PLDREFIDX ", ""] 0x35d3 14 [uint 2])]

/-- Builder and slice primitives. -/
def serialization : List (Record Instr) :=
  oneByte [
    (0xc8, "NEWC"), (0xc9, "ENDC"), (0xcc, "STREF"), (0xcd, "STBREFR"), (0xce, "STSLICE"), (0xd0, "CTOS"),
    (0xd1, "ENDS"), (0xd4, "LDREF"), (0xd5, "LDREFRTOS")] ++ [
  .byte 0xca (.line ["STI ", ""] 0xca 8 [biased 8 1]),
  .byte 0xcb (.line ["STU ", ""] 0xcb 8 [biased 8 1]),
  .group 0xcf storing,
  .byte 0xd2 (.line ["LDI ", ""] 0xd2 8 [biased 8 1]),
  .byte 0xd3 (.line ["LDU ", ""] 0xd3 8 [biased 8 1]),
  .byte 0xd6 (.line ["LDSLICE ", ""] 0xd6 8 [biased 8 1]),
  .group 0xd7 loading]

end TvmCode.CodePage
