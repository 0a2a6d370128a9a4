import TvmCode.CodePage.Arithmetic
import TvmCode.CodePage.Control
import TvmCode.CodePage.Dictionaries
import TvmCode.CodePage.Serialization
import TvmCode.CodePage.Stack
import TvmCode.Note

/-!
# Code page zero

The instruction set of the machine: the declarations of all primitives, and the table built from them. Those declared
here are the application primitives, after the bytes `F8` to `FF`: gas, randomness, configuration and global variables,
hashes and signatures, addresses and amounts, messages, debugging, and the choice of a code page.
-/

namespace TvmCode.CodePage

/-! ## Application primitives -/

open Operand

/-- Gas, randomness, configuration and global variables, after the byte `F8`. -/
def environment : List (Record Instr) :=
  twoBytes 0xf8 [
    (0x00, "ACCEPT"), (0x01, "SETGASLIMIT"), (0x02, "BUYGAS"), (0x04, "GRAMTOGAS"), (0x05, "GASTOGRAM"),
    (0x0f, "COMMIT"), (0x10, "RANDU256"), (0x11, "RAND"), (0x14, "SETRAND"), (0x15, "ADDRAND"), (0x23, "NOW"),
    (0x24, "BLOCKLT"), (0x25, "LTIME"), (0x26, "RANDSEED"), (0x27, "BALANCE"), (0x28, "MYADDR"), (0x29, "CONFIGROOT"),
    (0x30, "CONFIGDICT"), (0x32, "CONFIGPARAM"), (0x33, "CONFIGOPTPARAM"), (0x40, "GETGLOBVAR"),
    (0x60, "SETGLOBVAR")] ++ [
  .span 0x20 0x23 (.line ["GETPARAM ", ""] 0xf82 12 [uint 4]),
  .span 0x41 0x60 (.line ["GETGLOB ", ""] 0x7c2 11 [uint 5]),
  .span 0x61 0x80 (.line ["SETGLOB ", ""] 0x7c3 11 [uint 5])]

/-- Hashes, signatures and sizes, after the byte `F9`. -/
def cryptography : List (Record Instr) :=
  twoBytes 0xf9 [
    (0x00, "HASHCU"), (0x01, "HASHSU"), (0x02, "SHA256U"), (0x10, "CHKSIGNU"), (0x11, "CHKSIGNS"),
    (0x40, "CDATASIZEQ"), (0x41, "CDATASIZE"), (0x42, "SDATASIZEQ"), (0x43, "SDATASIZE")]

/-- Amounts and addresses, after the byte `FA`. -/
def currency : List (Record Instr) :=
  twoBytes 0xfa [
    (0x00, "LDGRAMS"), (0x01, "LDVARINT16"), (0x02, "STGRAMS"), (0x03, "STVARINT16"), (0x04, "LDVARUINT32"),
    (0x05, "LDVARINT32"), (0x06, "STVARUINT32"), (0x07, "STVARINT32"), (0x40, "LDMSGADDR"), (0x41, "LDMSGADDRQ"),
    (0x42, "PARSEMSGADDR"), (0x43, "PARSEMSGADDRQ"), (0x44, "REWRITESTDADDR"), (0x45, "REWRITESTDADDRQ"),
    (0x46, "REWRITEVARADDR"), (0x47, "REWRITEVARADDRQ")]

/-- Messages and changes of code, after the byte `FB`. -/
def messages : List (Record Instr) :=
  twoBytes 0xfb [
    (0x00, "SENDRAWMSG"), (0x02, "RAWRESERVE"), (0x03, "RAWRESERVEX"), (0x04, "SETCODE"), (0x06, "SETLIBCODE"),
    (0x07, "CHANGELIB")]

/-- Debugging, after the byte `FE`. -/
def debugging : List (Record Instr) :=
  twoBytes 0xfe [
    (0x00, "DUMPSTK"), (0x10, "HEXDUMP"), (0x11, "HEXPRINT"), (0x12, "BINDUMP"), (0x13, "BINPRINT"), (0x14, "STRDUMP"),
    (0x15, "STRPRINT"), (0x1e, "DEBUGOFF"), (0x1f, "DEBUGON")] ++ [
  .span 0x01 0x0f (.line ["DUMPSTKTOP ", ""] 0xfe0 12 [uint 4]),
  .span 0x20 0x2f (.line ["DUMP s", ""] 0xfe2 12 [uint 4]),
  .span 0x30 0x3f (.line ["PRINT s", ""] 0xfe3 12 [uint 4]),
  .span 0xf0 0x100 ⟨[⟨0xfef, 12⟩], .debugText⟩]

/-- The choice of a code page by its number, of which only page zero is known. -/
def setPage : Instr := ⟨[⟨0xff, 8⟩], .select [(0, ["SETCP0"], [])]⟩

/-- The choice of a code page, after the byte `FF`. -/
def pages : List (Record Instr) := [
  .span 0x00 0xf0 setPage,
  .byte 0xf0 (.plain "SETCPX" 0xfff0 16),
  .span 0xf1 0x100 setPage]

/-- Application primitives. -/
def application : List (Record Instr) := [
  .group 0xf8 environment,
  .group 0xf9 cryptography,
  .group 0xfa currency,
  .group 0xfb messages,
  .group 0xfe debugging,
  .group 0xff pages]

/-! ## All primitives -/

/-- The instructions of code page zero. -/
def zeroRecords : List (Record Instr) :=
  stack ++ constants ++ numbers ++ serialization ++ control ++ [.group 0xf4 dictionaries] ++ application

/-- The dispatch table of code page zero. -/
def zero : Table Instr := .ofRecords zeroRecords

/-- What is reported once the table is built. -/
def zeroNotes : List Note := [.pageReady 0 zero.count]

end TvmCode.CodePage
