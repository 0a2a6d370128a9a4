import TvmCode.Instruction.Basic

/-!
# Dictionary primitives

The instructions after the byte `F4`. Most operations exist for keys that are slices, signed or unsigned integers, and
many of them again for values that are references; the opcodes of such a family follow each other.
-/

namespace TvmCode.CodePage

/-- The kinds of keys, as they stand in names: slices, signed and unsigned integers. -/
def keyKinds : List String := ["", "I", "U"]

/-- Consecutive codes from `base` on for the given names. -/
def numbered (base : Int) (names : List String) : List (Int × String) :=
  names.zipIdx.map fun (name, i) => (base + i, name)

/-- An operation for each kind of key. -/
def perKey (lead : String) (base : Int) (op : String) : List (Int × String) :=
  numbered base (keyKinds.map fun kind => lead ++ kind ++ op)

/-- An operation for each kind of key, each followed by its variant for references. -/
def perKeyAndRef (base : Int) (op : String) : List (Int × String) :=
  numbered base (keyKinds.flatMap fun kind => ["DICT" ++ kind ++ op, "DICT" ++ kind ++ op ++ "REF"])

/-- The four searches for a neighbour of a key, for each kind of key. -/
def neighbours (base : Int) : List (Int × String) :=
  numbered base (keyKinds.flatMap fun kind =>
    ["GETNEXT", "GETNEXTEQ", "GETPREV", "GETPREVEQ"].map fun op => "DICT" ++ kind ++ op)

/-- An instruction with a key length of ten bits and a dictionary in the next reference. -/
def constantDictionary (name : String) (code : Int) : Instr :=
  ⟨[⟨code, 14⟩], .line [name ++ " ", ""] [.uint 10] 1⟩

/-- Dictionary primitives. -/
def dictionaries : List (Record Instr) :=
  twoBytes 0xf4 (
    [(0x00, "STDICT"), (0x01, "SKIPDICT"), (0x02, "LDDICTS"), (0x03, "PLDDICTS"), (0x04, "LDDICT"), (0x05, "PLDDICT"),
      (0x06, "LDDICTQ"), (0x07, "PLDDICTQ")] ++
    perKeyAndRef 0x0a "GET" ++ perKeyAndRef 0x12 "SET" ++ perKeyAndRef 0x1a "SETGET" ++
    perKeyAndRef 0x22 "REPLACE" ++ perKeyAndRef 0x2a "REPLACEGET" ++ perKeyAndRef 0x32 "ADD" ++
    perKeyAndRef 0x3a "ADDGET" ++
    perKey "DICT" 0x41 "SETB" ++ perKey "DICT" 0x45 "SETGETB" ++ perKey "DICT" 0x49 "REPLACEB" ++
    perKey "DICT" 0x4d "REPLACEGETB" ++ perKey "DICT" 0x51 "ADDB" ++ perKey "DICT" 0x55 "ADDGETB" ++
    perKey "DICT" 0x59 "DEL" ++ perKeyAndRef 0x62 "DELGET" ++ perKey "DICT" 0x69 "GETOPTREF" ++
    perKey "DICT" 0x6d "SETGETOPTREF" ++
    [(0x70, "PFXDICTSET"), (0x71, "PFXDICTREPLACE"), (0x72, "PFXDICTADD"), (0x73, "PFXDICTDEL")] ++
    neighbours 0x74 ++
    perKeyAndRef 0x82 "MIN" ++ perKeyAndRef 0x8a "MAX" ++ perKeyAndRef 0x92 "REMMIN" ++ perKeyAndRef 0x9a "REMMAX" ++
    [(0xa0, "DICTIGETJMP"), (0xa1, "DICTUGETJMP"), (0xa2, "DICTIGETEXEC"), (0xa3, "DICTUGETEXEC"),
      (0xa8, "PFXDICTGETQ"), (0xa9, "PFXDICTGET"), (0xaa, "PFXDICTGETJMP"), (0xab, "PFXDICTGETEXEC")] ++
    perKey "SUBDICT" 0xb1 "GET" ++ perKey "SUBDICT" 0xb5 "RPGET" ++
    [(0xbc, "DICTIGETJMPZ"), (0xbd, "DICTUGETJMPZ"), (0xbe, "DICTIGETEXECZ"), (0xbf, "DICTUGETEXECZ")]) ++ [
  .span 0xa4 0xa8 (constantDictionary "DICTPUSHCONST" 0x3d29),
  .span 0xac 0xb0 (constantDictionary "PFXDICTSWITCH" 0x3d2b)]

end TvmCode.CodePage
