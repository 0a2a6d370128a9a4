import TvmCode.Instruction.Basic
import TvmCode.Instruction.Decoder

/-!
# Decoding one instruction

`Instr.decode` checks the opcode of an instruction, reads what follows and shows it. The listing of a continuation is
left to a function `nested`, so that decoding one instruction does not itself recur. The result is `none` when the
operands have no meaning.
-/

namespace TvmCode

/-- The listing of a continuation, and what was reported while it was made. -/
structure Rendered where
  text : Except Fault String
  notes : List Note

/-- A lister of continuations, given the code and whether to go on in a trailing reference. -/
abbrev Nested := Slice → Bool → Rendered

namespace Opcode

/-- Takes the bits of an opcode, which have to be the right ones. -/
def check (op : Opcode) : Decoder Unit := do
  let actual ← Decoder.nat op.width
  if (actual : Int) = op.code then return else throw (.wrongOpcode op.code op.width actual)

end Opcode

namespace Operand

/-- The shown value of an operand. -/
def read (f : Operand) : Decoder Int := do
  let value ← if f.signed then Decoder.int f.bits else (fun n : Nat => (n : Int)) <$> Decoder.nat f.bits
  return f.scale * value + f.bias

end Operand

/-- The text of a template with operands in its places. An operand that cannot be written is a fault. -/
def Template.shown (text : Template) (values : List Int) : Decoder String :=
  match text.fill values with
  | some line => return line
  | none => throw .tooManyDigits

namespace Form

/-- A text and its blocks, each between braces that stand on the lines around it. -/
def withBlocks (head : String) (bodies : List String) : String :=
  head ++ " " ++ String.intercalate " " (bodies.map fun body => "\x7b\n" ++ body ++ "\x7d")

/-- The listing of a continuation within an instruction. -/
def body (nested : Nested) (code : Slice) (continuing : Bool) : Decoder String := do
  let r := nested code continuing
  Decoder.report r.notes
  match r.text with
  | .ok text => return text
  | .error f => throw f

/-- The listings of continuations held in the next references, where each is listed before the next is taken. -/
def refBodies (nested : Nested) : Nat → Decoder (List String)
  | 0 => return []
  | count + 1 => do
    let text ← body nested (Slice.ofCell (← Decoder.ref)) true
    let texts ← refBodies nested count
    return text :: texts

/-- The text of an instruction after its opcode. -/
def decode (nested : Nested) : Form → Decoder (Option String)
  | .line text operands refs => do
    let values ← Decoder.each Operand.read operands
    let _ ← Decoder.refs refs
    return some (← text.shown values)
  | .blocks text operands refs => do
    let head ← text.shown (← Decoder.each Operand.read operands)
    let cells ← Decoder.refs refs
    let bodies ← Decoder.each (fun c => body nested (Slice.ofCell c) true) cells
    return some (withBlocks head bodies)
  | .register zero other => do
    let i ← Decoder.nat 4
    return some (if i = 0 then zero else other ++ toString i)
  | .smallInt name => do
    let x ← Decoder.nat 4
    return some (name ++ toString (if x ≤ 10 then (x : Int) else x - 16))
  | .bigInt name => do
    return some (name ++ toString (← Decoder.bigInt))
  | .literal lead reserved size extra => do
    let r ← Decoder.nat reserved
    let n ← Decoder.nat size
    if r = 0 then
      let payload ← Decoder.bits (8 * n + extra : Nat)
      return some (lead ++ payload.trimMarker.toHex)
    else return none
  | .inlineBody name refBits sizeBits => do
    let r ← Decoder.nat refBits
    let n ← Decoder.nat sizeBits
    let parts ← refBodies nested r
    let last ← body nested (← Decoder.bits (8 * n : Nat)) false
    return some (withBlocks name [String.join parts ++ last])
  | .select choices => do
    let key ← Decoder.nat 8
    match choices.lookup key with
    | some (text, operands) => return some (← Template.shown text (← Decoder.each Operand.read operands))
    | none => return none
  | .debugText => do
    let n ← Decoder.nat 4
    let mode ← Decoder.nat 8
    match n, mode with
    | 0, 0 => return some "LOGFLUSH"
    | 0, _ => return none
    | _, 0 => return some ("LOGSTR " ++ (← Decoder.bits (8 * n : Nat)).toHex)
    | _, 1 => return some ("PRINTSTR " ++ (← Decoder.bits (8 * n : Nat)).toHex)
    | _, _ => return none

end Form

/-- The text of an instruction at the front of a slice. -/
def Instr.decode (nested : Nested) (i : Instr) : Decoder (Option String) := do
  let _ ← Decoder.each Opcode.check i.opcodes
  i.form.decode nested

end TvmCode
