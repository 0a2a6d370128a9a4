import TvmCode.Cell.Basic

/-!
# Reading serialized bytes

A reader takes bytes from the front of its input and knows how many it has taken. `BagError` lists what can be wrong
with a serialized bag of cells; running out of bytes is the one reason that can arise anywhere.
-/

namespace TvmCode

/-- Why bytes are no bag of cells. -/
inductive BagError where
  | truncated (count : Nat) (what : String) (offset available : Nat)
  | reservedFlags (flags : Nat)
  | unknownMagic (magic : Nat)
  | refSize (size : Nat)
  | offsetSize (size : Nat)
  | rootCount (roots cells : Nat)
  | absentCount (count : Nat)
  | severalRoots
  | rootIndex (index : Nat)
  | missingTag
  | absentCell (index : Nat)
  | refCount (index count : Nat)
  | bitCount (index count : Nat)
  | backwardRef (index target : Nat)
  | sizeMismatch (stated parsed : Nat)
  | refIndex (target : Nat)

/-- The wording of a refusal. -/
def BagError.message : BagError → String
  | .truncated count what offset available =>
    s!"truncated bag of cells: need {count} bytes for {what} at offset {offset}, have {available}"
  | .reservedFlags flags => "reserved BOC flags set: " ++ Text.hexNumeral "0x" 4 flags
  | .unknownMagic magic => "unknown BOC magic " ++ Text.hexNumeral "0x" 10 magic
  | .refSize size => s!"invalid cell reference size {size}"
  | .offsetSize size => s!"invalid offset size {size}"
  | .rootCount roots cells => s!"invalid root count {roots} for {cells} cells"
  | .absentCount count => s!"invalid absent count {count}"
  | .severalRoots => "indexed BOC layout supports a single root"
  | .rootIndex index => s!"root index {index} out of range"
  | .missingTag => "cell data is missing its completion tag"
  | .absentCell index => s!"cell {index}: absent cells are not supported"
  | .refCount index count => s!"cell {index}: {count} references"
  | .bitCount index count => s!"cell {index}: {count} data bits"
  | .backwardRef index target => s!"cell {index}: reference {target} does not point forward"
  | .sizeMismatch stated parsed => s!"cell data size mismatch: header says {stated}, parsed {parsed}"
  | .refIndex target => s!"reference {target} out of range"

namespace BagOfCells

/-- The bytes not yet taken, and how many were taken before them. -/
structure Input where
  pos : Nat
  rest : List UInt8

/-- A reader of serialized data. -/
abbrev Reader := StateT Input (Except BagError)

namespace Reader

/-- Takes `count` bytes that are needed for `what`. -/
def take (count : Nat) (what : String) : Reader (List UInt8) := fun i =>
  let bytes := i.rest.take count
  if bytes.length < count then .error (.truncated count what i.pos i.rest.length)
  else .ok (bytes, ⟨i.pos + count, i.rest.drop count⟩)

/-- Takes a number of `width` bytes, highest byte first. -/
def number (width : Nat) (what : String) : Reader Nat := do
  return natOfBytes (← take width what)

/-- Takes bytes whose contents do not matter. -/
def skip (count : Nat) (what : String) : Reader Unit := do
  let _ ← take count what

/-- Takes bytes whose contents do not matter, if they are there. -/
def skipIf (p : Prop) [Decidable p] (count : Nat) (what : String) : Reader Unit :=
  if p then skip count what else pure ()

/-- How many bytes were taken. -/
def position : Reader Nat := fun i => .ok (i.pos, i)

/-- Refuses when a condition holds. -/
def refuseIf (p : Prop) [Decidable p] (e : BagError) : Reader Unit :=
  if p then throw e else pure ()

/-- Refuses the first number for which a condition holds. -/
def refuseAny (ns : List Nat) (p : Nat → Bool) (e : Nat → BagError) : Reader Unit :=
  match ns.find? p with
  | some n => throw (e n)
  | none => pure ()

/-- The values that a reader gives at the places `start`, `start + 1`, … in turn. -/
def forEach {α : Type} (read : Nat → Reader α) : (start count : Nat) → Reader (List α)
  | _, 0 => return []
  | start, count + 1 => do
    let a ← read start
    let as ← forEach read (start + 1) count
    return a :: as

end Reader

end BagOfCells

end TvmCode
