import TvmCode.Config
import TvmCode.Dispatch
import TvmCode.Instruction.Decode
import TvmCode.Text.Lines

/-!
# Listings

A code region is a slice of instructions. `step` decodes the first of them, and `straight` lists all, one to a line,
up to the end of the bits, a fault, or bits that are no instruction, which a last line shows behind a marker. `chain`
goes on in the single reference that is left at the end of the bits, and in the one left there, and so on. `listing`
ties the knot: a continuation within an instruction is a region of its own, one level deeper and indented.
-/

namespace TvmCode

/-- How a region ends. -/
inductive Ending where
  /-- All bits were listed. -/
  | complete
  /-- The last line shows bits that are no instruction. -/
  | marked
  /-- Listing stopped before its end. -/
  | failed (f : Fault)

/-- The listing of a region: its text as far as it goes, where its slice was left, what was reported, and how it ends.
-/
structure Region where
  text : String
  rest : Slice
  notes : List Note
  ending : Ending

namespace Region

/-- The fault that stopped a listing. -/
def failure? (r : Region) : Option Fault :=
  match r.ending with
  | .failed f => some f
  | _ => none

/-- A listing after a first line. -/
def afterLine (line : String) (notes : List Note) (r : Region) : Region :=
  { r with text := line ++ "\n" ++ r.text, notes := notes ++ r.notes }

/-- A listing that goes on in another slice; the first slice stays where it was left. -/
def continueWith (r later : Region) : Region :=
  { r with text := r.text ++ later.text, notes := r.notes ++ later.notes, ending := later.ending }

end Region

/-- What stands in front of bits that are no instruction. -/
def marker : String := "> "

/-- The end of a region at bits that are no instruction; `rest` is how far they were read. -/
def markedRegion (note : Nat → String → Note) (start rest : Slice) (notes : List Note) : Region :=
  ⟨marker ++ start.toHex ++ "\n", rest, notes ++ [note start.bitPos start.toHex], .marked⟩

/-- The bits and references left. -/
def Slice.size (s : Slice) : Nat := s.remainingBits + s.remainingRefs

/-- What says which instruction stands at the front of a slice. -/
abbrev Dispatcher := Slice → Option Instr

/-- What stands at the front of a slice, and how far it was read. -/
inductive Step where
  /-- An instruction and its text. -/
  | line (text : String) (c : Cursor)
  /-- No instruction is filed under the bits. -/
  | unknown
  /-- The bits start like an instruction and are none. -/
  | undecodable (c : Cursor)
  /-- The instruction cannot be listed. -/
  | failed (f : Fault) (c : Cursor)

/-- Decodes the instruction at the front of a slice. One that takes nothing would be met again for ever and counts as
none. -/
def step (find? : Dispatcher) (nested : Nested) (s : Slice) : Step :=
  match find? s with
  | none => .unknown
  | some instr =>
    match instr.decode nested ⟨s, []⟩ with
    | .ok (some text) c => if c.slice.size < s.size then .line text c else .undecodable c
    | .ok none c => .undecodable c
    | .error f c => .failed f c

/-- An instruction takes bits or references. -/
theorem size_lt_of_step {find? : Dispatcher} {nested : Nested} {s : Slice} {text : String} {c : Cursor}
    (h : step find? nested s = .line text c) : c.slice.size < s.size := by
  unfold step at h
  split at h
  · cases h
  · split at h
    · split at h
      · cases h; assumption
      · cases h
    · cases h
    · cases h

/-- The listing of the instructions of one slice. -/
def straight (find? : Dispatcher) (nested : Nested) (s : Slice) : Region :=
  if s.remainingBits = 0 then ⟨"", s, [], .complete⟩
  else match _h : step find? nested s with
    | .line text c => (straight find? nested c.slice).afterLine text c.notes
    | .unknown => markedRegion .unknownOpcode s s []
    | .undecodable c => markedRegion .undecodable s c.slice c.notes
    | .failed f c => ⟨"", c.slice, c.notes, .failed f⟩
termination_by s.size
decreasing_by exact size_lt_of_step ‹_›

/-- The listing of a slice and of the chain of references in which its code goes on. -/
def chain (find? : Dispatcher) (nested : Nested) (s : Slice) : Region :=
  let r := straight find? nested s
  match r.ending with
  | .complete =>
    if r.rest.remainingRefs = 0 then r
    else if r.rest.remainingRefs = 1 then
      match _h : s.cell.refs[r.rest.refPos]? with
      | some next => { r with rest := r.rest.dropRefs 1 }.continueWith (chain find? nested (Slice.ofCell next))
      | none => r
    else { r with ending := .failed (.forkedTail r.rest.remainingRefs r.rest.bitPos) }
  | _ => r
termination_by sizeOf s.cell
decreasing_by exact Cell.sizeOf_lt_of_mem_refs (List.mem_of_getElem? ‹_›)

/-- The listing of a region, with or without the chain of references in which it goes on. -/
def region (find? : Dispatcher) (nested : Nested) (s : Slice) (continuing : Bool) : Region :=
  if continuing then chain find? nested s else straight find? nested s

/-- A region as the indented body of a continuation; a fault within it leaves nothing of its text. -/
def Region.rendered (indent : Nat) (r : Region) : Rendered :=
  match r.ending with
  | .failed f => ⟨.error f, r.notes⟩
  | _ => ⟨.ok (Text.indent indent r.text), r.notes⟩

/-- The listing of a region in which `levels` more levels of continuations are allowed, `limit` being what is said
when there are more. -/
def listing (find? : Dispatcher) (limit indent : Nat) : (levels : Nat) → Slice → Bool → Region
  | 0 => region find? fun _ _ => ⟨.error (.tooDeep limit), []⟩
  | levels + 1 => region find? fun s continuing => (listing find? limit indent levels s continuing).rendered indent

/-- The listing of a code region. -/
def disassemble (table : Table Instr) (config : Config) (s : Slice) (continuing : Bool) : Region :=
  listing table.find? config.maxDepth config.indent config.maxDepth s continuing

end TvmCode
