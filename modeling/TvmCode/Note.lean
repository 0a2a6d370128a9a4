import TvmCode.Text.Quoted

/-!
# Notes

What the library reports while it works, in the order in which it happens. A note is a value beside the result; the
command line decides which ones are shown. Each note has a level, a topic and a wording.
-/

namespace TvmCode

/-- How urgent a note is. -/
inductive Level where
  | debug
  | warning
  deriving DecidableEq

/-- The word for a level. -/
def Level.word : Level → String
  | .debug => "DEBUG"
  | .warning => "WARNING"

/-- Something worth reporting. -/
inductive Note where
  /-- Bytes follow a bag of cells. -/
  | trailingBytes (count : Nat)
  /-- A bag of cells was read. -/
  | bagRead (cells roots : Nat)
  /-- A dictionary was read. -/
  | dictionaryRead (keyBits : Int) (entries : Nat)
  /-- No instruction is filed under the bits shown. -/
  | unknownOpcode (offset : Nat) (hex : String)
  /-- The instruction at the bits shown has no meaning with its operands. -/
  | undecodable (offset : Nat) (hex : String)
  /-- A setting is no integer. -/
  | notInteger (name raw : String)
  /-- A setting is too small. -/
  | belowMinimum (name : String) (value : Int) (minimum : Nat)
  /-- A contract's selector leaves no reference for its methods. -/
  | noMethods
  /-- A contract's dictionary cannot be read. -/
  | dictionaryRefused (what reason : String)
  /-- The code of a dictionary entry cannot be listed to its end. -/
  | entryFailed (entry reason : String)
  /-- The dispatch table of a code page is ready. -/
  | pageReady (page handlers : Nat)
  /-- A listing was given up. -/
  | aborted

namespace Note

/-- The level of a note. -/
def level : Note → Level
  | .notInteger _ _ | .belowMinimum _ _ _ | .noMethods | .dictionaryRefused _ _ | .entryFailed _ _ => .warning
  | _ => .debug

/-- The part of the program a note comes from. -/
def topic : Note → String
  | .trailingBytes _ | .bagRead _ _ => "tvm_disasm.cells.boc"
  | .dictionaryRead _ _ => "tvm_disasm.cells.hashmap"
  | .unknownOpcode _ _ | .undecodable _ _ => "tvm_disasm.disasm"
  | .notInteger _ _ | .belowMinimum _ _ _ => "tvm_disasm.config"
  | .noMethods | .dictionaryRefused _ _ | .entryFailed _ _ => "tvm_disasm.contract"
  | .pageReady _ _ => "tvm_disasm.decoding.decode_map"
  | .aborted => "tvm_disasm.cli"

/-- The wording of a note. -/
def message : Note → String
  | .trailingBytes count => s!"ignoring {count} trailing bytes after BOC"
  | .bagRead cells roots => s!"deserialized {cells} cells, {roots} roots"
  | .dictionaryRead keyBits entries => s!"dictionary with {keyBits}-bit keys: {entries} entries"
  | .unknownOpcode offset hex => s!"unknown opcode at bit {offset}: {hex}"
  | .undecodable offset hex => s!"undecodable opcode at bit {offset}: {hex}"
  | .notInteger name raw => s!"Ignoring {name}={Text.quote raw}: not an integer"
  | .belowMinimum name value minimum => s!"Ignoring {name}={value}: must be >= {minimum}"
  | .noMethods => "code cell has no method dictionary reference"
  | .dictionaryRefused what reason => s!"cannot parse {what} dictionary: {reason}"
  | .entryFailed entry reason => s!"{entry}: {reason}"
  | .pageReady page handlers => s!"code page {page}: {handlers} handlers"
  | .aborted => "disassembly aborted"

/-- A note on one line. -/
def render (n : Note) : String := s!"{n.level.word} {n.topic}: {n.message}"

end Note

end TvmCode
