import TvmCode.CodeFile
import TvmCode.CommandLine.Arguments
import TvmCode.Contract
import TvmCode.Tree

/-!
# The command line

`Invocation.parse` says what the arguments ask for, and `Invocation.execute` does it, given the contents of the file
that is asked for: it yields what is printed, what is reported beside it, and the exit code. Warnings are always
reported, and everything else if it is asked for.
-/

namespace TvmCode.CommandLine

/-- The name of the program. -/
def program : String := "tvm-disasm"

/-- The version of the program. -/
def version : String := "0.1.0"

/-- The switches that every level has. -/
def helpSwitches : List (String × Switch) :=
  [("h", .help), ("help", .help), ("help-all", .helpAll), ("version", .version),
    ("completions", .completions)]

/-- The command that draws the cell tree of the code. -/
def dumpName : String := "dump"

/-- The command that lists a compiled contract. -/
def contractName : String := "solidity"

/-- The top level. -/
def topLevel : Level :=
  ⟨helpSwitches ++ [("v", .verbose), ("verbose", .verbose)], [dumpName, contractName]⟩

/-- The level of a command. -/
def commandLevel (command : String) : Level :=
  ⟨helpSwitches ++ [("v", .version)] ++ (if command = contractName then [("max-depth", .maxDepth)] else []), []⟩

/-- What the arguments ask for. -/
inductive Invocation where
  | refused (e : UsageError)
  | help
  | version (name : String)
  | completions (shell : Shell) (words : List String)
  | unknownCommand (name : String)
  | noCommand
  | dump (verbose : Bool) (path : String)
  | contract (verbose : Bool) (maxDepth : Option Nat) (path : String)

/-- What a run yields. -/
structure Output where
  code : Nat
  stdout : String
  stderr : String

/-- How to call the program. -/
def usage : String :=
  "Usage:\n    tvm-disasm [-v] dump TVC\n    tvm-disasm [-v] solidity [--max-depth N] TVC\n\n" ++
  "Switches:\n    -h, --help             Prints this help message and quits\n" ++
  "    --version              Prints the program's version and quits\n" ++
  "    --completions SHELL    Prints a completion script for bash or fish and quits\n" ++
  "    -v, --verbose          Enable debug logging\n" ++
  "    --max-depth N          Maximum continuation nesting (default: TVM_DISASM_MAX_DEPTH or 64)\n"

namespace Invocation

/-- What is asked for when a switch asks for information only: help goes before the version, and the version before a
completion script. -/
def information? (name : String) (level : Level) (a : Arguments) : Option Invocation :=
  if a.given.contains .help || a.given.contains .helpAll then some .help
  else if a.given.contains .version then some (.version name)
  else a.completions.map fun shell => .completions shell level.words

/-- What the arguments of a command ask for. -/
def parseCommand (verbose : Bool) (command : String) (args : List String) : Invocation :=
  match scan (commandLevel command) (args.map String.toList) .none with
  | .error e => .refused e
  | .ok a =>
    match information? (program ++ " " ++ command) (commandLevel command) a, a.plain with
    | some i, _ => i
    | none, [path] => if command = contractName then .contract verbose a.maxDepth path else .dump verbose path
    | none, plain => .refused (.positional plain.length)

/-- What the arguments ask for. -/
def parse (args : List String) : Invocation :=
  match scan topLevel (args.map String.toList) .none with
  | .error e => .refused e
  | .ok a =>
    match information? program topLevel a, a.plain, a.command with
    | some i, _, _ => i
    | none, name :: _, _ => .unknownCommand name
    | none, [], none => .noCommand
    | none, [], some (command, rest) => parseCommand (a.given.contains .verbose) command rest

/-- The file that is asked for. -/
def path? : Invocation → Option String
  | .dump _ path => some path
  | .contract _ _ path => some path
  | _ => none

end Invocation

/-- The notes that are shown, each on a line. -/
def shown (verbose : Bool) (notes : List Note) : String :=
  String.join ((notes.filter fun n => verbose || n.level = .warning).map fun n => n.render ++ "\n")

/-- Where a fault arose, if that is known. -/
def place (f : Fault) : String :=
  match f.offset? with
  | some offset => s!" at bit offset {offset}"
  | none => ""

/-- The listing of a contract with the settings found, where a depth that is asked for goes before a setting. -/
def listContract (lookup : String → Option String) (maxDepth : Option Nat) (code : Cell) : Contract.Report :=
  let (found, warnings) := Config.load lookup
  let config := match maxDepth with
    | some depth => if h : 0 < depth then { found with maxDepth := depth, maxDepth_pos := h } else found
    | none => found
  (Contract.list config code).afterNotes (warnings ++ CodePage.zeroNotes)

/-- The run for a file that cannot be loaded. -/
def loadFailure (verbose : Bool) (notes : List Note) (e : CodeFile.LoadError) : Output :=
  ⟨1, "", shown verbose notes ++ "Error: " ++ e.message ++ "\n"⟩

/-- Draws the code of a file. -/
def runDump (verbose : Bool) (path : String) (file : List UInt8) : Output :=
  match CodeFile.load path (some file) with
  | (.error e, notes) => loadFailure verbose notes e
  | (.ok code, notes) => ⟨0, code.treeText, shown verbose notes⟩

/-- Lists the contract of a file. -/
def runContract (lookup : String → Option String) (verbose : Bool) (maxDepth : Option Nat) (path : String)
    (file : List UInt8) : Output :=
  match CodeFile.load path (some file) with
  | (.error e, notes) => loadFailure verbose notes e
  | (.ok code, notes) =>
    let r := listContract lookup maxDepth code
    match r.failure with
    | none => ⟨0, r.text, shown verbose (notes ++ r.notes)⟩
    | some f =>
      ⟨1, r.text ++ ";; malformed contract" ++ place f ++ ": " ++ f.message ++ "\n",
        shown verbose (notes ++ r.notes ++ [.aborted])⟩

/-- Does what is asked for, given the settings and the contents of the file, if it exists. -/
def Invocation.execute (lookup : String → Option String) (file : Option (List UInt8)) : Invocation → Output
  | .refused e => ⟨2, "Error: " ++ e.message ++ "\n\n" ++ usage, ""⟩
  | .help => ⟨0, usage, ""⟩
  | .version name => ⟨0, name ++ " " ++ CommandLine.version ++ "\n", ""⟩
  | .completions shell words => ⟨0, shell.script program words, ""⟩
  | .unknownCommand name => ⟨1, "", "Unknown command: " ++ Text.quote name ++ "\n"⟩
  | .noCommand => ⟨1, usage, "No command given (expected 'dump' or 'solidity')\n"⟩
  | .dump verbose path =>
    match file with
    | none => ⟨2, "Error: " ++ (UsageError.notFile path).message ++ "\n\n" ++ usage, ""⟩
    | some bytes => runDump verbose path bytes
  | .contract verbose maxDepth path =>
    match file with
    | none => ⟨2, "Error: " ++ (UsageError.notFile path).message ++ "\n\n" ++ usage, ""⟩
    | some bytes => runContract lookup verbose maxDepth path bytes

end TvmCode.CommandLine
