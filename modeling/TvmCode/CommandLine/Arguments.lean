import TvmCode.Text.Numeral

/-!
# Command-line arguments

The arguments of one level of the command line are switches, the name of a command, or plain arguments. `scan` sorts
them. A long switch may carry its value behind an equals sign, which no other switch may have, short switches may stand
together behind one hyphen, `--` ends the switches, and the name of a command ends the level: what follows it belongs to
the command.

The program also writes scripts with which a shell offers the words that may stand on a level (`Shell.script`).
-/

namespace TvmCode.CommandLine

/-! ## Shells -/

/-- A shell that can complete words. -/
inductive Shell where
  | bash
  | fish
  deriving DecidableEq

namespace Shell

/-- The shells by name. -/
def names : List (String × Shell) := [("bash", .bash), ("fish", .fish)]

/-- The shell of a name, in letters of either case. -/
def ofName? (name : List Char) : Option Shell := names.lookup (String.ofList (name.map Char.toLower))

/-- A script by which the shell offers the words after the name of the program. -/
def script (program : String) (words : List String) : Shell → String
  | .bash => "complete -o default -W \"" ++ String.intercalate " " words ++ "\" " ++ program ++ "\n"
  | .fish => "complete -c " ++ program ++ " -a \"" ++ String.intercalate " " words ++ "\"\n"

end Shell

/-! ## Switches and levels -/

/-- The switches. -/
inductive Switch where
  | help
  | helpAll
  | version
  | verbose
  | maxDepth
  | completions
  deriving DecidableEq

/-- Whether a switch carries a value. -/
def Switch.hasValue : Switch → Bool
  | .maxDepth | .completions => true
  | .help | .helpAll | .version | .verbose => false

/-- One level of the command line: its switches by name, and the commands below it. -/
structure Level where
  switches : List (String × Switch)
  commands : List String

/-- The words that may stand on a level: its commands, and its switches behind their hyphens. -/
def Level.words (level : Level) : List String :=
  level.commands ++ level.switches.map fun (name, _) => (if name.length = 1 then "-" else "--") ++ name

/-- Why arguments are refused. -/
inductive UsageError where
  | unknownSwitch (name : String)
  | missingValue (name : String)
  | unexpectedValue (name : String)
  | badValue (name text : String)
  | repeated (name : String)
  | positional (count : Nat)
  | notFile (path : String)

/-- The wording of a refusal. -/
def UsageError.message : UsageError → String
  | .unknownSwitch name => s!"Unknown switch {name}"
  | .missingValue name => s!"Switch {name} requires an argument"
  | .unexpectedValue name => s!"Switch {name} takes no argument"
  | .badValue name text => s!"Switch {name} cannot have the argument {text}"
  | .repeated name => s!"Switch {name} already given"
  | .positional count => s!"Expected exactly 1 positional argument, got {count}"
  | .notFile path => s!"{path} is not a file"

/-- The switches given with the values that two of them carry, the plain arguments, and the command with its own
arguments. -/
structure Arguments where
  given : List Switch
  maxDepth : Option Nat
  completions : Option Shell
  plain : List String
  command : Option (String × List String)

/-- The greatest depth that can be asked for. -/
def depthLimit : Int := 10000

/-- A depth in decimal. -/
def depth? (text : List Char) : Option Nat :=
  match Text.readInt .decimal (String.ofList text) with
  | some n => if 1 ≤ n ∧ n ≤ depthLimit then some n.toNat else none
  | none => none

namespace Arguments

/-- No arguments. -/
def none : Arguments := ⟨[], Option.none, Option.none, [], Option.none⟩

/-- Adds a switch, which may be given once. -/
def give (a : Arguments) (name : List Char) (s : Switch) : Except UsageError Arguments :=
  if a.given.contains s then .error (.repeated (String.ofList name)) else .ok { a with given := a.given ++ [s] }

/-- Adds the value of a switch, if the switch can have it. -/
def setValue? (a : Arguments) (text : List Char) : Switch → Option Arguments
  | .maxDepth => (depth? text).map fun depth => { a with maxDepth := some depth }
  | .completions => (Shell.ofName? text).map fun shell => { a with completions := some shell }
  | .help | .helpAll | .version | .verbose => Option.none

/-- Adds a switch with its value: a value that the switch cannot have is refused before a switch given twice. -/
def giveValue (a : Arguments) (name : List Char) (s : Switch) (text : List Char) : Except UsageError Arguments :=
  match a.setValue? text s with
  | Option.none => .error (.badValue (String.ofList name) (String.ofList text))
  | some b => b.give name s

end Arguments

/-- The value of a switch at the front of the arguments, perhaps behind an equals sign, and the arguments after it. -/
def takeValue : List (List Char) → Option (List Char × List (List Char))
  | [] => none
  | ['='] :: value :: rest => some (value, rest)
  | ['='] :: [] => none
  | ('=' :: value) :: rest => some (value, rest)
  | value :: rest => some (value, rest)

/-- The number of characters of the arguments, where each argument counts for one more. -/
def totalLength : List (List Char) → Nat
  | [] => 0
  | a :: args => a.length + 1 + totalLength args

theorem totalLength_le_of_takeValue {args rest : List (List Char)} {value : List Char}
    (h : takeValue args = some (value, rest)) : totalLength rest ≤ totalLength args := by
  unfold takeValue at h
  split at h
  · cases h
  · cases h
    simp only [totalLength]
    omega
  · cases h
  · cases h
    simp only [totalLength, List.length_cons]
    omega
  · cases h
    simp only [totalLength]
    omega

/-- The part of a long switch before its equals sign, and the rest. -/
def splitSwitch (a : List Char) : List Char × List Char := (a.takeWhile (· ≠ '='), a.dropWhile (· ≠ '='))

/-- The rest of a long switch counts as an argument of its own. -/
def pushRest (rest : List Char) (args : List (List Char)) : List (List Char) :=
  if rest.isEmpty then args else rest :: args

theorem totalLength_pushRest_le (rest : List Char) (args : List (List Char)) :
    totalLength (pushRest rest args) ≤ totalLength args + rest.length + 1 := by
  unfold pushRest
  split
  · omega
  · simp only [totalLength]
    omega

theorem totalLength_pushSplit_le (a : List Char) (args : List (List Char)) :
    totalLength (pushRest (splitSwitch a).2 args) ≤ totalLength args + a.length + 1 := by
  have h₁ : (splitSwitch a).2.length ≤ a.length := (List.dropWhile_suffix _).length_le
  have h₂ := totalLength_pushRest_le (splitSwitch a).2 args
  omega

/-- Sorts the arguments of one level, adding to those sorted before. -/
def scan (level : Level) (args : List (List Char)) (found : Arguments) : Except UsageError Arguments :=
  match args with
  | [] => .ok found
  | ['-', '-'] :: rest => .ok { found with plain := found.plain ++ rest.map String.ofList }
  | a :: rest =>
    if level.commands.contains (String.ofList a) then
      .ok { found with command := some (String.ofList a, rest.map String.ofList) }
    else match a with
      | '-' :: '-' :: long =>
        match level.switches.lookup (String.ofList (splitSwitch long).1) with
        | none => .error (.unknownSwitch (String.ofList a))
        | some switch =>
          if switch.hasValue then
            match _h : takeValue (pushRest (splitSwitch long).2 rest) with
            | none => .error (.missingValue (String.ofList a))
            | some (text, after) => do scan level after (← found.giveValue a switch text)
          else if (splitSwitch long).2.isEmpty then do scan level rest (← found.give a switch)
          else .error (.unexpectedValue (String.ofList a))
      | '-' :: c :: more =>
        match level.switches.lookup (String.singleton c) with
        | none => .error (.unknownSwitch (String.ofList a))
        | some switch => do
          scan level (if more.isEmpty then rest else ('-' :: more) :: rest) (← found.give a switch)
      | ['-'] => .error (.unknownSwitch "-")
      | _ => scan level rest { found with plain := found.plain ++ [String.ofList a] }
termination_by totalLength args
decreasing_by
  · have h₁ := totalLength_le_of_takeValue ‹_›
    have h₂ := totalLength_pushSplit_le long rest
    simp only [totalLength, List.length_cons] at *
    omega
  · simp only [totalLength]
    omega
  · split <;> simp only [totalLength, List.length_cons] <;> omega
  · simp only [totalLength]
    omega

end TvmCode.CommandLine
