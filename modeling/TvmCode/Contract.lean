import TvmCode.CodePage.Zero
import TvmCode.Dictionary
import TvmCode.Listing

/-!
# Contracts

A compiled contract is a code cell. Its own bits are the selector. Of the references that the selector leaves, the
first is the dictionary of methods and the second the continuation of register `c3`, whose first reference left over
is the dictionary of internal functions. `Contract.list` lists all of it in sections; a fault in a method or a
function is shown in its own section, while a fault in the selector or in the continuation ends the listing.
-/

namespace TvmCode.Contract

/-- The listing of a contract as far as it goes, the fault that ended it early, and what was reported. -/
structure Report where
  text : String
  failure : Option Fault
  notes : List Note

namespace Report

/-- Some lines of text. -/
def lines (text : String) : Report := ⟨text, none, []⟩

/-- A report with notes made before it. -/
def afterNotes (notes : List Note) (r : Report) : Report := { r with notes := notes ++ r.notes }

/-- One report after another; what comes after a fault is left out. -/
def andThen (r : Report) (next : Unit → Report) : Report :=
  match r.failure with
  | some _ => r
  | none =>
    let later := next ()
    ⟨r.text ++ later.text, later.failure, r.notes ++ later.notes⟩

/-- A region as a section of its own. -/
def ofRegion (r : Region) : Report := ⟨r.text, r.failure?, r.notes⟩

end Report

/-- The number of bits of a dictionary's keys. -/
def keyBits : Int := 32

/-- The section of a dictionary entry under its title. A fault is shown as its last line. -/
def entry (config : Config) (title : String) (code : Slice) : Report :=
  let r := disassemble CodePage.zero config code true
  let lead := "\n;; " ++ title ++ "\n"
  match r.failure? with
  | none => ⟨lead ++ r.text, none, r.notes⟩
  | some f =>
    ⟨lead ++ r.text ++ ";; error: " ++ f.message ++ "\n", none, r.notes ++ [.entryFailed title f.message]⟩

/-- The sections of dictionary entries in order. -/
def sections (config : Config) (title : Nat → String) : List Dictionary.Entry → Report
  | [] => .lines ""
  | e :: es => (entry config (title e.key) e.value).andThen fun _ => sections config title es

/-- The sections of the dictionary at a cell, and what comes after them; `what` the dictionary holds is said when it
is none. -/
def dictionary (config : Config) (what : String) (title : Nat → String) (root : Cell) (next : Unit → Report) : Report :=
  let result := Dictionary.read (some root) keyBits
  .afterNotes (Dictionary.notes keyBits result) <|
    match result with
    | .ok es => (sections config title es).andThen next
    | .error e =>
      ⟨";; failed to recognize " ++ what ++ " dictionary\n", none, [.dictionaryRefused what e.message]⟩

/-- The sections of the internal functions, after the listing of the continuation that left the slice. -/
def functions (config : Config) (c3 : Slice) : Report :=
  match c3.reference 0 with
  | .error _ => .lines ";; current dictionary is empty\n"
  | .ok root =>
    if root.isEmpty then .lines ";; current dictionary is empty\n"
    else dictionary config "functions" (fun key => "function " ++ toString key) root fun _ => .lines ""

/-- The section of the continuation of register `c3` and those of the internal functions, after a selector that left
the slice. -/
def continuation (config : Config) (selector : Slice) : Report :=
  (Report.lines "\n;; c3 continuation (current dictionary)\n").andThen fun _ =>
    match selector.reference 1 with
    | .error f => ⟨"", some f, []⟩
    | .ok cell =>
      let r := disassemble CodePage.zero config (Slice.ofCell cell) false
      (Report.ofRegion r).andThen fun _ => functions config r.rest

/-- The listing of a contract. -/
def list (config : Config) (code : Cell) : Report :=
  (Report.lines ";; selector\n").andThen fun _ =>
    let r := disassemble CodePage.zero config (Slice.ofCell code) false
    (Report.ofRegion r).andThen fun _ =>
      match r.rest.reference 0 with
      | .error _ => ⟨";; failed to recognize methods dictionary\n", none, [.noMethods]⟩
      | .ok root =>
        dictionary config "methods" (fun key => "method " ++ Text.hex key) root fun _ => continuation config r.rest

end TvmCode.Contract
