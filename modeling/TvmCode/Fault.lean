import TvmCode.Text.Hex
import TvmCode.Text.Numeral

/-!
# Faults

What stops the listing of a code region: bits or references run out, a code chain forks, continuations nest deeper
than allowed, or an instruction meets other opcode bits than its own. The last one means that a dispatch table files
an instruction under the wrong bytes. A fault of another kind is a number that would have to be shown and has too many
digits for it, be it an operand or the width in the wording of a fault (`Fault.short`).
-/

namespace TvmCode

/-- What a slice runs out of. -/
inductive Supply where
  | bits
  | refs

/-- The word for a supply. -/
def Supply.word : Supply → String
  | .bits => "bits"
  | .refs => "refs"

/-- Why code cannot be listed to its end. -/
inductive Fault where
  /-- `width` bits or references were asked for at bit position `offset`, and the slice has fewer. -/
  | underflow (offset : Nat) (width : Int) (kind : Supply)
  /-- More than one reference is left where a code chain goes on in a reference. -/
  | forkedTail (refs offset : Nat)
  /-- Continuations nest deeper than `limit` levels. -/
  | tooDeep (limit : Nat)
  /-- The opcode bits read are not those of the instruction. -/
  | wrongOpcode (code width : Int) (actual : Nat)
  /-- A number has too many digits to be shown. -/
  | tooManyDigits

namespace Fault

/-- What comes of asking for more than a slice has. The wording shows the width, which may have too many digits. -/
def short (offset : Nat) (width : Int) (kind : Supply) : Fault :=
  if Text.Writable width then .underflow offset width kind else .tooManyDigits

theorem short_of_writable {width : Int} (h : Text.Writable width) (offset : Nat) (kind : Supply) :
    short offset width kind = .underflow offset width kind := if_pos h

theorem short_of_not_writable {width : Int} (h : ¬Text.Writable width) (offset : Nat) (kind : Supply) :
    short offset width kind = .tooManyDigits := if_neg h

/-- Where no number has too many digits, it is an underflow. -/
theorem short_of_ne {offset : Nat} {width : Int} {kind : Supply} (h : short offset width kind ≠ .tooManyDigits) :
    short offset width kind = .underflow offset width kind := by
  by_cases hwidth : Text.Writable width
  · exact short_of_writable hwidth offset kind
  · exact absurd (short_of_not_writable hwidth offset kind) h

/-- The wording of a fault. -/
def message : Fault → String
  | .underflow offset width kind => s!"cell underflow at bit offset {offset}: need {width} {kind.word}"
  | .forkedTail refs _ => s!"{refs} references left at continuation boundary, expected at most 1"
  | .tooDeep limit => s!"continuation nesting exceeds {limit} levels"
  | .wrongOpcode code width actual =>
    s!"opcode self-check failed: expected {Text.hexMarked code} ({width} bits), got {Text.hexMarked actual}"
  | .tooManyDigits =>
    s!"Exceeds the limit ({Text.maxDecimalDigits} digits) for integer string conversion; " ++
      "use sys.set_int_max_str_digits() to increase the limit"

/-- The bit position at which a fault arose, if it has one. -/
def offset? : Fault → Option Nat
  | .underflow offset _ _ => some offset
  | .forkedTail _ offset => some offset
  | .tooDeep _ => none
  | .wrongOpcode _ _ _ => none
  | .tooManyDigits => none

end Fault

end TvmCode
