import TvmCode.Note
import TvmCode.Text.Numeral

/-!
# Settings

Two numbers govern a listing: how deep continuations may nest and how many spaces each level is indented by. They come
from the caller (`Config.ofInts`) or from named settings (`Config.load`), where a setting that is absent or blank has
its default, and so has one that makes no sense, after a warning.
-/

namespace TvmCode

/-- How a listing is made. -/
structure Config where
  maxDepth : Nat
  indent : Nat
  maxDepth_pos : 0 < maxDepth

/-- Why numbers make no settings. -/
inductive ConfigError where
  | maxDepth (value : Int)
  | indent (value : Int)

/-- The wording of a refusal. -/
def ConfigError.message : ConfigError → String
  | .maxDepth value => s!"max_depth must be positive, got {value}"
  | .indent value => s!"indent must be non-negative, got {value}"

namespace Config

/-- The nesting depth allowed where none is set. -/
def defaultMaxDepth : Nat := 64

/-- The spaces for each level where none are set. -/
def defaultIndent : Nat := 2

/-- The defaults. -/
def default : Config := ⟨defaultMaxDepth, defaultIndent, by decide⟩

/-- The given settings, if the depth is positive and the indentation not negative. -/
def ofInts (maxDepth indent : Int) : Except ConfigError Config :=
  if h : maxDepth < 1 then .error (.maxDepth maxDepth)
  else if indent < 0 then .error (.indent indent)
  else .ok ⟨maxDepth.toNat, indent.toNat, by omega⟩

/-- The margin of one level. -/
def margin (c : Config) : String := String.ofList (List.replicate c.indent ' ')

/-- A setting of at least `minimum` by its name and raw text, and a warning if the default stands in for a bad one. -/
def setting (name : String) (minimum fallback : Nat) (raw : Option String) : Nat × List Note :=
  match raw with
  | none => (fallback, [])
  | some text =>
    let trimmed := Text.trimChars Text.isBlank text.toList
    if trimmed.isEmpty then (fallback, [])
    else match Text.readInt .marked (String.ofList trimmed) with
      | none => (fallback, [.notInteger name text])
      | some value =>
        if value < minimum then (fallback, [.belowMinimum name value minimum]) else (value.toNat, [])

/-- The name of the setting of the depth. -/
def depthName : String := "TVM_DISASM_MAX_DEPTH"

/-- The name of the setting of the indentation. -/
def indentName : String := "TVM_DISASM_INDENT"

/-- The settings found under their names, and the warnings about them; the depth comes first. -/
def load (lookup : String → Option String) : Config × List Note :=
  let depth := setting depthName 1 defaultMaxDepth (lookup depthName)
  let indent := setting indentName 0 defaultIndent (lookup indentName)
  let config := if h : 0 < depth.1 then ⟨depth.1, indent.1, h⟩ else { default with indent := indent.1 }
  (config, depth.2 ++ indent.2)

end Config

end TvmCode
