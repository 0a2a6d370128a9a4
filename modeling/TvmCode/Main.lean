import TvmCode.CommandLine.Basic

/-!
# The program

Reads the settings and the file that the arguments ask for, runs the command and prints what it yields.
-/

open TvmCode.CommandLine

/-- The contents of a file, if it can be read. -/
def readFile? (path : String) : IO (Option (List UInt8)) := do
  try
    return some (← IO.FS.readBinFile path).toList
  catch _ =>
    return none

/-- Runs the command that the arguments ask for. -/
def main (args : List String) : IO UInt32 := do
  let invocation := Invocation.parse args
  let file ← match invocation.path? with
    | some path => readFile? path
    | none => pure none
  let names := [TvmCode.Config.depthName, TvmCode.Config.indentName]
  let values ← names.mapM fun name => (IO.getEnv name : IO (Option String))
  let settings := names.zip values
  let output := invocation.execute (fun name => (settings.lookup name).join) file
  IO.print output.stdout
  IO.eprint output.stderr
  return output.code.toUInt32
