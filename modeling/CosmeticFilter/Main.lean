import CosmeticFilter.CommandLine.Run

/-!
# The program

Reads the file that the command line names, runs the command line and prints the result.
-/

namespace CosmeticFilter.CommandLine

/-- The error code of the system for a directory that is read as a file. -/
def directoryCode : UInt32 := 21

def lookUp (path : String) : IO Source := do
  try
    return .file (← IO.FS.readBinFile path)
  catch
    | .inappropriateType _ code _ =>
      return if code = directoryCode then .directory else .missing
    | _ => return .missing

end CosmeticFilter.CommandLine

open CosmeticFilter CommandLine in
def main (args : List String) : IO UInt32 := do
  let args := args.map String.toList
  let source ← match (Request.ofArgs? args).bind Request.path? with
    | some path => lookUp (String.ofList path)
    | none => pure .missing
  let outcome := run (fun _ => source) args
  IO.print (String.ofList outcome.stdout)
  IO.eprint (String.ofList outcome.stderr)
  return outcome.exitCode.toUInt32
