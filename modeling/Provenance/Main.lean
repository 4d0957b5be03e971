import Provenance.CommandLine

set_option autoImplicit false

namespace Provenance

def readFile? (path : String) : IO (Option String) := do
  try
    return some (← IO.FS.readFile path)
  catch _ =>
    return none

/-- Reads the named files and hands everything to `CommandLine.run`. -/
def runCommand (arguments : List String) : IO UInt32 := do
  let flags ← IO.getEnv "SYMTAINT_FLAGS"
  let paths :=
    match CommandLine.configure flags arguments with
    | .ok (_, paths) => paths
    | .error _ => []
  let contents ← paths.mapM fun path => do return (path, ← readFile? path)
  let outcome := CommandLine.run (fun path => (contents.lookup path).join) flags arguments
  IO.print outcome.stdout
  IO.eprint outcome.stderr
  return outcome.exitCode.toUInt32

end Provenance

def main (arguments : List String) : IO UInt32 := Provenance.runCommand arguments
