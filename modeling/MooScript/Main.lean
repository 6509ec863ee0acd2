import MooScript.CommandLine

/-! The command itself. -/
namespace MooScript

/-- The content of a file of valid text. -/
def readFile? (path : String) : IO (Option String) := do
  try
    return some (← IO.FS.readFile path)
  catch _ => return none

end MooScript

def main (args : List String) : IO UInt32 := do
  let result ← MooScript.CommandLine.perform MooScript.readFile? args
  IO.print result.output
  return result.status
