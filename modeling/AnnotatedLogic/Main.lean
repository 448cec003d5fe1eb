import AnnotatedLogic.CommandLine.Session
/-!
# The program

Reads files, prints what the command line asks for and ends with its code.
-/

namespace AnnotatedLogic

/-- The text of a file, if it can be read and is text. -/
def readText (path : String) : IO (Option String) := do
  try
    let bytes ← IO.FS.readBinFile path
    pure (String.fromUTF8? bytes)
  catch _ => pure none

end AnnotatedLogic

def main (args : List String) : IO UInt32 := do
  let completion ← AnnotatedLogic.CommandLine.respond AnnotatedLogic.readText args
  IO.print completion.output
  IO.eprint completion.complaint
  return completion.exitCode.toUInt32
