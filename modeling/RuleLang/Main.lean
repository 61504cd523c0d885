import RuleLang.CommandLine.Program

/-!
# The command line

Reads the files that the arguments name, prints the output and exits with its code.
-/

namespace RuleLang

/-- The text of a file, if it can be read. -/
def readText? (path : String) : IO (Option String) := do
  try
    return some (← IO.FS.readFile path)
  catch _ => return none

/-- The files of a request with their texts. -/
def readTexts : List String → IO (List (String × Option String))
  | [] => return []
  | path :: rest => do
    let text? ← readText? path
    return (path, text?) :: (← readTexts rest)

end RuleLang

/-- The program. -/
def main (arguments : List String) : IO UInt32 := do
  let request := RuleLang.CommandLine.read arguments
  let texts ← RuleLang.readTexts request.files
  let output := request.perform fun path => (texts.lookup path).getD none
  IO.print output.printed
  return UInt32.ofNat output.exitCode
