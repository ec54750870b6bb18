import Comprehend.CommandLine.Run

/-! The program: reads the files that the command names, runs it and writes its answer. -/
namespace Comprehend.CommandLine

def stateOfError : IO.Error → FileState
  | .noFileOrDirectory .. => .absent "No such file or directory (os error 2)"
  | .inappropriateType .. => .absent "Is a directory (os error 21)"
  | .permissionDenied .. => .unreadable "Permission denied (os error 13)"
  | e => .unreadable (toString e)

def readState (path : String) : IO FileState := do
  try
    return .text (← IO.FS.readFile path)
  catch e =>
    return stateOfError e

/-- The states of the given paths; there is nothing under any other one. -/
def filesAt (paths : List String) : IO Files := do
  let states ← paths.mapM fun path => return (path, ← readState path)
  return fun path => (states.lookup path).getD (.absent "No such file or directory (os error 2)")

end Comprehend.CommandLine

open Comprehend.CommandLine in
def main (args : List String) : IO UInt32 := do
  let outcome := run (← filesAt (pathsOf args)) args
  (← IO.getStdout).putStr outcome.out
  (← IO.getStderr).putStr outcome.err
  return outcome.code
