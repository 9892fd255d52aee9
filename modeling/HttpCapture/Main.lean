import HttpCapture.CommandLine

/-! The program: reads the files that the arguments name and carries out what is left to do. -/

open HttpCapture

def stateOf (path : String) : IO FileState := do
  try
    return .holds (← IO.FS.readBinFile path).data.toList
  catch
    | .noFileOrDirectory .. => return .absent
    | _ => return .unreadable

/-- What stands at each of the paths. -/
def readFiles (paths : List String) : IO (String → FileState) := do
  let found ← paths.mapM fun path => return (path, ← stateOf path)
  return fun path => (found.lookup path).getD .absent

def pathsOf : Request → List String
  | .run args => args.trace :: args.config.toList
  | _ => []

def carryOut : Outcome → IO UInt32
  | .print text => do
    IO.print text
    return 0
  | .write path text => do
    try
      IO.FS.writeFile path text
      return 0
    catch _ => return failureCode
  | .exit code => return code

def main (args : List String) : IO UInt32 := do
  let request := Request.ofArguments args
  carryOut (request.outcome (← readFiles (pathsOf request)))
