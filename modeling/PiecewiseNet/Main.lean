import PiecewiseNet.CommandLine.Run

/-!
# The program

Reads the files that the command line names, and carries out what it asks for.
-/

namespace PiecewiseNet.CommandLine

/-- The fault that has a number in the system. Some calls give the number with its sign turned. -/
def faultNumbered? (code : UInt32) : Option PathFault :=
  [(2, .missing), (20, .notFolder), (21, .isFolder), (28, .noRoom), (36, .nameTooLong)].lookup
    (min code (-code))

/-- The fault behind a failure of the system. -/
def faultOf (e : IO.Error) : PathFault :=
  let code? :=
    match e with
    | .noFileOrDirectory _ code _ | .invalidArgument _ code _ | .resourceExhausted _ code _
    | .inappropriateType _ code _ | .otherError code _ => some code
    | _ => none
  (code? >>= faultNumbered?).getD (.other (toString e))

/-- The text at a path. -/
def readFile (path : String) : IO (Except PathFault String) := do
  try
    return .ok (← IO.FS.readFile path)
  catch e =>
    return .error (faultOf e)

/-- Writes a text to a path. What is held back is written at once, for closing tells no faults. -/
def writeFile (path text : String) : IO (Except PathFault Unit) := do
  try
    IO.FS.withFile path .write fun file => do
      file.putStr text
      file.flush
    return .ok ()
  catch e =>
    return .error (faultOf e)

/-- Prints an outcome. -/
def conclude (o : Outcome) : IO UInt32 := do
  IO.print o.output
  IO.eprint o.errors
  return UInt32.ofNat o.exitCode

/-- Carries out a command line. -/
def runArguments (args : List String) : IO UInt32 := do
  let texts ← (readPaths args).mapM fun path => do
    return (path, ← readFile path)
  let files : Files := fun path => (texts.lookup path).getD (.error .missing)
  match act files args with
  | .finish o => conclude o
  | .write path text note => conclude (writeOutcome path note (← writeFile path text))

end PiecewiseNet.CommandLine

/-- The program. -/
def main (args : List String) : IO UInt32 :=
  PiecewiseNet.CommandLine.runArguments args
