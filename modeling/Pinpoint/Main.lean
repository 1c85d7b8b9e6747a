import Pinpoint.CommandLine.Respond

namespace Pinpoint

/-- Reads a file, keeping a fault apart from a missing file. -/
def readContents (path : String) : IO FileContents := do
  try
    return .bytes (← IO.FS.readBinFile path)
  catch error =>
    match error with
    | .noFileOrDirectory _ _ _ => return PathFault.missing.contents
    | .inappropriateType _ code details => return ofCode code details
    | .invalidArgument _ code details => return ofCode code details
    | .permissionDenied _ code details => return ofCode code details
    | .otherError code details => return ofCode code details
    | other => return .fault (toString other)
where
  /-- The report of a fault that the operating system gives by its code. -/
  ofCode (code : UInt32) (details : String) : FileContents :=
    match code.toInt32.toInt.natAbs with
    | 20 => PathFault.belowFile.contents
    | 21 => PathFault.atDirectory.contents
    | 36 => PathFault.tooLong.contents
    | number => .fault (details.capitalize ++ " (os error " ++ toString number ++ ")")

/-- Runs the program on its arguments and gives its exit code. -/
def run (arguments : List String) : IO UInt32 := do
  let invocation := Invocation.ofArguments arguments
  let contents ← match invocation with
    | .run _ file => readContents file
    | _ => pure .missing
  let outcome := Outcome.ofInvocation (fun _ => contents) invocation
  let stdout ← IO.getStdout
  stdout.putStr outcome.output
  stdout.flush
  return outcome.exit.toUInt32

end Pinpoint

def main (arguments : List String) : IO UInt32 := Pinpoint.run arguments
