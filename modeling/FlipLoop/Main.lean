import FlipLoop.CommandLine.Report

/-!
# The program

Reads the file that a command names, and prints the report of the command.
-/

open FlipLoop FlipLoop.CommandLine

/-- The content of the file at `path`. A directory can be opened but not read, which tells it from a
file in the place of a directory. -/
def fetch (path : String) : IO (Except ReadFault ByteArray) := do
  try
    return .ok (← IO.FS.readBinFile path)
  catch
    | .inappropriateType none _ _ => return .error .isDirectory
    | .inappropriateType (some _) _ _ => return .error .notDirectory
    | _ => return .error .notFound

def main (arguments : List String) : IO UInt32 := do
  let content ← match (Invocation.ofArguments arguments).bind (·.command.file?) with
    | some path => fetch path
    | none => pure (.error .notFound)
  let environment := (← IO.getEnv "RUST_LOG").bind Threshold.ofName?
  let report := report arguments environment fun _ => content
  for event in report.log do
    IO.eprintln event.text
  for line in report.out do
    IO.println line
  for line in report.err do
    IO.eprintln line
  return UInt32.ofNat report.exitCode
