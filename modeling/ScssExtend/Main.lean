import ScssExtend.CommandLine

/-!
# The program

Reads the arguments and the file they name, and writes what `CommandLine.Options.run` says.
-/

namespace ScssExtend.CommandLine

/-- The code that the system gave an error. Errors of opening a file carry it negated. -/
def systemCode? : IO.Error → Option Nat
  | .noFileOrDirectory _ code _ | .permissionDenied _ code _ | .inappropriateType _ code _
  | .invalidArgument _ code _ => some (min code.toNat (-code).toNat)
  | _ => none

/-- The text of a file, or the reason why it cannot be read. -/
def readSource (path : String) : IO (Except ReadFault String) := do
  match ← (IO.FS.readBinFile path).toBaseIO with
  | .ok bytes => return (String.fromUTF8? bytes).elim (.error .notText) .ok
  | .error e =>
    return .error (((systemCode? e).bind ReadFault.ofCode?).getD (.other (toString e)))

end ScssExtend.CommandLine

/-- Runs the program; arguments that are not accepted end it with code 2. -/
def main (arguments : List String) : IO UInt32 := do
  match ScssExtend.CommandLine.Options.parse arguments with
  | none =>
    (← IO.getStderr).putStrLn "usage: scss-extend [--json] [--table] [--no-extend] [FILE | --scss TEXT]"
    return 2
  | some options =>
    let outcome ← options.run ScssExtend.CommandLine.readSource
    (← IO.getStdout).putStr outcome.stdout
    (← IO.getStderr).putStr outcome.stderr
    return outcome.code.toUInt32
