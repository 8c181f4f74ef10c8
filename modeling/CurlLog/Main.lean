import CurlLog.Cli.Run
import Std.Time.Format

/-!
# The program

Takes the arguments, the environment, the time and the script from the system, runs, and writes
what the outcome holds.
-/

namespace CurlLog.Cli

/-- The number of an error, which the system gives with either sign. -/
def errorNumber (code : UInt32) : Nat :=
  (min code (-code)).toNat

/-- The cause of a failed read, from the error that the system gives. -/
def ReadFailure.ofError : IO.Error → ReadFailure
  | .noFileOrDirectory .. => .notFound
  | .permissionDenied .. => .other "Permission denied (os error 13)".toList
  | .inappropriateType _ code details => ofCode (errorNumber code) details
  | .invalidArgument _ code details => ofCode (errorNumber code) details
  | .otherError code details => ofCode (errorNumber code) details
  | e => .other (toString e).toList
where
  ofCode (number : Nat) (details : String) : ReadFailure :=
    match number with
    | 20 => .notADirectory
    | 21 => .isADirectory
    | 36 => .nameTooLong
    | n => .other (details.toList ++ " (os error ".toList ++ Text.ofNat n ++ ")".toList)

/-- Reads a script from the system's files. -/
def readScript (path : Text) : IO (Except ReadFailure Text) := do
  if path.contains '\x00' then return .error .nulInPath
  match ← (IO.FS.readBinFile (String.ofList path)).toBaseIO with
  | .error e => return .error (ReadFailure.ofError e)
  | .ok content =>
    match String.fromUTF8? content with
    | none => return .error .invalidUtf8
    | some text => return .ok text.toList

/-- The variables of the system's environment that a run looks at. -/
def environment : IO Environment := do
  let value? (name : String) : IO (Option Text) := do
    return (← IO.getEnv name).map String.toList
  return {
    helper := ← value? "REQLOG_HELPER"
    bodyVar := ← value? "REQLOG_BODY_VAR"
    responseLabel := ← value? "REQLOG_RESPONSE_LABEL"
    logLevel := ← value? "RUST_LOG" }

/-- The time now, as log lines give it. -/
def timeNow : IO Text := do
  let now := Std.Time.DateTime.ofTimestampWithZone (← Std.Time.Timestamp.now) Std.Time.TimeZone.UTC
  return (now.format "uuuu-MM-dd'T'HH:mm:ss.SSSSSS'Z'").toList

end CurlLog.Cli

open CurlLog CurlLog.Cli in
/-- Runs the program on the arguments. The script is read only where the arguments ask for a run. -/
def main (arguments : List String) : IO UInt32 := do
  let args := arguments.map String.toList
  let env ← environment
  let script ← match Given.ofArguments args with
    | .ok given => readScript (given.job env).path
    | .error _ => pure (.error .notFound)
  let outcome := run env (← timeNow) (fun _ => script) args
  (← IO.getStdout).putStr (String.ofList outcome.output)
  (← IO.getStderr).putStr (String.ofList outcome.diagnostics)
  return outcome.exitCode.toUInt32
