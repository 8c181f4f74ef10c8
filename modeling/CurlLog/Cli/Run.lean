import CurlLog.Cli.Help
import CurlLog.Cli.Log
import CurlLog.Cli.Summary

/-!
# A run of the program

A run as a function: from the arguments, the environment, what a path reads as and the time for
log lines, to what is written and the exit code. The script goes to the output; log lines, the
summary and what went wrong go to the diagnostics.
-/

namespace CurlLog.Cli

/-- How a run ends. -/
structure Outcome where
  exitCode : Nat
  output : Text := []
  diagnostics : Text := []
deriving DecidableEq, Repr

/-- The first line of a text, without its end. -/
def firstLine (s : Text) : Text :=
  s.takeWhile (· != '\n')

/-- The line for a run that failed. -/
def errorLine (e : Failure) : Text :=
  styled (red ++ bold) "error:".toList ++ ' ' :: e.message ++ ['\n']

/-- The message for arguments that are wrong. -/
def usageLine (e : UsageError) : Text :=
  styled (red ++ bold) "error:".toList ++ ' ' :: e.message

/-- The summary in the format that is asked for. Any name but `json` stands for text. -/
def Job.summaryOf (job : Job) (r : Report) : Text :=
  if job.format = "json".toList then r.toPrettyJson ++ ['\n'] else Cli.summary job.path r

/-- The outcome of annotating a script that was read. -/
def Job.outcome (job : Job) : Except Failure Annotated → Outcome
  | .error e => { exitCode := 1, diagnostics := errorLine e }
  | .ok a =>
    { exitCode := 0
      output := a.text ++ ['\n']
      diagnostics := if job.summary then job.summaryOf a.report else [] }

/-- Does a job, and puts the log lines before what the outcome says. -/
def Job.run (job : Job) (level : Level) (time : Text)
    (read : Text → Except ReadFailure Text) : Outcome :=
  match read job.path with
  | .error cause => job.outcome (.error (.unreadable job.path cause))
  | .ok script =>
    let result := annotate job.names script
    let outcome := job.outcome result
    { outcome with
      diagnostics := Event.lines time level (Event.ofScript job.path script result)
        ++ outcome.diagnostics }

/-- The outcome where the arguments stop the run. A usage message has one line. -/
def Stop.outcome (env : Environment) : Stop → Outcome
  | .usage e => { exitCode := 2, diagnostics := firstLine (shown (usageLine e)) }
  | .help => { exitCode := 0, output := shown (helpText env) }
  | .version => { exitCode := 0, output := versionLine }

/-- Runs the program. -/
def run (env : Environment) (time : Text) (read : Text → Except ReadFailure Text)
    (args : List Text) : Outcome :=
  match Given.ofArguments args with
  | .error stop => stop.outcome env
  | .ok given => (given.job env).run (Level.ofRun env.logLevel given.verbose) time read

end CurlLog.Cli
