import CurlLog.Cli.Run
import CurlLog.Files.Tree

/-!
# The script and the diagnostics

A run writes the script to the output and all else to the diagnostics. What is logged, whether a
summary is asked for and in which format, and how the arguments are spelled does not reach the
output or the exit code: two runs with the same path and the same names agree in both
(`run_streams`).

A run that fails writes no script. What it writes are the log lines of what happened before, and
the line that says what went wrong (`Job.Ends`). A summary that is asked for is left out.
-/

namespace CurlLog.Cli

section

variable (read : Text → Except ReadFailure Text)

/-- What happens in a job, whether it is logged or not. -/
def Job.events (job : Job) : List Event :=
  match read job.path with
  | .error _ => []
  | .ok script => Event.ofScript job.path script (annotate job.names script)

/-- How a job ends: with the annotated script, or with the line that says why there is none. -/
structure Job.Ends (job : Job) (level : Level) (time : Text) (o : Outcome) : Prop where
  /-- The script defines the logging function. -/
  annotated : ∀ script, read job.path = .ok script → job.names.definedIn script = true →
    o.exitCode = 0 ∧ ∃ a, annotate job.names script = .ok a ∧ o.output = a.text ++ ['\n']
  /-- The script does not define the logging function. -/
  undefined : ∀ script, read job.path = .ok script → job.names.definedIn script = false →
    o = { exitCode := 1
          output := []
          diagnostics := Event.lines time level
            [.scriptRead job.path script, .helperMissing job.names.helper] ++
              errorLine (.missingHelper job.names.helper) }
  /-- There is no script to be read. -/
  unreadable : ∀ cause, read job.path = .error cause →
    o = { exitCode := 1
          output := []
          diagnostics := errorLine (.unreadable job.path cause) }

end

end CurlLog.Cli
