import CurlLog.Files.ReadFailure
import CurlLog.Report

/-!
# Annotating a script

`annotate` runs the four passes over a script and counts what they changed. Every inserted line
calls the logging function, so a script that does not define it is refused as a whole.

`annotateFile` does the same with what a reader of files gives for a path.
-/

namespace CurlLog

/-- Why a script was not annotated. -/
inductive Failure where
  /-- The script does not define the logging function. -/
  | missingHelper (helper : Text)
  /-- The script could not be read. -/
  | unreadable (path : Text) (cause : ReadFailure)
deriving DecidableEq, Repr

/-- The failure in words. -/
def Failure.message : Failure → Text
  | missingHelper helper =>
    "logging helper `".toList ++ helper ++ "` is not defined in the script".toList
  | unreadable path cause => "failed to read ".toList ++ path ++ ": ".toList ++ cause.reason

/-- A script with its annotations, and what was changed. -/
structure Annotated where
  text : Text
  report : Report
deriving DecidableEq, Repr

/-- Runs the passes in order. Each one works on the text that the one before it left. -/
def runPasses (names : Names) (script : Text) : Annotated :=
  let bodies := Pass.bodyRequests.run names script
  let gets := Pass.bodilessRequests.run names bodies.text
  let messages := Pass.successMessages.run names gets.text
  let labels := Pass.responseLabels.run names messages.text
  ⟨labels.text, bodies.count, gets.count, messages.count, labels.count⟩

/-- Annotates a script, if it defines the logging function. -/
def annotate (names : Names) (script : Text) : Except Failure Annotated :=
  if names.definedIn script then .ok (runPasses names script)
  else .error (.missingHelper names.helper)

theorem annotate_eq_ok_iff {names : Names} {script : Text} {a : Annotated} :
    annotate names script = .ok a ↔
      names.definedIn script = true ∧ a = runPasses names script := by
  by_cases h : names.definedIn script = true <;> simp [annotate, h, eq_comm]

/-- Annotates the script that `read` gives for a path. -/
def annotateFile (read : Text → Except ReadFailure Text) (names : Names) (path : Text) :
    Except Failure Annotated :=
  match read path with
  | .error cause => .error (.unreadable path cause)
  | .ok script => annotate names script

end CurlLog
