import CurlLog.Annotation

/-!
# Log lines

What happened during a run, one line for each event. A line has a time, a level, a message and the
fields of the event. Lines below the level that is asked for are not shown.

The environment asks for a level by its name. Filters that say more than a name are left out of the
model (`Level.ofName`).
-/

namespace CurlLog.Cli

/-! ## Levels -/

/-- How much is logged, or how much an event matters. -/
inductive Level where
  | off
  | error
  | warn
  | info
  | debug
  | trace
deriving DecidableEq, Repr

namespace Level

def all : List Level :=
  [off, error, warn, info, debug, trace]

/-- The name of a level in a log line. -/
def name : Level → Text
  | off => "OFF".toList
  | error => "ERROR".toList
  | warn => "WARN".toList
  | info => "INFO".toList
  | debug => "DEBUG".toList
  | trace => "TRACE".toList

/-- A greater number lets more events through. -/
def detail : Level → Nat
  | off => 0
  | error => 1
  | warn => 2
  | info => 3
  | debug => 4
  | trace => 5

/--
The level of a name in capital or small letters. The empty name asks for errors.

Other filters are left out: a level as a number from 0 to 5, a part of the program such as `reqlog`,
a part with its level such as `reqlog=debug`, and a list of filters. These can let lines through,
and a text that is no filter at all leaves the choice to the arguments. Here any text that is not
the name of a level counts as `off`, so what is said of log lines holds where the environment has a
name, or nothing.
-/
def ofName (s : Text) : Level :=
  if s = [] then error
  else (all.find? fun level => level.name == s.map Char.toUpper).getD off

/-- The level of a run: what the environment asks for comes first. -/
def ofRun (asked : Option Text) (verbose : Bool) : Level :=
  match asked with
  | some s => ofName s
  | none => if verbose then debug else warn

end Level

/-! ## Events -/

/-- What is logged. -/
inductive Event where
  | scriptRead (path script : Text)
  | passComplete (pass : Pass) (count : Nat)
  | helperMissing (helper : Text)
deriving DecidableEq, Repr

namespace Event

/-- How much an event matters. -/
def level : Event → Level
  | scriptRead _ _ => .debug
  | passComplete _ _ => .debug
  | helperMissing _ => .warn

/-- What a line says of an event. -/
def message : Event → Text
  | scriptRead path script =>
    "read script path=".toList ++ path ++ " bytes=".toList ++ Text.ofNat script.utf8Size
  | passComplete pass count =>
    "pass complete pass=\"".toList ++ pass.label ++ "\" count=".toList ++ Text.ofNat count
  | helperMissing helper => "helper definition not found helper=".toList ++ helper

/-- The line of an event at a time. -/
def line (time : Text) (e : Event) : Text :=
  time ++ ' ' :: Text.padLeft 5 e.level.name ++ ' ' :: e.message ++ ['\n']

/-- The events of annotating a script that was read. -/
def ofScript (path script : Text) (result : Except Failure Annotated) : List Event :=
  scriptRead path script :: match result with
    | .ok a => Pass.all.map fun pass => passComplete pass (a.report.count pass)
    | .error (.missingHelper helper) => [helperMissing helper]
    | .error (.unreadable _ _) => []

/-- The lines of the events that a level lets through. -/
def lines (time : Text) (level : Level) (events : List Event) : Text :=
  (events.filter fun e => e.level.detail ≤ level.detail).flatMap (line time)

end Event

end CurlLog.Cli
