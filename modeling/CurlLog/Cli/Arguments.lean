import CurlLog.Cli.Slot
import CurlLog.Cli.Terminal

/-!
# Reading the arguments

The arguments are read from left to right, and the first one that is wrong, or that asks for the
help or the version, decides the outcome.

A path, and the value of a setting that stands in an argument of its own, is kept back until the
next argument that is understood, and only then put in place (`Reader.settle`). So an argument
that is not understood is reported before a mistake in what was kept back.

An argument after `--` is never an option. An argument that begins with a dash is never the value
of the setting before it, unless it is a dash alone.
-/

namespace CurlLog.Cli

/-! ## One argument -/

/-- The forms of an argument. -/
inductive Argument where
  /-- Two dashes alone: no option follows. -/
  | endOfOptions
  /-- Two dashes and a name, with a value after an equals sign or without one. -/
  | long (name : Text) (value : Option Text)
  /-- One dash and letters. -/
  | short (letters : Text)
  /-- Anything else, a dash alone too. -/
  | plain (s : Text)
deriving DecidableEq, Repr

/-- The form of an argument. -/
def Argument.ofText : Text → Argument
  | ['-', '-'] => endOfOptions
  | '-' :: '-' :: s =>
    match s.dropWhile (· != '=') with
    | [] => long s none
    | _ :: value => long (s.takeWhile (· != '=')) (some value)
  | '-' :: c :: s => short (c :: s)
  | s => plain s

/-! ## Outcomes -/

/-- What is wrong with the arguments. -/
inductive UsageError where
  | unexpectedArgument (arg : Text)
  | missingValue (slot : Slot)
  | repeated (slot : Slot)
  | unexpectedValue (value : Text) (slot : Slot)
deriving DecidableEq, Repr

/-- What is wrong with the arguments, in words. What is quoted has a style. -/
def UsageError.message : UsageError → Text
  | unexpectedArgument arg =>
    "unexpected argument '".toList ++ styled yellow arg ++ "' found".toList
  | missingValue slot =>
    "a value is required for '".toList ++ styled yellow slot.spelling
      ++ "' but none was supplied".toList
  | repeated slot =>
    "the argument '".toList ++ styled yellow slot.spelling
      ++ "' cannot be used multiple times".toList
  | unexpectedValue value slot =>
    "unexpected value '".toList ++ styled yellow value ++ "' for '".toList
      ++ styled bold slot.spelling ++ "' found; no more were expected".toList

/-- Why the reading of the arguments ends early. -/
inductive Stop where
  | usage (e : UsageError)
  | help
  | version
deriving DecidableEq, Repr

/-- What the arguments give. -/
structure Given where
  path : Option Text := none
  helper : Option Text := none
  bodyVar : Option Text := none
  responseLabel : Option Text := none
  format : Option Text := none
  summary : Bool := false
  verbose : Bool := false
deriving DecidableEq, Repr

namespace Given

/-- The value of a setting, if it is given. -/
def value? (g : Given) : Setting → Option Text
  | .helper => g.helper
  | .bodyVar => g.bodyVar
  | .responseLabel => g.responseLabel
  | .format => g.format

/-- The same with a value for a setting. -/
def withValue (g : Given) (value : Text) : Setting → Given
  | .helper => { g with helper := some value }
  | .bodyVar => { g with bodyVar := some value }
  | .responseLabel => { g with responseLabel := some value }
  | .format => { g with format := some value }

theorem value?_withValue (g : Given) (value : Text) (s t : Setting) :
    (g.withValue value s).value? t = if s = t then some value else g.value? t := by
  cases s <;> cases t <;> rfl

end Given

/-! ## The reader -/

/-- What is kept back until the next argument that is understood. -/
inductive Pending where
  | nothing
  | path (value : Text)
  | setting (s : Setting) (value : Option Text)
deriving DecidableEq, Repr

/-- The state of the reader between two arguments. -/
structure Reader where
  given : Given := {}
  pending : Pending := .nothing
  /-- Whether `--` has been read. -/
  optionsEnded : Bool := false
deriving DecidableEq, Repr

namespace Reader

def fail (e : UsageError) : Except Stop Reader :=
  .error (.usage e)

/-- Puts a value in the place of a setting, once. -/
def assign (r : Reader) (s : Setting) (value : Text) : Except Stop Reader :=
  if (r.given.value? s).isSome then fail (.repeated (.setting s))
  else .ok { r with given := r.given.withValue value s }

/-- Puts in place what was kept back. -/
def settle (r : Reader) : Except Stop Reader :=
  let done := { r with pending := .nothing }
  match r.pending with
  | .nothing => .ok done
  | .path [] => fail (.missingValue .path)
  | .path value => .ok { done with given := { r.given with path := some value } }
  | .setting s none => fail (.missingValue (.setting s))
  | .setting s (some value) => done.assign s value

/-- Turns a switch on, once, or stops where it asks for the help or the version. -/
def turnOn (r : Reader) : Switch → Except Stop Reader
  | .summary =>
    if r.given.summary then fail (.repeated (.switch .summary))
    else .ok { r with given := { r.given with summary := true } }
  | .verbose =>
    if r.given.verbose then fail (.repeated (.switch .verbose))
    else .ok { r with given := { r.given with verbose := true } }
  | .help => .error .help
  | .version => .error .version

/-- Reads a setting with the value that its own argument has, or waits for the value. -/
def takeSetting (r : Reader) (s : Setting) (value : Option Text) : Except Stop Reader := do
  let r ← r.settle
  match value with
  | some value => r.assign s value
  | none => .ok { r with pending := .setting s none }

/-- Reads a switch. -/
def takeSwitch (r : Reader) (s : Switch) : Except Stop Reader := do
  (← r.settle).turnOn s

/-- Reads a name with two dashes before it. -/
def takeLong (r : Reader) (name : Text) (value : Option Text) : Except Stop Reader :=
  match Setting.ofName? name with
  | some s => r.takeSetting s value
  | none =>
    match Switch.ofName? name, value with
    | some s, none => r.takeSwitch s
    | some s, some value => fail (.unexpectedValue value (.switch s))
    | none, _ => fail (.unexpectedArgument ('-' :: '-' :: name))

/--
Reads letters with one dash before them. The letter of a setting takes what follows it for the
value, without an equals sign in between.
-/
def takeShort (r : Reader) : (letters : Text) → Except Stop Reader
  | [] => .ok r
  | c :: letters =>
    match Switch.ofLetter? c with
    | some s => do takeShort (← r.takeSwitch s) letters
    | none =>
      match Setting.ofLetter? c, letters with
      | some s, [] => r.takeSetting s none
      | some s, '=' :: value => r.takeSetting s (some value)
      | some s, value => r.takeSetting s (some value)
      | none, _ => fail (.unexpectedArgument ['-', c])

/-- Reads an argument that stands for the path. There is one path. -/
def takePath (r : Reader) (arg : Text) : Except Stop Reader :=
  match r.pending, r.given.path with
  | .path _, _ | _, some _ => fail (.unexpectedArgument arg)
  | _, none => do .ok { (← r.settle) with pending := .path arg }

/-- Reads one argument. -/
def take (r : Reader) (arg : Text) : Except Stop Reader :=
  if r.optionsEnded then r.takePath arg
  else
    match Argument.ofText arg, r.pending with
    | .endOfOptions, _ => .ok { r with optionsEnded := true }
    | .long name value, _ => r.takeLong name value
    | .short letters, _ => r.takeShort letters
    | .plain value, .setting s none => .ok { r with pending := .setting s (some value) }
    | .plain value, _ => r.takePath value

end Reader

/-- Reads all arguments. -/
def Given.ofArguments (args : List Text) : Except Stop Given := do
  let r ← args.foldlM Reader.take {}
  return (← r.settle).given

end CurlLog.Cli
