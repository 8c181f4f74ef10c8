import CurlLog.Text.Basic

/-!
# The names that the inserted lines use

The shell code that is added to a script calls a logging function, keeps request bodies in a
variable and prints a label. All three can be chosen; any text is allowed, the empty one too, and
it is inserted as it stands.
-/

namespace CurlLog

/-- The names that the inserted lines use. -/
structure Names where
  /-- The shell function that logs a request. The script has to define it. -/
  helper : Text := "print_request".toList
  /-- The shell variable that a request body is moved into. -/
  bodyVar : Text := "REQUEST_DATA".toList
  /-- The text printed before a response body. -/
  responseLabel : Text := "[响应]".toList
deriving DecidableEq, Repr

namespace Names

/-- How the definition of the logging function begins in the script. -/
def helperDefinition (names : Names) : Text :=
  names.helper ++ "()".toList

/-- Whether the script has the beginning of a definition of the logging function. -/
def definedIn (names : Names) (script : Text) : Bool :=
  Text.occurs names.helperDefinition script

end Names

end CurlLog
