import CurlLog.Names
import CurlLog.Pattern.Cut
import CurlLog.Script.CurlCall
import CurlLog.Script.Shell
import CurlLog.Script.TestCase

/-!
# Requests with a body

A request with the method `POST`, `PUT` or `DELETE` and a body in single quotes:

    RESPONSE=$(curl -s -w "\n%{http_code}" -X POST $BASE_URL_USER/api/users \
    -H "Content-Type: application/json" \
    -d '…')

Two lines are put before it. The first moves the body into a variable, the second logs the
request. In the request itself the variable takes the place of the body, wherever the quoted body
occurs in it.

A gap of the header may run over several lines, so a header can belong to a request further down.
-/

namespace CurlLog

/-- A request with a body, under the header of its test case. -/
structure BodyRequest where
  header : Text
  /-- The whole request, up to the quote that closes the body. -/
  call : Text
  method : Text
  url : Text
  body : Text
deriving DecidableEq, Repr

namespace BodyRequest

/-- The parts of a request with a body. -/
inductive Part where
  | header
  | method
  | url
  | body
  /-- What belongs to the request and to no other part. -/
  | call
deriving DecidableEq, Repr

/-- The methods that a request with a body can have. -/
def methods : List Text :=
  ["POST".toList, "PUT".toList, "DELETE".toList]

/-- What stands between the options of the request and the text of the body. -/
def bodyOpening : Text :=
  "\n-H \"Content-Type: application/json\" \\\n-d '".toList

/-- The shape of the request itself. -/
def callPattern : Pattern Part :=
  .ofPart .call [.word CurlCall.opening, .word "-X ".toList]
    ++ .ofPart .method [.oneOf methods]
    ++ .ofPart .call [.word " ".toList]
    ++ .ofPart .url (CurlCall.url '\\')
    ++ .ofPart .call [.most (· != ')'), .word bodyOpening]
    ++ .ofPart .body [.most (· != '\'')]
    ++ .ofPart .call [.word "'".toList]

/-- The shape of the request with the header before it. -/
def pattern : Pattern Part :=
  .ofPart .header (TestCase.header fun _ => true) ++ callPattern

/-- Reads the parts off a match. -/
def ofMatch (m : Match Part) : BodyRequest where
  header := m.part .header
  call := m.select (· != .header)
  method := m.part .method
  url := m.part .url
  body := m.part .body

/-- The line that moves the body into the variable. -/
def assignment (names : Names) (r : BodyRequest) : Text :=
  Shell.assignment names.bodyVar r.body

/-- The line that logs the request. -/
def logLine (names : Names) (r : BodyRequest) : Text :=
  Shell.command names.helper [r.method, r.url, '$' :: names.bodyVar]

/-- The request with the variable in the place of the quoted body. -/
def callWithVariable (names : Names) (r : BodyRequest) : Text :=
  Text.replaceAll (Shell.singleQuoted r.body) (Shell.variableWord names.bodyVar) r.call

/-- The header, the two new lines and the request that reads the variable. -/
def annotated (names : Names) (r : BodyRequest) : Text :=
  r.header ++ r.assignment names ++ r.logLine names ++ r.callWithVariable names

/-- Moves the body of each such request into the variable and logs the request. -/
def annotate (names : Names) (script : Text) : Edited :=
  pattern.edit (fun m => (ofMatch m).annotated names) script

end BodyRequest

end CurlLog
