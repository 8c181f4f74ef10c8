import CurlLog.Names
import CurlLog.Pattern.Cut
import CurlLog.Script.CurlCall
import CurlLog.Script.Shell
import CurlLog.Script.TestCase

/-!
# Requests without a body

A request without a method, or with the method `GET`, right under the header of its test case:

    RESPONSE=$(curl -s -w "\n%{http_code}" $BASE_URL_USER/api/users/1)

A line that logs it is put before it. The request is known by its beginning; what follows the
address is not looked at. Each line of the header stands on a line of its own.
-/

namespace CurlLog

/-- A request without a body, under the header of its test case. -/
structure BodilessRequest where
  header : Text
  /-- The request as far as the end of the address. -/
  call : Text
  url : Text
deriving DecidableEq, Repr

namespace BodilessRequest

/-- The parts of a request without a body. -/
inductive Part where
  | header
  | url
  /-- What belongs to the request and not to the address. -/
  | call
deriving DecidableEq, Repr

/-- The shape of the request itself, as far as the end of the address. -/
def callPattern : Pattern Part :=
  .ofPart .call [.word CurlCall.opening, .oneOf ["-X GET ".toList, []]]
    ++ .ofPart .url (CurlCall.url ')')

/-- The shape of the request with the header before it. -/
def pattern : Pattern Part :=
  .ofPart .header (TestCase.header (· != '\n')) ++ callPattern

/-- Reads the parts off a match. -/
def ofMatch (m : Match Part) : BodilessRequest where
  header := m.part .header
  call := m.select (· != .header)
  url := m.part .url

/-- The line that logs the request. -/
def logLine (names : Names) (r : BodilessRequest) : Text :=
  Shell.command names.helper ["GET".toList, r.url]

/-- The header, the new line and the request as it was. -/
def annotated (names : Names) (r : BodilessRequest) : Text :=
  r.header ++ r.logLine names ++ r.call

/-- Logs each such request. -/
def annotate (names : Names) (script : Text) : Edited :=
  pattern.edit (fun m => (ofMatch m).annotated names) script

end BodilessRequest

end CurlLog
