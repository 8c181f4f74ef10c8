import CurlLog.Pattern.Basic
import CurlLog.Text.Blank

/-!
# Requests

A request is a call of `curl` whose answer goes into the variable `RESPONSE`. The address is a
variable with the base address of a service and a path, which ends at white space or at a
character that the kind of request names.
-/

namespace CurlLog.CurlCall

/-- How every request begins. -/
def opening : Text :=
  "RESPONSE=$(curl -s -w \"\\n%\x7bhttp_code\x7d\" ".toList

/-- The address, which holds no white space and no `stop` after the first slash. -/
def url (stop : Char) : List Piece :=
  [.word "$BASE_URL_".toList, .most Char.isUpper, .word "/".toList,
    .most fun c => !isBlank c && c != stop]

end CurlLog.CurlCall
