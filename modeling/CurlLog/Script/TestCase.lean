import CurlLog.Pattern.Basic
import CurlLog.Text.DecimalDigit

/-!
# Test cases

A test case has an identifier such as `TC-USER-001`. It opens with a comment and with a command
that prints its title, each with an identifier and a colon:

    # TC-USER-001: Create user
    echo ">>> TC-USER-001: Create user"

The two identifiers need not be the same. What stands between the parts is a gap; which characters
a gap may hold is for the caller to say.
-/

namespace CurlLog.TestCase

/-- An identifier: capital letters of ASCII, then decimal digits. -/
def caseId : List Piece :=
  [.word "TC-".toList, .most Char.isUpper, .word "-".toList, .most isDecimalDigit]

/-- The comment with the identifier, as far as the colon. -/
def mark : List Piece :=
  .word "# ".toList :: caseId ++ [.word ":".toList]

/-- The command that prints the title, from the end of the line before it as far as the colon. -/
def heading : List Piece :=
  .word "\necho \">>> ".toList :: caseId ++ [.word ":".toList]

/-- The opening of a test case, with the quote and the line end after the title. -/
def header (gap : Char → Bool) : List Piece :=
  mark ++ .least gap :: heading ++ [.least gap, .word "\"\n".toList]

end CurlLog.TestCase
