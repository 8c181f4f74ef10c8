import CurlLog.Names
import CurlLog.Script.SuccessMessage
import CurlLog.Text.Blank

/-!
# Labels of response bodies

After a success message with the status code the script counts the test case as passed, and then
it can print the response body:

    echo -e "${GREEN}✓ TC-USER-001 PASSED (HTTP: $HTTP_CODE)${NC}"
    PASSED=$((PASSED+1))
    echo "$RESPONSE_BODY" | jq .

A line that prints a label is put before the last of these commands. White space between the
commands, empty lines too, stays as it is.
-/

namespace CurlLog.ResponseLabel

/-- The parts of a printed response body. -/
inductive Part where
  /-- The message and the count, as far as the end of the line. -/
  | lead
  /-- The command that prints the response body, with the white space before it. -/
  | printing
deriving DecidableEq, Repr

/-- The shape of a message, a count and the printing of the response body. -/
def pattern : Pattern Part :=
  .ofPart .lead (.word SuccessMessage.opening :: TestCase.caseId
      ++ [.word SuccessMessage.statusClosing, .word "\n".toList, .most isBlank,
        .word "PASSED=$((PASSED+1))\n".toList])
    ++ .ofPart .printing [.most isBlank, .word "echo \"$RESPONSE_BODY\" | jq".toList]

/-- The line that prints the label. -/
def labelLine (names : Names) : Text :=
  "    ".toList ++ Shell.green names.responseLabel ++ ['\n']

/-- The message and the count, the label, and the printing of the response body. -/
def annotated (names : Names) (m : Match Part) : Text :=
  m.part .lead ++ labelLine names ++ m.part .printing

/-- Puts a label before each printed response body. -/
def annotate (names : Names) (script : Text) : Edited :=
  pattern.edit (annotated names) script

end CurlLog.ResponseLabel
