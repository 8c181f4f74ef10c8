import CurlLog.Pattern.Cut
import CurlLog.Script.Shell
import CurlLog.Script.TestCase

/-!
# Success messages

The command that reports a test case as passed:

    echo -e "${GREEN}✓ TC-USER-001 PASSED${NC}"

The status code of the answer is added to the message, after the word `PASSED`.
-/

namespace CurlLog.SuccessMessage

/-- The parts of a success message. -/
inductive Part where
  | caseId
  /-- What stands around the identifier. -/
  | phrase
deriving DecidableEq, Repr

/-- How a success message begins, before the identifier. -/
def opening : Text :=
  Shell.greenOpening ++ "✓ ".toList

/-- What follows the identifier in a message as it is found. -/
def plainClosing : Text :=
  " PASSED".toList ++ Shell.greenClosing

/-- What follows the identifier in a message with the status code. -/
def statusClosing : Text :=
  " PASSED (HTTP: $HTTP_CODE)".toList ++ Shell.greenClosing

/-- The shape of a success message as it is found. -/
def pattern : Pattern Part :=
  .ofPart .phrase [.word opening]
    ++ .ofPart .caseId TestCase.caseId
    ++ .ofPart .phrase [.word plainClosing]

/-- The message with the status code. -/
def withStatus (m : Match Part) : Text :=
  opening ++ m.part .caseId ++ statusClosing

/-- Adds the status code to each success message. -/
def annotate (script : Text) : Edited :=
  pattern.edit withStatus script

end CurlLog.SuccessMessage
