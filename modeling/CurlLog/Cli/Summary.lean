import CurlLog.Cli.Terminal
import CurlLog.Report

/-!
# The summary of a run

The counts of a report for a reader at a terminal: a heading with the path, a line for each pass
and a closing line, in colours.
-/

namespace CurlLog.Cli

/-- The line above and below the heading. -/
def rule : Text :=
  styled dim (List.replicate 52 '━') ++ ['\n']

/-- The heading, with the path. -/
def heading (path : Text) : Text :=
  styled (bold ++ cyan) "Summary".toList ++ ' ' :: styled dim path ++ ['\n']

/-- The line of a pass. A count of zero is dim. -/
def countLine (pass : Pass) (count : Nat) : Text :=
  "  ".toList ++ styled dim (Text.padRight 18 (pass.label ++ [':'])) ++ ' ' ::
    styled (bold ++ if 0 < count then green else dim) (Text.ofNat count) ++ ['\n']

/-- The closing line. -/
def closing (r : Report) : Text :=
  (if r.isEmpty then styled (yellow ++ bold) "No test cases matched".toList
    else styled (green ++ bold) (Text.ofNat r.total ++ " rewrite(s) applied".toList)) ++ ['\n']

/-- The summary of the run over the script at a path. -/
def summary (path : Text) (r : Report) : Text :=
  rule ++ heading path ++ rule
    ++ Pass.all.flatMap (fun pass => countLine pass (r.count pass))
    ++ '\n' :: closing r

end CurlLog.Cli
