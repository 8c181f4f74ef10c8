import CurlLog.Script.BodilessRequest
import CurlLog.Script.BodyRequest
import CurlLog.Script.ResponseLabel

/-!
# Passes

A script is annotated in four passes, each over the whole text that the pass before it left. The
order matters: labels are put only after messages that have their status code.
-/

namespace CurlLog

/-- One of the four passes over a script. -/
inductive Pass where
  | bodyRequests
  | bodilessRequests
  | successMessages
  | responseLabels
deriving DecidableEq, Repr

namespace Pass

/-- The passes in the order in which they run. -/
def all : List Pass :=
  [bodyRequests, bodilessRequests, successMessages, responseLabels]

theorem mem_all (pass : Pass) : pass ∈ all := by
  cases pass <;> decide

/-- What a pass changes, in words. -/
def label : Pass → Text
  | bodyRequests => "body requests".toList
  | bodilessRequests => "bodiless requests".toList
  | successMessages => "success messages".toList
  | responseLabels => "response labels".toList

/-- The field that holds the count of a pass in a written report. -/
def key : Pass → Text
  | bodyRequests => "body_requests".toList
  | bodilessRequests => "bodiless_requests".toList
  | successMessages => "success_messages".toList
  | responseLabels => "response_labels".toList

/-- The field names tell the passes apart. -/
theorem key_injective {a b : Pass} (h : a.key = b.key) : a = b := by
  revert h
  cases a <;> cases b <;> decide

/-- Runs a pass over a script. -/
def run (names : Names) : Pass → Text → Edited
  | bodyRequests => BodyRequest.annotate names
  | bodilessRequests => BodilessRequest.annotate names
  | successMessages => SuccessMessage.annotate
  | responseLabels => ResponseLabel.annotate names

end Pass

end CurlLog
