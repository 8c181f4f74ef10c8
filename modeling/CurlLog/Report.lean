import CurlLog.Pass

/-!
# Reports

A report has the number of places that each pass changed. It is written as a JSON object with one
field for each pass, on one line or with a line for each field.
-/

namespace CurlLog

/-- How many places each pass changed. -/
structure Report where
  bodyRequests : Nat
  bodilessRequests : Nat
  successMessages : Nat
  responseLabels : Nat
deriving DecidableEq, Repr

namespace Report

/-- The count of one pass. -/
def count (r : Report) : Pass → Nat
  | .bodyRequests => r.bodyRequests
  | .bodilessRequests => r.bodilessRequests
  | .successMessages => r.successMessages
  | .responseLabels => r.responseLabels

/-- The report with a count for each pass. -/
def ofCounts (count : Pass → Nat) : Report :=
  ⟨count .bodyRequests, count .bodilessRequests, count .successMessages, count .responseLabels⟩

/-- The counts of all passes together. -/
def total (r : Report) : Nat :=
  Pass.all.foldl (fun n pass => n + r.count pass) 0

/-- Whether no pass changed anything. -/
def isEmpty (r : Report) : Bool :=
  r.total == 0

theorem isEmpty_iff {r : Report} : r.isEmpty = true ↔ ∀ pass, r.count pass = 0 := by
  have hsum : r.total = (Pass.all.map r.count).sum := by
    rw [total, List.sum_eq_foldl_nat, List.foldl_map]
  rw [isEmpty, beq_iff_eq, hsum, List.sum_eq_zero_iff_forall_eq_nat]
  simp only [List.mem_map, forall_exists_index, and_imp, forall_apply_eq_imp_iff₂]
  exact ⟨fun h pass => h pass pass.mem_all, fun h pass _ => h pass⟩

/-! ## JSON -/

/-- The fields in the order of the passes, with `gap` between a name and its count. -/
def fields (gap : Text) (r : Report) : List Text :=
  Pass.all.map fun pass => '"' :: pass.key ++ '"' :: ':' :: gap ++ Text.ofNat (r.count pass)

/-- The report as JSON on one line, without blanks. -/
def toJson (r : Report) : Text :=
  '\x7b' :: List.intercalate [','] (r.fields []) ++ ['\x7d']

/-- The report as JSON with a line for each field, two blanks before it. -/
def toPrettyJson (r : Report) : Text :=
  "\x7b\n  ".toList ++ List.intercalate ",\n  ".toList (r.fields [' ']) ++ "\n\x7d".toList

end Report

end CurlLog
