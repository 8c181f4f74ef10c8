import CurlLog.Proofs.Pattern.Occurrences
import CurlLog.Proofs.Script.SuccessMessage

/-!
# Every success message gets its status

Two success messages do not overlap, so the pass reaches every place where one begins
(`count_annotate`). With the status in it a message is none any more, and no message comes about
at the edges of one (`steps_annotate`); so nothing is left for the pass to do a second time. Since
a message stands on one line, the pass goes line by line.
-/

namespace CurlLog.SuccessMessage

open Pattern

theorem apart_pattern : pattern.Apart := by
  intro x t y ht
  obtain ⟨i, rfl⟩ := takes_pattern.mp ht
  exact seam_before_message x y i plainClosing

/-- The pass counts all places where a message begins. -/
theorem count_annotate (t : Text) : (annotate t).count = pattern.occurrences t :=
  apart_pattern.count_edit_eq_occurrences not_takes_nil withStatus t

theorem occurrences_text_annotate (t : Text) : pattern.occurrences (annotate t).text = 0 :=
  occurrences_eq_zero_iff.mpr (steps_annotate t).2

theorem annotate_text_annotate (t : Text) : annotate (annotate t).text = ⟨(annotate t).text, 0⟩ :=
  edit_of_find?_eq_none withStatus (steps_annotate t).2

/-- The pass goes line by line. -/
theorem annotate_newline (a b : Text) :
    annotate (a ++ '\n' :: b) = annotate a ++ (⟨['\n'], 0⟩ ++ annotate b) := by
  refine edit_of_notMem not_takes_nil withStatus (fun t ht => ?_) a b
  obtain ⟨i, rfl⟩ := takes_pattern.mp ht
  exact newline_notMem_message i

/--
The pass goes line by line, changes every place where a message begins, and does so once: a second
run finds none.
-/
theorem annotate_every_message :
    (∀ a b, annotate (a ++ '\n' :: b) =
      ⟨(annotate a).text ++ '\n' :: (annotate b).text, (annotate a).count + (annotate b).count⟩) ∧
    ∀ t, (annotate t).count = pattern.occurrences t ∧
      pattern.occurrences (annotate t).text = 0 ∧
      annotate (annotate t).text = ⟨(annotate t).text, 0⟩ := by
  constructor
  · intro a b
    rw [annotate_newline]
    ext1
    · rfl
    · simp
  · exact fun t => ⟨count_annotate t, occurrences_text_annotate t, annotate_text_annotate t⟩

end CurlLog.SuccessMessage
