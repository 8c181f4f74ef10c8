import CurlLog.Proofs.LaterPasses
import CurlLog.Proofs.Text.Replacement

/-!
# Marks behind white space

In a script the mark of a test case begins a comment, so it stands at the start of the text or
directly behind white space (`MarksApart`). The first pass leaves it so (`marksApart_annotate`): it
moves bodies and puts quotes around names, and what stands behind a quote before stands behind a
quote or a line end after.
-/

namespace CurlLog

open Pattern

namespace TestCase

/-- Each mark is at the start of the text or directly behind white space. -/
def MarksApart (t : Text) : Prop :=
  ∀ p q, t = p ++ (markOpening ++ q) → p = [] ∨ ∃ e d, p = e ++ [d] ∧ isBlank d = true

/-- A mark stands directly behind another character. -/
def MarkJoined (t : Text) : Prop :=
  ∃ d, isBlank d = false ∧ d :: markOpening <:+: t

theorem marksApart_iff {t : Text} : MarksApart t ↔ ¬ MarkJoined t := by
  constructor
  · rintro h ⟨d, hd, p, q, rfl⟩
    rcases h (p ++ [d]) q (by simp) with hnil | ⟨e, c, heq, hc⟩
    · simp at hnil
    · obtain rfl : d = c := by simpa using (List.append_inj' heq rfl).2
      simp [hc] at hd
  · rintro h p q rfl
    rcases List.eq_nil_or_concat p with rfl | ⟨e, d, rfl⟩
    · exact Or.inl rfl
    · refine Or.inr ⟨e, d, by simp, ?_⟩
      cases hd : isBlank d with
      | true => rfl
      | false => exact absurd ⟨d, hd, e, q, by simp⟩ h

theorem joined_cons {c : Char} {s : Text} :
    MarkJoined (c :: s) ↔ (isBlank c = false ∧ markOpening <+: s) ∨ MarkJoined s := by
  simp only [MarkJoined, List.infix_cons_iff, List.cons_prefix_cons, and_or_left, exists_or]
  refine or_congr_left ?_
  constructor
  · rintro ⟨d, hd, rfl, hs⟩
    exact ⟨hd, hs⟩
  · rintro ⟨hc, hs⟩
    exact ⟨c, hc, rfl, hs⟩

instance decidableMarkJoined : (t : Text) → Decidable (MarkJoined t)
  | [] => isFalse fun ⟨_, _, h⟩ => List.cons_ne_nil _ _ (List.infix_nil.mp h)
  | c :: s =>
    have := decidableMarkJoined s
    decidable_of_iff ((isBlank c = false ∧ markOpening <+: s) ∨ MarkJoined s) joined_cons.symm

instance (t : Text) : Decidable (MarksApart t) :=
  decidable_of_iff (¬ MarkJoined t) marksApart_iff.symm

theorem MarkJoined.mono {s t : Text} (h : MarkJoined s) (hst : s <:+: t) : MarkJoined t := by
  obtain ⟨d, hd, hs⟩ := h
  exact ⟨d, hd, hs.trans hst⟩

theorem not_joined_of_no_mark {t : Text} (h : ¬ markOpening <:+: t) : ¬ MarkJoined t := by
  rintro ⟨d, _, hinfix⟩
  exact h ((List.suffix_cons d markOpening).isInfix.trans hinfix)

/-- A mark lies on one line. -/
theorem joined_wholeLines {p q : Text} (hp : Text.WholeLines p) :
    MarkJoined (p ++ q) ↔ MarkJoined p ∨ MarkJoined q := by
  have hword {d : Char} (hd : isBlank d = false) : '\n' ∉ d :: markOpening := by
    have hopening : '\n' ∉ markOpening := by decide
    rw [List.mem_cons, not_or]
    refine ⟨?_, hopening⟩
    rintro rfl
    exact absurd hd (by decide)
  constructor
  · rintro ⟨d, hd, h⟩
    exact ((hp.infix_append (hword hd)).mp h).imp (fun h => ⟨d, hd, h⟩) fun h => ⟨d, hd, h⟩
  · rintro (h | h)
    · exact h.mono (List.prefix_append p q).isInfix
    · exact h.mono (List.suffix_append p q).isInfix

/-- Behind a character that is not in a mark it does not matter which character that is. -/
theorem joined_append_cons {c : Char} (hblank : isBlank c = false) (hmark : c ∉ markOpening)
    {p q : Text} : MarkJoined (p ++ c :: q) ↔ MarkJoined p ∨ MarkJoined ('\'' :: q) := by
  constructor
  · rintro ⟨d, hd, x, z, h⟩
    have heq : p ++ c :: q = (x ++ [d]) ++ (markOpening ++ z) := by
      rw [← h]
      simp
    rcases Text.word_cases hmark heq (by decide) with ⟨z', rfl, _⟩ | ⟨x', hx', rfl⟩
    · exact Or.inl ⟨d, hd, x, z', by simp⟩
    · refine Or.inr ?_
      rcases List.eq_nil_or_concat x' with rfl | ⟨x', e, rfl⟩
      · exact ⟨'\'', by decide, [], z, rfl⟩
      · have hlast : x ++ [d] = (p ++ c :: x') ++ [e] := by simp [hx']
        obtain rfl : d = e := by simpa using (List.append_inj' hlast rfl).2
        exact ⟨d, hd, '\'' :: x', z, by simp⟩
  · rintro (h | ⟨d, hd, x, z, h⟩)
    · exact h.mono (List.prefix_append p _).isInfix
    · obtain _ | ⟨e, x⟩ := x
      · obtain rfl : markOpening ++ z = q := List.tail_eq_of_cons_eq h
        exact ⟨c, hblank, p, z, by simp⟩
      · refine ⟨d, hd, p ++ c :: x, z, ?_⟩
        have hq : x ++ d :: markOpening ++ z = q := List.tail_eq_of_cons_eq h
        rw [← hq]
        simp

end TestCase

namespace BodyRequest

open TestCase

variable {names : Names}

/-- A variable in the place of the body brings no mark, and what follows it followed the body. -/
theorem joined_replaceAll {v body z z' : Text} (hv : Shell.IsIdentifier v)
    (hz : MarkJoined ('\'' :: z') → MarkJoined ('\'' :: z)) (s : Text) :
    (s = [] ∨ ∃ e, s = e ++ ['\'']) →
      MarkJoined
          ('\'' :: (Text.replaceAll (Shell.singleQuoted body) (Shell.variableWord v) s ++ z')) →
        MarkJoined ('\'' :: (s ++ z)) := by
  have hword : Shell.singleQuoted body ≠ [] := List.cons_ne_nil _ _
  induction s using Text.replaceAll_induction hword with
  | absent s h =>
    rw [Text.replaceAll_of_not_mem h]
    rintro (rfl | ⟨e, rfl⟩) hjoined
    · exact hz hjoined
    · have hsplit (y : Text) : '\'' :: (e ++ ['\''] ++ y) = ('\'' :: e) ++ '\'' :: y := by simp
      rw [hsplit, joined_append_cons (by decide) (by decide)] at hjoined ⊢
      exact hjoined.imp_right hz
  | first a b h ih =>
    intro hs hjoined
    have hb : b = [] ∨ ∃ e, b = e ++ ['\''] := by
      rcases List.eq_nil_or_concat b with rfl | ⟨b, c, rfl⟩
      · exact Or.inl rfl
      · refine Or.inr ⟨b, ?_⟩
        obtain ⟨e, he⟩ := hs.resolve_left (by simp)
        have hlast : (a ++ (Shell.singleQuoted body ++ b)) ++ [c] = e ++ ['\''] := by simp [← he]
        obtain rfl : c = '\'' := by simpa using (List.append_inj' hlast rfl).2
        simp
    rw [Text.replaceAll_first hword h] at hjoined
    have hsplit (y : Text) : '\'' :: (a ++ (Shell.variableWord v ++ y)) =
        ('\'' :: a) ++ '"' :: ('$' :: v ++ '"' :: y) := by
      simp [Shell.variableWord, Shell.doubleQuoted]
    rw [List.append_assoc, List.append_assoc, hsplit, joined_append_cons (by decide) (by decide),
      ← List.cons_append, joined_append_cons (by decide) (by decide)] at hjoined
    rcases hjoined with hjoined | hjoined | hjoined
    · exact hjoined.mono ⟨[], Shell.singleQuoted body ++ b ++ z, by simp⟩
    · have hname : '#' ∉ '\'' :: '$' :: v := by
        simp [hv.notMem (c := '#') (by decide)]
      exact absurd hjoined (not_joined_of_no_mark fun h => hname (h.subset (by decide)))
    · exact (ih hb hjoined).mono ⟨'\'' :: (a ++ '\'' :: body), [], by simp [Shell.singleQuoted]⟩

/-- The body behind its quote is in the request, and the line that sets the variable has no more. -/
theorem joined_assignment (hvar : Shell.IsIdentifier names.bodyVar) (c : Call)
    (h : MarkJoined ((c.request []).assignment names)) : MarkJoined c.text := by
  have hsplit : (c.request []).assignment names =
      (names.bodyVar ++ ['=']) ++ '\'' :: (c.body ++ '\'' :: ['\n']) := by
    simp [assignment, Shell.assignment, Shell.singleQuoted, Call.request]
  rw [hsplit, joined_append_cons (by decide) (by decide)] at h
  rcases h with h | h
  · have hname : '#' ∉ names.bodyVar ++ ['='] := by
      simp [hvar.notMem (c := '#') (by decide)]
    exact absurd h (not_joined_of_no_mark fun h => hname (h.subset (by decide)))
  · rw [← List.cons_append, joined_append_cons (by decide) (by decide)] at h
    rcases h with h | h
    · exact h.mono ⟨c.front ++ options, ['\''], by simp [c.text_eq_front, Shell.singleQuoted]⟩
    · exact absurd h (not_joined_of_no_mark (by decide))

/-- No mark stands at the front of a request. -/
theorem joined_call (c : Call) {z : Text} (h : MarkJoined ('\'' :: (c.text ++ z))) :
    MarkJoined (c.text ++ z) := by
  obtain ⟨d, hd, hinfix⟩ := h
  refine ⟨d, hd, (List.infix_cons_iff.mp hinfix).resolve_left fun hfront => ?_⟩
  obtain ⟨w, hw⟩ := hfront
  have hw : markOpening ++ w = c.text ++ z := List.tail_eq_of_cons_eq hw
  exact absurd (List.head_eq_of_cons_eq hw) (by decide)

/-- The pass does not join a mark to what stands before it. -/
theorem joined_annotate (hhelper : Shell.IsIdentifier names.helper)
    (hvar : Shell.IsIdentifier names.bodyVar) (t : Text) :
    ∀ x, MarkJoined (x ++ (annotate names t).text) → MarkJoined (x ++ t) := by
  induction t using forwardScan.induct with
  | case1 t hnone =>
    intro x h
    rwa [annotate_of_nextCall_eq_none hnone] at h
  | case2 t a m rest hnext _ ih =>
    intro x h
    obtain ⟨ht, harmed, hmatch⟩ := nextCall_sound hnext
    obtain ⟨c, rfl, _⟩ := match?_call_sound hmatch
    rw [c.text_toMatch] at ht
    subst ht
    have hwhole := (harmed.append x).wholeLines
    have htext : x ++ (annotate names (a ++ (c.text ++ rest))).text =
        (x ++ a) ++ ((c.request []).assignment names ++ ((c.request []).logLine names ++
          ((c.request []).callWithVariable names ++ (annotate names rest).text))) := by
      rw [annotate_of_nextCall names hnext]
      simp only [rewritten, Edited.text_append, List.append_assoc]
    have hassignment : Text.WholeLines ((c.request []).assignment names) :=
      Text.wholeLines_append_newline _
    have hlogLine : Text.WholeLines ((c.request []).logLine names) := Shell.wholeLines_command _ _
    rw [htext, joined_wholeLines hwhole, joined_wholeLines hassignment,
      joined_wholeLines hlogLine] at h
    rw [← List.append_assoc, joined_wholeLines hwhole]
    rcases h with h | h | h | h
    · exact Or.inl h
    · exact Or.inr ((joined_assignment hvar c h).mono (List.prefix_append _ _).isInfix)
    · exact absurd h (not_joined_of_no_mark (c.barrier_logLine hhelper hvar).no_mark)
    · have hend : ∃ e, c.text = e ++ ['\''] :=
        ⟨c.front ++ (options ++ '\'' :: c.body), by simp [c.text_eq_front, Shell.singleQuoted]⟩
      have hquoted := joined_replaceAll hvar (ih ['\'']) c.text (Or.inr hend)
        (h.mono (List.suffix_cons _ _).isInfix)
      exact Or.inr (joined_call c hquoted)

/-- The pass leaves the marks behind white space. -/
theorem marksApart_annotate (hhelper : Shell.IsIdentifier names.helper)
    (hvar : Shell.IsIdentifier names.bodyVar) {t : Text} (h : MarksApart t) :
    MarksApart (annotate names t).text :=
  marksApart_iff.mpr (mt (joined_annotate hhelper hvar t []) (marksApart_iff.mp h))

end BodyRequest

end CurlLog
