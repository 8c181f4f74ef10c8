import CurlLog.Proofs.LaterPasses
import CurlLog.Proofs.SingleCommand

/-!
# An empty report and an unchanged text

A report is empty exactly if the text is as it was (`report_isEmpty_iff`). One direction is plain.
In the other direction lengths do not help, since the first pass takes every copy of a body out of
its request and may make the text shorter than it was.

What helps is the first place at which a text differs from what the later passes make of it
(`Diverges`). They only add text, and what they add there differs from what stood there, whatever
follows (`Diverges.append_ne`): a pass that edits a text makes such a place, and the passes after it
keep it or make one before it (`laterPasses_diverges`). Of a request with a body the first
difference stands behind the name of the variable, unless one stands before the request.
-/

namespace CurlLog

open Pattern TestCase ResponseLabel

variable {names : Names}

/--
Two texts agree as far as a place that the pass edits, and there the second has what the pass adds.
-/
inductive Diverges (names : Names) : Pass → Text → Text → Prop where
  | logLine (e : Text) (c : BodilessRequest.Call) (r w : Text) :
    Diverges names .bodilessRequests ((e ++ ['\n']) ++ (c.text ++ r))
      ((e ++ ['\n']) ++ (c.logLine names ++ w))
  | status (x : Text) (i : Id) (r w : Text) :
    Diverges names .successMessages
      (x ++ (SuccessMessage.message i SuccessMessage.plainClosing ++ r))
      (x ++ (SuccessMessage.message i SuccessMessage.statusClosing ++ w))
  | label (x : Text) {b : Text} (hb : Blank b) (r w : Text) :
    Diverges names .responseLabels (x ++ (printing b ++ r)) (x ++ (labelLine names ++ w))

namespace Diverges

/-- What follows the two texts does not matter. -/
theorem append {pass : Pass} {s t : Text} (h : Diverges names pass s t) (y z : Text) :
    Diverges names pass (s ++ y) (t ++ z) := by
  cases h with
  | logLine e c r w => simpa only [List.append_assoc] using logLine e c (r ++ y) (w ++ z)
  | status x i r w => simpa only [List.append_assoc] using status x i (r ++ y) (w ++ z)
  | label x hb r w => simpa only [List.append_assoc] using label x hb (r ++ y) (w ++ z)

/-- The line that logs a request does not begin like the request. -/
theorem logLine_ne_call (hhelper : Shell.IsIdentifier names.helper) (c : BodilessRequest.Call)
    (r w : Text) : c.text ++ r ≠ c.logLine names ++ w := by
  intro h
  exact ((barrier_logLine hhelper c).not_opens w).2 ⟨c, r, h.symm⟩

/-- A message and the same message with its status differ in their ends. -/
theorem statusMessage_ne (i : Id) (r w : Text) :
    SuccessMessage.message i SuccessMessage.plainClosing ++ r ≠
      SuccessMessage.message i SuccessMessage.statusClosing ++ w := by
  intro h
  rw [SuccessMessage.plainClosing_eq, SuccessMessage.statusClosing_eq] at h
  simp only [SuccessMessage.message, List.append_assoc, List.append_cancel_left_eq] at h
  exact absurd (List.head_eq_of_cons_eq h) (by decide)

/-- A label is printed by another command than a response body. -/
theorem labelLine_ne_printing {b : Text} (hb : Blank b) (r w : Text) :
    printing b ++ r ≠ labelLine names ++ w := by
  intro h
  have hindent : ∀ c ∈ "    ".toList, isBlank c = true := by decide
  have hgreen : Shell.greenOpening =
      'e' :: 'c' :: 'h' :: 'o' :: ' ' :: '-' :: "e \"$\x7bGREEN\x7d".toList := by decide
  have hcommand : bodyCommand =
      'e' :: 'c' :: 'h' :: 'o' :: ' ' :: '"' :: "$RESPONSE_BODY\" | jq".toList := by decide
  simp only [printing, labelLine, Shell.green, hgreen, hcommand, List.append_assoc,
    List.cons_append] at h
  obtain ⟨_, h⟩ := run_unique h hb.2 hindent (by decide) (by decide)
  simp at h

/-- The two texts differ, and what follows them does not make up for it. -/
theorem append_ne (hhelper : Shell.IsIdentifier names.helper) {pass : Pass} {s t : Text}
    (h : Diverges names pass s t) (y z : Text) : s ++ y ≠ t ++ z := by
  intro heq
  cases h with
  | logLine e c r w =>
    simp only [List.append_assoc, List.append_cancel_left_eq] at heq
    exact logLine_ne_call hhelper c _ _ heq
  | status x i r w =>
    simp only [List.append_assoc, List.append_cancel_left_eq] at heq
    exact statusMessage_ne i _ _ heq
  | label x hb r w =>
    simp only [List.append_assoc, List.append_cancel_left_eq] at heq
    exact labelLine_ne_printing hb _ _ heq

end Diverges

/-! ## The first edit of a pass -/

/-- A pass that edits a text makes a place at which the text differs from what it was. -/
theorem annotate_bodiless_diverges (names : Names) (s : Text) :
    BodilessRequest.annotate names s = ⟨s, 0⟩ ∨
      Diverges names .bodilessRequests s (BodilessRequest.annotate names s).text := by
  cases h : BodilessRequest.pattern.find? s with
  | none => exact Or.inl (BodilessRequest.annotate_of_find?_eq_none h)
  | some found =>
    obtain ⟨before, m, rest⟩ := found
    obtain ⟨l, k, c, rfl, hannotated, _⟩ := BodilessRequest.exists_request_of_find? h
    refine Or.inr ?_
    rw [BodilessRequest.annotate, edit_of_find?_eq_some BodilessRequest.not_takes_nil _ h,
      hannotated]
    have hplace : Diverges names _ _ _ := .logLine (before ++ (l ++ '\n' :: k)) c rest
      (c.text ++ (BodilessRequest.annotate names rest).text)
    simpa [BodilessRequest.annotate] using hplace

theorem annotate_status_diverges (names : Names) (s : Text) :
    SuccessMessage.annotate s = ⟨s, 0⟩ ∨
      Diverges names .successMessages s (SuccessMessage.annotate s).text := by
  cases h : SuccessMessage.pattern.find? s with
  | none => exact Or.inl (edit_of_find?_eq_none _ h)
  | some found =>
    obtain ⟨before, m, rest⟩ := found
    obtain ⟨i, rfl, hstatus⟩ := SuccessMessage.exists_message_of_find? h
    refine Or.inr ?_
    rw [SuccessMessage.annotate, edit_of_find?_eq_some SuccessMessage.not_takes_nil _ h, hstatus]
    have hplace : Diverges names _ _ _ := .status before i rest (SuccessMessage.annotate rest).text
    simpa [SuccessMessage.annotate] using hplace

theorem annotate_label_diverges (names : Names) (s : Text) :
    ResponseLabel.annotate names s = ⟨s, 0⟩ ∨
      Diverges names .responseLabels s (ResponseLabel.annotate names s).text := by
  induction s using printed_induction with
  | absent s h => exact Or.inl (ResponseLabel.annotate_of_find?_eq_none h)
  | first before i b b' rest hb hb' hbefore _ =>
    refine Or.inr ?_
    have hplace : Diverges names _ _ _ := .label (before ++ lead i b) hb' rest
      (printing b' ++ (ResponseLabel.annotate names rest).text)
    rw [annotate_first names hbefore rest i hb hb']
    simpa using hplace

/-! ## The passes after it -/

/-- The pass over response bodies leaves a message at the front of a text there. -/
theorem annotate_message_append (names : Names) (i : Id) (w : Text) :
    ∃ w', (ResponseLabel.annotate names
        (SuccessMessage.message i SuccessMessage.statusClosing ++ w)).text =
      SuccessMessage.message i SuccessMessage.statusClosing ++ w' := by
  cases h : ResponseLabel.pattern.find?
      (SuccessMessage.message i SuccessMessage.statusClosing ++ w) with
  | none => exact ⟨w, by rw [ResponseLabel.annotate_of_find?_eq_none h]⟩
  | some found =>
    obtain ⟨before, m, rest⟩ := found
    obtain ⟨j, b, b', _, _, hs, hannotated⟩ := ResponseLabel.exists_of_find? h
    -- the first edit stands behind a line end, and the message has none
    have hsplit : SuccessMessage.message i SuccessMessage.statusClosing ++ w =
        (before ++ SuccessMessage.message j SuccessMessage.statusClosing) ++
          '\n' :: (b ++ (counting ++ '\n' :: (printing b' ++ rest))) := by
      simpa only [lead, List.append_assoc, List.cons_append, List.nil_append] using hs
    rcases Text.char_cases hsplit with ⟨t, ht, _⟩ | ⟨w', hw', _⟩
    · exact absurd (ht ▸ by simp) (ResponseLabel.newline_notMem_message i)
    · rw [ResponseLabel.annotate, edit_of_find?_eq_some ResponseLabel.not_takes_nil _ h, hannotated]
      simp only [Edited.text_append, lead, List.append_assoc]
      rw [← List.append_assoc before, hw', List.append_assoc]
      exact ⟨_, rfl⟩

/-- Behind the pass that logs requests a message may get its status before the first logged one. -/
theorem Diverges.annotate_status (hhelper : Shell.IsIdentifier names.helper) {s t : Text}
    (h : Diverges names .bodilessRequests s t) :
    Diverges names .bodilessRequests s (SuccessMessage.annotate t).text ∨
      Diverges names .successMessages s (SuccessMessage.annotate t).text := by
  cases h with
  | logLine e c r w =>
    rw [(barrier_logLine hhelper c).status_append (Text.wholeLines_append_newline e)]
    rcases annotate_status_diverges names (e ++ ['\n']) with hnone | hfirst
    · rw [hnone]
      exact Or.inl (.logLine e c r _)
    · exact Or.inr (hfirst.append _ _)

/-- Behind the other two passes a response body may get its label before the first difference. -/
theorem Diverges.annotate_label (hhelper : Shell.IsIdentifier names.helper) {pass : Pass}
    {s t : Text} (hpass : pass ≠ .responseLabels) (h : Diverges names pass s t) :
    ∃ pass', Diverges names pass' s (ResponseLabel.annotate names t).text := by
  cases h with
  | logLine e c r w =>
    rw [(barrier_logLine hhelper c).label_append names (Text.wholeLines_append_newline e)]
    rcases annotate_label_diverges names (e ++ ['\n']) with hnone | hfirst
    · rw [hnone]
      exact ⟨_, .logLine e c r _⟩
    · exact ⟨_, hfirst.append _ _⟩
  | status x i r w =>
    have hseam : ResponseLabel.pattern.Seam x
        (SuccessMessage.message i SuccessMessage.statusClosing ++ w) := by
      rw [SuccessMessage.message, List.append_assoc]
      exact ResponseLabel.seam_opening x _
    obtain ⟨w', hw'⟩ := annotate_message_append names i w
    rw [ResponseLabel.annotate_append hseam, Edited.text_append, hw']
    rcases annotate_label_diverges names x with hnone | hfirst
    · rw [hnone]
      exact ⟨_, .status x i r w'⟩
    · exact ⟨_, hfirst.append _ _⟩
  | label => exact absurd rfl hpass

/-- The later passes leave a text alone, or there is a place at which it differs from before. -/
theorem laterPasses_diverges (hhelper : Shell.IsIdentifier names.helper) (s : Text) :
    laterPasses names s = ⟨s, 0, 0, 0, 0⟩ ∨
      ∃ pass, Diverges names pass s (laterPasses names s).text := by
  rcases annotate_bodiless_diverges names s with hgets | hgets
  · rcases annotate_status_diverges names s with hmessages | hmessages
    · rcases annotate_label_diverges names s with hlabels | hlabels
      · exact Or.inl (by simp only [laterPasses, Pass.run, hgets, hmessages, hlabels])
      · refine Or.inr ⟨.responseLabels, ?_⟩
        simpa only [laterPasses, Pass.run, hgets, hmessages] using hlabels
    · refine Or.inr ?_
      simpa only [laterPasses, Pass.run, hgets] using hmessages.annotate_label hhelper (by decide)
  · rcases hgets.annotate_status hhelper with hmessages | hmessages
    · exact Or.inr (hmessages.annotate_label hhelper (by decide))
    · exact Or.inr (hmessages.annotate_label hhelper (by decide))

/-! ## The report -/

/-- Where the first pass edits a text the text is not as it was in the end. -/
theorem text_runPasses_ne (hhelper : Shell.IsIdentifier names.helper)
    (hvar : Shell.IsIdentifier names.bodyVar) {t a rest : Text} {c : BodyRequest.Call}
    (h : BodyRequest.nextCall t = some (a, c.toMatch, rest)) : (runPasses names t).text ≠ t := by
  obtain ⟨ht, harmed, _⟩ := BodyRequest.nextCall_sound h
  rw [c.text_toMatch] at ht
  obtain ⟨z, hz⟩ : ∃ z, (BodyRequest.annotate names t).text =
      a ++ ((names.bodyVar ++ ['=', '\'']) ++ z) := by
    rw [BodyRequest.annotate_of_nextCall names h]
    refine ⟨c.body ++ '\'' :: '\n' :: ((c.request []).logLine names ++
      ((c.request []).callWithVariable names ++ (BodyRequest.annotate names rest).text)), ?_⟩
    simp only [BodyRequest.rewritten, BodyRequest.assignment, Shell.assignment, Shell.singleQuoted,
      Edited.text_append, List.append_assoc, List.cons_append, List.nil_append]
    rfl
  have htext : (runPasses names t).text =
      (laterPasses names a).text ++
        ((names.bodyVar ++ ['=', '\'']) ++ (laterPasses names z).text) := by
    rw [runPasses_eq_laterPasses, hz,
      (barrier_assignment hvar).laterPasses_append names harmed.wholeLines]
  intro heq
  have heq := htext.symm.trans (heq.trans ht)
  rcases laterPasses_diverges hhelper a with hnone | ⟨pass, hfirst⟩
  · -- behind the name of the variable stands a quote, behind that of the answer a dollar sign
    obtain ⟨y, hy⟩ : ∃ y, CurlCall.opening = "RESPONSE".toList ++ '=' :: '$' :: y :=
      ⟨"(curl -s -w \"\\n%\x7bhttp_code\x7d\" ".toList, by decide⟩
    have hword : '=' ∉ "RESPONSE".toList := by decide
    rw [hnone, BodyRequest.Call.text, BodyRequest.Lead.text, hy] at heq
    simp only [List.append_assoc, List.append_cancel_left_eq, List.cons_append] at heq
    obtain ⟨_, heq⟩ := Text.first_unique hword (hvar.notMem (by decide)) heq
    exact absurd (List.head_eq_of_cons_eq heq) (by decide)
  · exact hfirst.append_ne hhelper _ _ heq.symm

theorem Pass.text_run_of_count_eq_zero {pass : Pass} {s : Text} (h : (pass.run names s).count = 0) :
    (pass.run names s).text = s := by
  cases pass <;> exact text_edit_of_count_eq_zero h

/-- Passes that edit no place leave the text as it was. -/
theorem text_runPasses_of_isEmpty {t : Text} (h : (runPasses names t).report.isEmpty = true) :
    (runPasses names t).text = t := by
  have hcount := Report.isEmpty_iff.mp h
  have hbodies := Pass.text_run_of_count_eq_zero (hcount .bodyRequests)
  have hgets := Pass.text_run_of_count_eq_zero (hcount .bodilessRequests)
  have hmessages := Pass.text_run_of_count_eq_zero (hcount .successMessages)
  have hlabels := Pass.text_run_of_count_eq_zero (hcount .responseLabels)
  exact hlabels.trans (hmessages.trans (hgets.trans hbodies))

/-- A text that is as it was has not been edited. -/
theorem isEmpty_runPasses_of_text (hhelper : Shell.IsIdentifier names.helper)
    (hvar : Shell.IsIdentifier names.bodyVar) {t : Text} (h : (runPasses names t).text = t) :
    (runPasses names t).report.isEmpty = true := by
  cases hnext : BodyRequest.nextCall t with
  | some found =>
    obtain ⟨a, m, rest⟩ := found
    obtain ⟨_, _, hmatch⟩ := BodyRequest.nextCall_sound hnext
    obtain ⟨c, rfl, _⟩ := BodyRequest.match?_call_sound hmatch
    exact absurd h (text_runPasses_ne hhelper hvar hnext)
  | none =>
    have hbodies : BodyRequest.annotate names t = ⟨t, 0⟩ :=
      BodyRequest.annotate_of_nextCall_eq_none hnext
    rw [runPasses_eq_laterPasses, hbodies] at h ⊢
    rcases laterPasses_diverges hhelper t with hnone | ⟨pass, hfirst⟩
    · rw [hnone]
      rfl
    · refine absurd ?_ (hfirst.append_ne hhelper [] [])
      rw [List.append_nil, List.append_nil]
      exact h.symm

/-- The report is empty exactly if the text is as it was. -/
theorem report_isEmpty_iff (hhelper : Shell.IsIdentifier names.helper)
    (hvar : Shell.IsIdentifier names.bodyVar) {t : Text} {a : Annotated}
    (h : annotate names t = .ok a) :
    (a.report.isEmpty = true ↔ a.text = t) ∧ (a.report.isEmpty = true ↔ a.report.total = 0) ∧
      (a.report.isEmpty = true ↔ ∀ pass, a.report.count pass = 0) := by
  obtain ⟨_, rfl⟩ := annotate_eq_ok_iff.mp h
  exact ⟨⟨text_runPasses_of_isEmpty, isEmpty_runPasses_of_text hhelper hvar⟩, beq_iff_eq,
    Report.isEmpty_iff⟩

/-- A request that has its body in two options as well. -/
def repeatedCall : BodyRequest.Call :=
  let body : Text := List.replicate 21 'y'
  { BodyRequest.plainCall with
    gap := " -u ".toList ++ Shell.singleQuoted body ++ Shell.singleQuoted body ++ ['\\']
    body := body
    gap_ne_nil := by decide
    paren_notMem_gap := by decide
    body_ne_nil := by decide
    quote_notMem_body := by decide }

/-- Names of one letter. -/
def shortNames : Names :=
  { helper := ['f'], bodyVar := ['v'] }

/-- A script with this request. -/
def repeatedScript : Text :=
  "f()\n".toList ++ (BodyRequest.plainHeader ++ (repeatedCall.text ++ [')', '\n']))

/-- The text gets shorter, and the report says that it has changed. -/
theorem report_repeatedScript : ∃ a, annotate shortNames repeatedScript = .ok a ∧
    a.text.length < repeatedScript.length ∧ a.report.isEmpty = false := by
  have h : annotate shortNames repeatedScript = .ok (runPasses shortNames repeatedScript) :=
    annotate_eq_ok_iff.mpr ⟨by decide, rfl⟩
  have hlength : (runPasses shortNames repeatedScript).text.length < repeatedScript.length := by
    decide +kernel
  refine ⟨_, h, hlength, Bool.eq_false_iff.mpr fun hempty => ?_⟩
  have htext := (report_isEmpty_iff (by decide) (by decide) h).1.mp hempty
  exact absurd (congrArg List.length htext) (Nat.ne_of_lt hlength)

end CurlLog
