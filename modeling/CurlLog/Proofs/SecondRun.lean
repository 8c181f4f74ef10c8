import CurlLog.Proofs.EmptyReport
import CurlLog.Proofs.MarksApart

/-!
# A second run

On a text that has been annotated the later passes find nothing to do
(`Pass.run_eq_self_of_annotate`). Each of them finds nothing in what it has made itself, whatever
the text was, and what the passes after it add brings nothing for it.

* Under a logged request stands the line that logs it, so the header does not belong to a request
  any more (`BodilessRequest.find?_annotate_eq_none`). A request could only be left over behind an
  address that ends in the middle of a mark, and marks stand behind white space.
* A label has not the word that each message has, so no message begins or ends in the line that
  prints it (`ResponseLabel.find?_annotate_eq_none`, `ResponseLabel.find?_successMessage`).
-/

namespace CurlLog

open Pattern TestCase

variable {names : Names}

/-! ## Requests without a body -/

namespace BodilessRequest

theorem not_opensCase_logLine (hhelper : Shell.IsIdentifier names.helper) {k : Text} (hk : '\n' ∉ k)
    (c : Call) (z : Text) : ¬ OpensCase (k ++ '\n' :: (c.logLine names ++ z)) := by
  rintro ⟨k', c', r, heq, hk', _⟩
  obtain ⟨_, hcall⟩ := Text.first_unique hk' hk heq
  exact ((barrier_logLine hhelper c).not_opens z).2 ⟨c', r, hcall⟩

theorem not_opensCase_call (c : Call) (z : Text) : ¬ OpensCase (c.text ++ z) := by
  rintro ⟨_, c', r, heq, _, i, y, rfl⟩
  exact not_title_prefix_call i c z ⟨y ++ ['"'] ++ '\n' :: (c'.text ++ r), by simp [heq]⟩

/-- A case that is open with a new line was open without it. -/
theorem LogStep.opensCase (hhelper : Shell.IsIdentifier names.helper) {s t : Text}
    (h : LogStep names s t) (ht : OpensCase t) : OpensCase s := by
  obtain ⟨a, c, r⟩ := h
  obtain ⟨k, c', r', heq, hk, htitle⟩ := ht
  rcases Text.first_cases hk heq with ⟨_, hcall⟩ | ⟨w, rfl, hw⟩
  · exact absurd ⟨c', r', hcall⟩ ((barrier_logLine hhelper c).not_opens _).2
  · rcases Text.char_cases hw with ⟨t, ht, _⟩ | ⟨w', rfl, rfl⟩
    · exact absurd (ht ▸ by simp) c'.newline_notMem_text
    · exact ⟨k, c', w' ++ '\n' :: (c.text ++ r), by simp, hk, htitle⟩

theorem Logs.opensCase (hhelper : Shell.IsIdentifier names.helper) {s t : Text}
    (h : Logs names s t) (ht : OpensCase t) : OpensCase s := by
  induction h with
  | refl => exact ht
  | tail _ hstep ih => exact ih (hstep.opensCase hhelper ht)

/-- A number sign stands in the address, which has no white space, and not at the front of it. -/
theorem Call.before_numberSign (c : Call) {x u : Text} (h : c.text = x ++ '#' :: u) :
    (∃ y d, x = y ++ [d] ∧ isBlank d = false) ∧ ∀ d ∈ u, isBlank d = false := by
  obtain ⟨w, rfl, hurl⟩ :
      ∃ w, x = (CurlCall.opening ++ c.option) ++ w ∧ c.url.text = w ++ '#' :: u := by
    rw [Call.text, ← List.append_assoc] at h
    rcases Text.char_cases h with ⟨t, ht, _⟩ | hcases
    · have hfront : ∀ o ∈ ["-X GET ".toList, []], '#' ∉ CurlCall.opening ++ o := by decide
      exact absurd (ht ▸ by simp) (hfront _ c.option_mem)
    · exact hcases
  have hblank {d : Char} (hd : d ∈ w ++ '#' :: u) : isBlank d = false :=
    c.url.isBlank_of_mem d (hurl ▸ hd)
  refine ⟨?_, fun d hd => hblank (by simp [hd])⟩
  rcases List.eq_nil_or_concat w with rfl | ⟨w, d, rfl⟩
  · exact absurd (List.head_eq_of_cons_eq hurl) (by decide)
  · exact ⟨CurlCall.opening ++ c.option ++ w, d, by simp, hblank (by simp)⟩

/-- No mark begins at the end of an address if marks stand behind white space. -/
theorem seam_call (c : Call) {r b : Text} (hlogs : Logs names r b)
    (h : ¬ MarkJoined (c.text ++ r)) : pattern.Seam c.text b := by
  intro x u v y hx hb hu _ ht
  obtain ⟨z, hz⟩ := beginsWith_markOpening _ ht
  obtain ⟨e, u, rfl⟩ := List.exists_cons_of_ne_nil hu
  have hopening : markOpening = '#' :: ' ' :: "TC-".toList := by decide
  rw [hopening] at hz
  obtain ⟨rfl, hend⟩ : '#' = e ∧ ' ' :: ("TC-".toList ++ z) = u ++ v := by
    simpa only [List.cons_append, List.cons.injEq] using hz
  obtain ⟨⟨x, d, rfl, hd⟩, hblank⟩ := c.before_numberSign hx
  -- the rest of the mark begins with a blank, so it stands behind the request
  obtain rfl : u = [] := by
    obtain _ | ⟨e, u⟩ := u
    · rfl
    · obtain rfl : ' ' = e := List.head_eq_of_cons_eq hend
      exact absurd (hblank ' ' (by simp)) (by decide)
  have hnewline : '\n' ∉ ' ' :: "TC-".toList := by decide
  have hbehind : b = (' ' :: "TC-".toList) ++ (z ++ y) := by
    rw [hb, ← List.nil_append v, ← hend]
    simp
  obtain ⟨r, rfl, _⟩ := Logs.eq_append_left hnewline (hbehind ▸ hlogs)
  refine h ⟨d, hd, x, r, ?_⟩
  rw [hx, hopening]
  simp

/-- A logged request has the new line under its header, and nothing goes on behind the request. -/
theorem find?_logged (hhelper : Shell.IsIdentifier names.helper) {l k r b : Text} (hl : '\n' ∉ l)
    (hk : '\n' ∉ k) (c : Call) (hlogs : Logs names r b) (hcall : ¬ MarkJoined (c.text ++ r))
    (hb : pattern.find? b = none) :
    pattern.find? (l ++ '\n' :: (k ++ '\n' :: (c.logLine names ++ (c.text ++ b)))) = none := by
  obtain ⟨line, hline, hnewline⟩ := logLine_newline hhelper c
  have hheader : pattern.Seam (l ++ ['\n']) (k ++ '\n' :: (c.logLine names ++ (c.text ++ b))) :=
    seam_line hl fun _ => not_opensCase_logLine hhelper hk c _
  have htitle : pattern.Seam (k ++ ['\n']) (c.logLine names ++ (c.text ++ b)) :=
    seam_line hk fun _ => ((barrier_logLine hhelper c).not_opens _).1
  have hlog : pattern.Seam (c.logLine names) (c.text ++ b) := by
    rw [hline]
    exact seam_line hnewline fun _ => not_opensCase_call c _
  rw [List.append_cons l, find?_append_eq_none_iff hheader, List.append_cons k,
    find?_append_eq_none_iff htitle, find?_append_eq_none_iff hlog,
    find?_append_eq_none_iff (seam_call c hlogs hcall)]
  exact ⟨find?_line hl, find?_line hk, hline ▸ find?_line hnewline,
    find?_of_newline_notMem c.newline_notMem_text, hb⟩

/-- Where a request has been logged the pass finds nothing any more. -/
theorem find?_annotate_eq_none (hhelper : Shell.IsIdentifier names.helper) (s : Text)
    (h : ¬ MarkJoined s) : pattern.find? (annotate names s).text = none := by
  by_cases hs : '\n' ∈ s
  · obtain ⟨l, s, rfl, hl⟩ := List.eq_append_cons_of_mem hs
    have hrest : ¬ MarkJoined s := fun hs => h (hs.mono ⟨l ++ ['\n'], [], by simp⟩)
    by_cases hcase : Marked l ∧ OpensCase s
    · obtain ⟨k, c, r, rfl, hk, htitle, hr⟩ := hcase.2.exists_call
      have hcall : ¬ MarkJoined (c.text ++ r) := fun hs =>
        hrest (hs.mono ⟨k ++ ['\n'], [], by simp⟩)
      have ih := find?_annotate_eq_none hhelper r
        fun hr => hcall (hr.mono (List.suffix_append _ _).isInfix)
      have hnone := find?_logged hhelper hl hk c (logs_annotate names r) hcall ih
      rw [annotate_request names c hl hcase.1 hk htitle hr]
      simpa using hnone
    · have hseam : pattern.Seam (l ++ ['\n']) (annotate names s).text :=
        seam_line hl fun hm ho => hcase ⟨hm, (logs_annotate names s).opensCase hhelper ho⟩
      rw [annotate_line hl fun hm ho => hcase ⟨hm, ho⟩, Edited.text_append,
        find?_append_eq_none_iff hseam]
      exact ⟨find?_line hl, find?_annotate_eq_none hhelper s hrest⟩
  · have hnone := find?_of_newline_notMem hs
    rwa [annotate_of_find?_eq_none hnone]
termination_by s.length

end BodilessRequest

/-! ## Response bodies -/

namespace SuccessMessage

theorem q_notMem_of_takes (t : Text) (ht : pattern.Takes t) : 'q' ∉ t := by
  obtain ⟨i, rfl⟩ := takes_pattern.mp ht
  exact notMem_message i (by decide) (by decide) (by decide)

end SuccessMessage

namespace ResponseLabel

open SuccessMessage (message statusClosing)

/-- The line that prints a label has the word that ends each message only if the label has it. -/
theorem passed_not_infix_labelLine
    (hlabel : Text.occurs "PASSED".toList names.responseLabel = false) :
    ¬ "PASSED".toList <:+: labelLine names := by
  have hsplit : labelLine names = "    echo -e \"$\x7bGREEN".toList ++
      '}' :: (names.responseLabel ++ '$' :: "\x7bNC\x7d\"\n".toList) := by
    have hopening : "    ".toList ++ Shell.greenOpening =
        "    echo -e \"$\x7bGREEN".toList ++ ['}'] := by decide
    have hclosing : Shell.greenClosing ++ ['\n'] = '$' :: "\x7bNC\x7d\"\n".toList := by decide
    rw [labelLine, Shell.green, ← hclosing, ← List.append_assoc, ← List.append_assoc, hopening]
    simp
  have hopening : ¬ "PASSED".toList <:+: "    echo -e \"$\x7bGREEN".toList := by
    intro h
    have hmem : 'P' ∈ "    echo -e \"$\x7bGREEN".toList := h.subset (by decide)
    exact absurd hmem (by decide)
  have hclosing : ¬ "PASSED".toList <:+: "\x7bNC\x7d\"\n".toList := by
    intro h
    have hmem : 'P' ∈ "\x7bNC\x7d\"\n".toList := h.subset (by decide)
    exact absurd hmem (by decide)
  have hbrace : '}' ∉ "PASSED".toList := by decide
  have hdollar : '$' ∉ "PASSED".toList := by decide
  rw [hsplit, Text.infix_append_cons hbrace, Text.infix_append_cons hdollar]
  rintro (h | h | h)
  · exact hopening h
  · exact Bool.eq_false_iff.mp hlabel (Text.occurs_iff_infix.mpr h)
  · exact hclosing h

/-- So no message is in that line. -/
theorem message_not_infix_labelLine
    (hlabel : Text.occurs "PASSED".toList names.responseLabel = false) (i : Id) (c : Text) :
    ¬ SuccessMessage.message i (SuccessMessage.passed ++ c) <:+: labelLine names := by
  have hpassed : SuccessMessage.passed = ' ' :: "PASSED".toList := by decide
  intro h
  refine passed_not_infix_labelLine hlabel (List.IsInfix.trans ?_ h)
  exact ⟨SuccessMessage.opening ++ (i.text ++ [' ']), c, by simp [SuccessMessage.message, hpassed]⟩

theorem find?_labelLine_successMessage
    (hlabel : Text.occurs "PASSED".toList names.responseLabel = false) :
    SuccessMessage.pattern.find? (labelLine names) = none := by
  refine find?_eq_none_iff_takes.mpr fun before t rest hs ht => ?_
  obtain ⟨i, rfl⟩ := SuccessMessage.takes_pattern.mp ht
  exact message_not_infix_labelLine hlabel i Shell.greenClosing ⟨before, rest, hs.symm⟩

/-- A label brings no success message. -/
theorem find?_successMessage (hlabel : Text.occurs "PASSED".toList names.responseLabel = false)
    (s : Text) (h : SuccessMessage.pattern.find? s = none) :
    SuccessMessage.pattern.find? (annotate names s).text = none := by
  induction s using printed_induction with
  | absent s hnone => rwa [annotate_of_find?_eq_none hnone]
  | first before i b b' rest hb hb' hbefore ih =>
    -- a message stands on one line and has no `q`
    have hlead (z : Text) : SuccessMessage.pattern.Seam (before ++ lead i b) z := by
      have hseam := SuccessMessage.seam_newline
        (before ++ (message i statusClosing ++ '\n' :: (b ++ counting))) z
      simpa [lead] using hseam
    have hlabelLine (z : Text) : SuccessMessage.pattern.Seam (labelLine names) z :=
      SuccessMessage.seam_newline _ z
    have hprinting (z : Text) : SuccessMessage.pattern.Seam (printing b') z := by
      have hcommand : bodyCommand = "echo \"$RESPONSE_BODY\" | j".toList ++ ['q'] := by decide
      rw [printing, hcommand, ← List.append_assoc]
      exact .of_notMem_left SuccessMessage.q_notMem_of_takes _ z
    rw [← List.append_assoc, find?_append_eq_none_iff (hlead _),
      find?_append_eq_none_iff (hprinting _)] at h
    obtain ⟨hfront, hcommand, hrest⟩ := h
    rw [text_annotate_first names hbefore rest i hb hb', find?_append_eq_none_iff (hlead _),
      find?_append_eq_none_iff (hlabelLine _), find?_append_eq_none_iff (hprinting _)]
    exact ⟨hfront, find?_labelLine_successMessage hlabel, hcommand, ih hrest⟩

/-- Nothing that the pass edits begins in the line. -/
theorem seam_labelLine (hlabel : Text.occurs "PASSED".toList names.responseLabel = false)
    (z : Text) : pattern.Seam (labelLine names) z := by
  intro x u v y hx _ hu _ ht
  obtain ⟨i, b, b', _, _, ht⟩ := takes_pattern.mp ht
  obtain ⟨u, rfl, hxu⟩ := Text.last_cases hx.symm hu
  have hline : u ++ '\n' :: v = message i statusClosing ++
      '\n' :: (b ++ (counting ++ ['\n']) ++ printing b') := by
    simpa [lead] using ht
  -- the message is a whole line of it
  have hfront : message i statusClosing <+: u := by
    rcases Text.first_cases (newline_notMem_message i) hline with ⟨rfl, _⟩ | ⟨w, rfl, _⟩
    · exact List.prefix_rfl
    · exact List.prefix_append _ _
  rw [SuccessMessage.statusClosing_eq] at hfront
  refine message_not_infix_labelLine hlabel i _ (hfront.isInfix.trans ?_)
  exact ⟨x, ['\n'], by rw [hx]; simp⟩

theorem find?_labelLine (hlabel : Text.occurs "PASSED".toList names.responseLabel = false) :
    pattern.find? (labelLine names) = none := by
  refine find?_eq_none_iff_takes.mpr fun before t rest hs ht => ?_
  obtain ⟨i, b, b', _, _, rfl⟩ := takes_pattern.mp ht
  refine message_not_infix_labelLine hlabel i (SuccessMessage.status ++ Shell.greenClosing)
    ⟨before, '\n' :: (b ++ (counting ++ ['\n'])) ++ (printing b' ++ rest), ?_⟩
  rw [hs, lead, SuccessMessage.statusClosing_eq]
  simp

theorem find?_printing {b : Text} (hb : Blank b) : pattern.find? (printing b) = none := by
  have hcheck : '✓' ∉ printing b := by
    have hcommand : '✓' ∉ bodyCommand := by decide
    rw [printing, List.mem_append, not_or]
    exact ⟨hb.notMem (by decide), hcommand⟩
  refine find?_eq_none_iff_takes.mpr fun before t rest hs ht => hcheck ?_
  obtain ⟨i, b, b', _, _, rfl⟩ := takes_pattern.mp ht
  have hopening : '✓' ∈ SuccessMessage.opening := by decide
  rw [hs]
  simp [lead, message, hopening]

/-- What prints the label does not print the response body. -/
theorem not_prints_labelLine (z : Text) : ¬ Prints (labelLine names ++ z) := by
  rintro ⟨b, y, hb, heq⟩
  by_cases hnil : b = []
  · subst hnil
    exact absurd (List.head_eq_of_cons_eq heq) (by decide)
  · have hlabel : printing b ++ y = labelLine names ++ z := by
      rw [heq, printing, List.append_assoc]
    exact Diverges.labelLine_ne_printing ⟨hnil, hb⟩ y z hlabel

/-- A message and its count do not go on in front of a label. -/
theorem seam_lead_labelLine (x : Text) (i : Id) (b z : Text) :
    pattern.Seam (x ++ lead i b) (labelLine names ++ z) := by
  obtain ⟨a, ha⟩ : ∃ a, x ++ lead i b = (a ++ [')']) ++ ['\n'] := by
    refine ⟨x ++ (message i statusClosing ++ '\n' :: (b ++ openCounting)), ?_⟩
    rw [lead, counting_eq]
    simp
  rw [ha]
  refine seam_line_end ?_ ?_ fun _ => not_prints_labelLine z
  · exact fun h => absurd (Text.eq_of_suffix_concat h) (by decide)
  · rintro d hd h
    obtain rfl := Text.eq_of_suffix_concat h
    exact absurd hd (by decide)

/-- Where a label has been put the pass finds nothing any more. -/
theorem find?_annotate_eq_none (hlabel : Text.occurs "PASSED".toList names.responseLabel = false)
    (s : Text) : pattern.find? (annotate names s).text = none := by
  induction s using printed_induction with
  | absent s hnone => rwa [annotate_of_find?_eq_none hnone]
  | first before i b b' rest hb hb' hbefore ih =>
    have hlead : pattern.find? (before ++ lead i b) = none := by
      have hseam : pattern.Seam before (lead i b) := by simpa using seam_lead before [] i b
      exact (find?_append_eq_none_iff hseam).mpr ⟨hbefore, find?_lead i hb⟩
    have hprinting : pattern.Seam (printing b') (annotate names rest).text := seam_printing [] b' _
    rw [text_annotate_first names hbefore rest i hb hb',
      find?_append_eq_none_iff (seam_lead_labelLine before i b _),
      find?_append_eq_none_iff (seam_labelLine hlabel _), find?_append_eq_none_iff hprinting]
    exact ⟨hlead, find?_labelLine hlabel, find?_printing hb', ih⟩

end ResponseLabel

/-! ## The whole text -/

/-- The second pass finds nothing in what the passes leave of a text. -/
theorem find?_bodilessRequest (hhelper : Shell.IsIdentifier names.helper)
    (hlabel : '\n' ∉ names.responseLabel) {s : Text} (h : ¬ MarkJoined s) :
    BodilessRequest.pattern.find? (laterPasses names s).text = none := by
  have hnone := BodilessRequest.find?_annotate_eq_none hhelper s h
  rw [← count_edit_eq_zero_iff BodilessRequest.not_takes_nil
    (f := fun m => (BodilessRequest.ofMatch m).annotated names)] at hnone ⊢
  -- neither messages nor labels change how many requests it finds
  obtain ⟨_, hmessages, _⟩ :=
    BodilessRequest.commute_successMessage hhelper (BodilessRequest.annotate names s).text
  obtain ⟨_, hlabels, _⟩ := BodilessRequest.commute_responseLabel hhelper hlabel
    (SuccessMessage.annotate (BodilessRequest.annotate names s).text).text
  exact hlabels.trans (hmessages.trans hnone)

/-- On a text that has been annotated the later passes find nothing to do. -/
theorem Pass.run_eq_self_of_annotate (hhelper : Shell.IsIdentifier names.helper)
    (hvar : Shell.IsIdentifier names.bodyVar) (hnewline : '\n' ∉ names.responseLabel)
    (hlabel : Text.occurs "PASSED".toList names.responseLabel = false) {t : Text}
    (hmarks : MarksApart t) {a : Annotated} (h : annotate names t = .ok a) (names' : Names)
    {pass : Pass} (hpass : pass ≠ .bodyRequests) : pass.run names' a.text = ⟨a.text, 0⟩ := by
  obtain ⟨_, rfl⟩ := annotate_eq_ok_iff.mp h
  rw [runPasses_eq_laterPasses]
  have hbodies := marksApart_iff.mp (BodyRequest.marksApart_annotate hhelper hvar hmarks)
  cases pass with
  | bodyRequests => exact absurd rfl hpass
  | bodilessRequests =>
    exact edit_of_find?_eq_none _ (find?_bodilessRequest hhelper hnewline hbodies)
  | successMessages =>
    refine edit_of_find?_eq_none _ (ResponseLabel.find?_successMessage hlabel _ ?_)
    exact (SuccessMessage.steps_annotate _).2
  | responseLabels => exact edit_of_find?_eq_none _ (ResponseLabel.find?_annotate_eq_none hlabel _)

/-- A test case without a body. -/
def bodilessScript : Text :=
  "f()\n# TC-A-1:\necho \">>> TC-A-1:\"
RESPONSE=$(curl -s -w \"\\n%\x7bhttp_code\x7d\" $BASE_URL_A/w)\n".toList

/-- The request is logged in the first run, and not again in a second one. -/
theorem run_bodilessScript : ∃ a, annotate shortNames bodilessScript = .ok a ∧
    a.report = ⟨0, 1, 0, 0⟩ ∧
      ∀ pass, pass ≠ Pass.bodyRequests → pass.run shortNames a.text = ⟨a.text, 0⟩ := by
  have h : annotate shortNames bodilessScript = .ok (runPasses shortNames bodilessScript) :=
    annotate_eq_ok_iff.mpr ⟨by decide +kernel, rfl⟩
  have hmarks : MarksApart bodilessScript := by decide +kernel
  have hreport : (runPasses shortNames bodilessScript).report = ⟨0, 1, 0, 0⟩ := by decide +kernel
  exact ⟨_, h, hreport, fun pass hpass => Pass.run_eq_self_of_annotate (by decide) (by decide)
    (by decide) (by decide) hmarks h shortNames hpass⟩

end CurlLog
