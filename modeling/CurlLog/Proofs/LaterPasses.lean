import CurlLog.Annotation
import CurlLog.Proofs.Independence

/-!
# The passes behind the first one

The first pass moves bodies and logs requests; the other three work on what it leaves. Each of the
three starts again at a line that it leaves alone on every text (`Barrier`), and the lines that the
first pass inserts are of this kind (`barrier_assignment`, `barrier_command`). So what the three
make of a text with such a line is what they make of the two sides (`Barrier.laterPasses_append`).

The lines that the second pass adds bring nothing for the other two, so the three counts can be read
off the text before the second pass (`report_laterPasses`). The names do not come into them.
-/

namespace CurlLog

open Pattern

/-- A text after the passes behind the one over requests with a body. -/
def laterPasses (names : Names) (s : Text) : Annotated :=
  let gets := Pass.bodilessRequests.run names s
  let messages := Pass.successMessages.run names gets.text
  let labels := Pass.responseLabels.run names messages.text
  ⟨labels.text, 0, gets.count, messages.count, labels.count⟩

theorem runPasses_eq_laterPasses (names : Names) (s : Text) : runPasses names s =
    { text := (laterPasses names (BodyRequest.annotate names s).text).text
      report := { (laterPasses names (BodyRequest.annotate names s).text).report with
        bodyRequests := (BodyRequest.annotate names s).count } } := rfl

/-- The counts of the later passes, read off the text before them. -/
theorem report_laterPasses {names : Names} (hhelper : Shell.IsIdentifier names.helper) (s : Text) :
    (laterPasses names s).report =
      { bodyRequests := 0
        bodilessRequests := (BodilessRequest.pattern.cut s).count
        successMessages := (SuccessMessage.pattern.cut s).count
        responseLabels := (ResponseLabel.pattern.cut (SuccessMessage.annotate s).text).count } := by
  have hlogs (s : Text) := BodilessRequest.logs_annotate names s
  obtain ⟨htext, _⟩ := BodilessRequest.commute_successMessage hhelper s
  have hgets : (BodilessRequest.annotate names s).count = (BodilessRequest.pattern.cut s).count :=
    count_edit _ _ s
  have hmessages : (SuccessMessage.annotate (BodilessRequest.annotate names s).text).count =
      (SuccessMessage.pattern.cut s).count :=
    ((hlogs s).count_successMessage hhelper).trans (count_edit _ _ s)
  have hlabels : (ResponseLabel.annotate names
      (SuccessMessage.annotate (BodilessRequest.annotate names s).text).text).count =
        (ResponseLabel.pattern.cut (SuccessMessage.annotate s).text).count := by
    rw [htext]
    exact (count_edit _ _ _).trans ((hlogs _).count_responseLabel hhelper)
  simp only [laterPasses, Pass.run, hgets, hmessages, hlabels]

/-! ## Lines at which the passes start again -/

/-- The front of a line that no later pass edits, and behind which each of them starts again. -/
structure Barrier (m : Text) : Prop where
  /-- It begins with neither a title nor a request. -/
  not_opens : ∀ z, ¬ BodilessRequest.OpensCase (m ++ z) ∧ ¬ BodilessRequest.OpensCall (m ++ z)
  /-- It is not a line between a message and the command that prints the response body. -/
  head : ∃ d t, m = d :: t ∧ isBlank d = false
  not_counting : ∀ z z', m ++ z ≠ ResponseLabel.counting ++ '\n' :: z'
  not_printing : ∀ z z', m ++ z ≠ ResponseLabel.bodyCommand ++ z'
  /-- It has no mark of a test case and no command that prints in colour. -/
  no_mark : ¬ TestCase.markOpening <:+: m
  no_echo : ¬ Shell.echoOption <:+: m
  /-- It ends with a character that marks and such commands do not have. -/
  last : ∃ t d, m = t ++ [d] ∧ d ∉ TestCase.markOpening ∧ d ∉ Shell.echoOption

/-- In front of a text at which no line can end a whole line ends at a seam. -/
theorem Pattern.seam_of_wholeLines {α : Type} {p : Pattern α} {a b : Text} (ha : Text.WholeLines a)
    (h : ∀ x, p.Seam (x ++ ['\n']) b) : p.Seam a b := by
  rcases ha with rfl | ⟨x, rfl⟩
  · intro x u v y hx _ hu
    exact absurd (List.append_eq_nil_iff.mp hx.symm).2 hu
  · exact h x

/-- The passes that only add text leave a text of whole lines as one. -/
theorem wholeLines_annotate_bodiless (names : Names) {a : Text} (ha : Text.WholeLines a) :
    Text.WholeLines (BodilessRequest.annotate names a).text := by
  rcases ha with rfl | ⟨x, rfl⟩
  · exact Or.inl (congrArg Edited.text (BodilessRequest.annotate_of_notMem List.not_mem_nil))
  · exact Or.inr ((BodilessRequest.logs_annotate names _).last_line (x := x) (l := []) (by simp))

theorem wholeLines_annotate_status {a : Text} (ha : Text.WholeLines a) :
    Text.WholeLines (SuccessMessage.annotate a).text := by
  rcases ha with rfl | ⟨x, rfl⟩
  · refine Or.inl (text_edit_of_count_eq_zero ?_)
    rw [count_edit, cut_nil]
    rfl
  · have hend := SuccessMessage.suffix_iff_of_steps (SuccessMessage.steps_annotate (x ++ ['\n'])).1
      (e := ['\n']) (by decide)
    obtain ⟨y, hy⟩ := hend.mpr (List.suffix_append _ _)
    exact Or.inr ⟨y, hy.symm⟩

namespace Barrier

variable {m : Text} (hm : Barrier m)
include hm

/-- At its front a text can be taken apart, if none of the texts of the pattern goes on with it. -/
theorem edit_append {α : Type} {p : Pattern α} {w : Text} (h : p.BeginsWith w) (hp : ¬ p.Takes [])
    (f : Match α → Text) (hw : ¬ w <:+: m)
    (hlast : ∀ d, d ∉ TestCase.markOpening → d ∉ Shell.echoOption → d ∉ w) {a z : Text}
    (hseam : p.Seam a (m ++ z)) :
    p.edit f (a ++ (m ++ z)) = p.edit f a ++ (⟨m, 0⟩ ++ p.edit f z) := by
  obtain ⟨t, d, rfl, hmark, hecho⟩ := hm.last
  rw [Pattern.edit_append hp f hseam, List.append_assoc t,
    List.singleton_append, h.edit_append hp f (hlast d hmark hecho) hw z]

theorem bodiless_append (names : Names) {a : Text} (ha : Text.WholeLines a) (z : Text) :
    BodilessRequest.annotate names (a ++ (m ++ z)) =
      BodilessRequest.annotate names a ++ (⟨m, 0⟩ ++ BodilessRequest.annotate names z) := by
  obtain ⟨hcase, hcall⟩ := hm.not_opens z
  exact hm.edit_append BodilessRequest.beginsWith_markOpening BodilessRequest.not_takes_nil _
    hm.no_mark (fun _ hmark _ => hmark) (BodilessRequest.seam_wholeLines ha hcase hcall)

theorem status_append {a : Text} (ha : Text.WholeLines a) (z : Text) :
    SuccessMessage.annotate (a ++ (m ++ z)) =
      SuccessMessage.annotate a ++ (⟨m, 0⟩ ++ SuccessMessage.annotate z) := by
  have hseam := seam_of_wholeLines ha fun x => SuccessMessage.seam_newline x (m ++ z)
  exact hm.edit_append SuccessMessage.beginsWith_echoOption SuccessMessage.not_takes_nil _
    hm.no_echo (fun _ _ hecho => hecho) hseam

theorem label_append (names : Names) {a : Text} (ha : Text.WholeLines a) (z : Text) :
    ResponseLabel.annotate names (a ++ (m ++ z)) =
      ResponseLabel.annotate names a ++ (⟨m, 0⟩ ++ ResponseLabel.annotate names z) := by
  obtain ⟨d, t, hcons, hblank⟩ := hm.head
  have hhead : ∀ e ∈ (m ++ z).head?, isBlank e = false := by
    intro e he
    rw [hcons] at he
    obtain rfl : d = e := Option.some.inj he
    exact hblank
  have hseam := seam_of_wholeLines ha fun x =>
    ResponseLabel.seam_line (x := x) hhead (hm.not_counting z) (hm.not_printing z)
  exact hm.edit_append ResponseLabel.beginsWith_echoOption ResponseLabel.not_takes_nil _ hm.no_echo
    (fun _ _ hecho => hecho) hseam

/-- The later passes go over the two sides of the line, and leave the line as it is. -/
theorem laterPasses_append (names : Names) {a : Text} (ha : Text.WholeLines a) (z : Text) :
    laterPasses names (a ++ (m ++ z)) =
      { text := (laterPasses names a).text ++ (m ++ (laterPasses names z).text)
        report := .ofCounts fun pass =>
          (laterPasses names a).report.count pass + (laterPasses names z).report.count pass } := by
  have hgets := wholeLines_annotate_bodiless names ha
  have hmessages := wholeLines_annotate_status hgets
  simp only [laterPasses, Pass.run, hm.bodiless_append names ha, hm.status_append hgets,
    hm.label_append names hmessages, Edited.text_append, Edited.count_append, Report.ofCounts,
    Report.count, Nat.zero_add]

end Barrier

/-! ## The lines that the first pass inserts -/

/-- A line that calls a function does not print a title. -/
theorem command_ne_title {name w : Text} (words : List Text) (hname : ' ' ∉ name)
    (hw : w.head? ≠ some '>') (i : TestCase.Id) (y z : Text) :
    Shell.command name (w :: words) ++ z ≠ i.title ++ y := by
  intro h
  obtain ⟨t, ht⟩ := i.title_cons
  have hecho : ' ' ∉ ['e', 'c', 'h', 'o'] := by decide
  have hline : ['e', 'c', 'h', 'o'] ++ ' ' :: ('"' :: '>' :: (t ++ y)) =
      name ++ ' ' :: ('"' :: (w ++ '"' :: (Shell.command [] words ++ z))) := by
    rw [ht] at h
    simpa [Shell.command, Shell.doubleQuoted] using h.symm
  obtain ⟨_, htail⟩ := Text.first_unique hname hecho hline
  have htail := List.tail_eq_of_cons_eq htail
  obtain _ | ⟨e, w⟩ := w
  · exact absurd (List.head_eq_of_cons_eq htail) (by decide)
  · obtain rfl : '>' = e := List.head_eq_of_cons_eq htail
    exact hw rfl

/-- The front of a line that sets a variable. -/
theorem barrier_assignment {name : Text} (hname : Shell.IsIdentifier name) :
    Barrier (name ++ ['=', '\'']) where
  not_opens z := by
    have h := BodilessRequest.not_opens_assignment (hname.notMem (by decide)) z
    simpa using h
  head := by
    obtain ⟨d, t, rfl, hblank, _⟩ := hname.exists_cons
    exact ⟨d, t ++ ['=', '\''], rfl, hblank⟩
  not_counting z z' h := by
    have hcounting : ResponseLabel.counting = "PASSED".toList ++ '=' :: "$((PASSED+1))".toList := by
      decide
    have hword : '=' ∉ "PASSED".toList := by decide
    rw [hcounting, List.append_assoc, List.append_assoc] at h
    obtain ⟨_, h⟩ := Text.first_unique hword (hname.notMem (by decide)) h
    exact absurd (List.head_eq_of_cons_eq h) (by decide)
  not_printing z z' h := by
    have hcommand : ResponseLabel.bodyCommand =
        "echo".toList ++ ' ' :: "\"$RESPONSE_BODY\" | jq".toList := by decide
    have hword : '=' ∉ "echo".toList := by decide
    rw [hcommand, List.append_assoc, List.append_assoc] at h
    have hmem : ' ' ∈ name := Text.mem_of_append_cons hword (by decide) h.symm
    exact hname.notMem (by decide) hmem
  no_mark h := by
    have hmem : '#' ∈ name ++ ['=', '\''] := h.subset (by decide)
    simp [hname.notMem (c := '#') (by decide)] at hmem
  no_echo h := by
    have hmem : ' ' ∈ name ++ ['=', '\''] := h.subset (by decide)
    simp [hname.notMem (c := ' ') (by decide)] at hmem
  last := ⟨name ++ ['='], '\'', by simp, by decide, by decide⟩

/-- A line that calls a function, if its first word is neither a title nor a variable. -/
theorem barrier_command {name : Text} (hname : Shell.IsIdentifier name) {d : Char} {w : Text}
    {words : List Text} (hd : d ≠ '>' ∧ d ≠ '$') (hwords : ∀ v ∈ (d :: w) :: words, ' ' ∉ v) :
    Barrier (Shell.command name ((d :: w) :: words)) where
  not_opens z := by
    have hblank : ' ' ∉ name := hname.notMem (by decide)
    constructor
    · rintro ⟨_, c, r, h, _, i, y, rfl⟩
      rw [List.append_assoc] at h
      exact command_ne_title words hblank (by simpa using hd.1) i _ z h
    · rintro ⟨c, r, h⟩
      obtain ⟨u, hu⟩ : ∃ u, CurlCall.opening = "RESPONSE=$(curl".toList ++ ' ' :: u :=
        ⟨"-s -w \"\\n%\x7bhttp_code\x7d\" ".toList, by decide⟩
      have hcurl : ' ' ∉ "RESPONSE=$(curl".toList := by decide
      rw [Shell.command_cons, BodilessRequest.Call.text, hu] at h
      simp only [List.append_assoc, List.cons_append] at h
      obtain ⟨rfl, _⟩ := Text.first_unique hcurl hblank h
      exact hname.notMem (c := '=') (by decide) (by decide)
  head := by
    obtain ⟨e, t, rfl, hblank, _⟩ := hname.exists_cons
    exact ⟨e, _, rfl, hblank⟩
  not_counting z z' h := by
    have hcounting : ' ' ∉ ResponseLabel.counting := by decide
    rw [Shell.command_cons] at h
    simp only [List.append_assoc, List.cons_append] at h
    exact hcounting (Text.mem_of_append_cons (hname.notMem (by decide)) (by decide) h)
  not_printing z z' h := by
    have hcommand : ResponseLabel.bodyCommand =
        "echo".toList ++ ' ' :: '"' :: '$' :: "RESPONSE_BODY\" | jq".toList := by decide
    have hecho : ' ' ∉ "echo".toList := by decide
    rw [Shell.command_cons, hcommand] at h
    simp only [List.append_assoc, List.cons_append] at h
    obtain ⟨_, h⟩ := Text.first_unique hecho (hname.notMem (by decide)) h
    exact hd.2 (List.head_eq_of_cons_eq (List.tail_eq_of_cons_eq h))
  no_mark h := by
    have hname : ' ' ∉ name := hname.notMem (by decide)
    have hblank : [' ', 'T'] <:+: TestCase.markOpening := ⟨['#'], "C-".toList, by decide⟩
    exact Shell.blank_not_infix_command hname hwords (by decide) (hblank.trans h)
  no_echo h := by
    have hname : ' ' ∉ name := hname.notMem (by decide)
    have hblank : [' ', '-'] <:+: Shell.echoOption := ⟨"echo".toList, ['e'], by decide⟩
    exact Shell.blank_not_infix_command hname hwords (by decide) (hblank.trans h)
  last := ⟨_, '\n', Shell.command_eq _ _, by decide, by decide⟩

/-- The line that logs a request with a body. -/
theorem BodyRequest.Call.barrier_logLine {names : Names} (hhelper : Shell.IsIdentifier names.helper)
    (hvar : Shell.IsIdentifier names.bodyVar) (c : BodyRequest.Call) :
    Barrier ((c.request []).logLine names) := by
  obtain ⟨d, w, hmethod, hd⟩ : ∃ d w, c.method = d :: w ∧ d ≠ '>' ∧ d ≠ '$' := by
    have : ∀ m ∈ BodyRequest.methods, ∃ d w, m = d :: w ∧ d ≠ '>' ∧ d ≠ '$' := by
      simp [BodyRequest.methods]
    exact this _ c.method_mem
  have hline : (c.request []).logLine names =
      Shell.command names.helper [d :: w, c.url.text, '$' :: names.bodyVar] := by
    rw [← hmethod]
    rfl
  rw [hline]
  refine barrier_command hhelper hd fun u hu => ?_
  simp only [List.mem_cons, List.not_mem_nil, or_false] at hu
  rcases hu with rfl | rfl | rfl
  · exact hmethod ▸ BodyRequest.blank_notMem_of_mem_methods c.method_mem
  · exact c.url.notMem_of_isBlank (by decide)
  · simp [hvar.notMem (c := ' ') (by decide)]

/-- The line that the second pass inserts is of this kind, too. -/
theorem barrier_logLine {names : Names} (hhelper : Shell.IsIdentifier names.helper)
    (c : BodilessRequest.Call) : Barrier (c.logLine names) := by
  have hmethod : ' ' ∉ "GET".toList := by decide
  have hurl : ' ' ∉ c.url.text := c.url.notMem_of_isBlank (by decide)
  refine barrier_command hhelper (d := 'G') (w := ['E', 'T']) (by decide) fun v hv => ?_
  simp only [List.mem_cons, List.not_mem_nil, or_false] at hv
  rcases hv with rfl | rfl
  · exact hmethod
  · exact hurl

end CurlLog
