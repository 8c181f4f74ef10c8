import CurlLog.Proofs.SingleCommand
import CurlLog.Proofs.Text.Replacement
import CurlLog.Proofs.VariableWord

/-!
# Reports do not depend on the names

The names are written into the text before three more passes go over it, and a name may be a word
that these passes look for, such as `RESPONSE_BODY`. Still the report is the same with any other
names (`report_annotate_eq`).

The texts that the first pass leaves with two choices of names are taken from one to the other in
small steps, each of which the later passes do not count: the first word of an assignment, a line
that logs a request (`report_barrier`), or one variable in a request (`report_variableWord`). The
last step needs that no request has the beginning of the command that prints a response body before
its body; this is so because a closing parenthesis comes only in its address, which is one word
(`not_awaits_call`).
-/

namespace CurlLog

open Pattern
open ResponseLabel (Awaits)

variable {names names' : Names}

/-! ## Steps -/

/-- The front of a line that no later pass edits can be changed for another one. -/
theorem report_barrier (names : Names) {a m m' : Text} (ha : Text.WholeLines a) (hm : Barrier m)
    (hm' : Barrier m') (z : Text) : (laterPasses names (a ++ (m ++ z))).report =
      (laterPasses names (a ++ (m' ++ z))).report := by
  rw [hm.laterPasses_append names ha, hm'.laterPasses_append names ha]

/-- A variable can be changed for another one. -/
theorem report_variableWord (hhelper : Shell.IsIdentifier names.helper) {a v v' : Text}
    (ha : ¬ Awaits a) (hv : Shell.IsIdentifier v) (hv' : Shell.IsIdentifier v') (z : Text) :
    (laterPasses names (a ++ (Shell.variableWord v ++ z))).report =
      (laterPasses names (a ++ (Shell.variableWord v' ++ z))).report := by
  have hgets : (BodilessRequest.pattern.cut (a ++ (Shell.variableWord v ++ z))).count =
      (BodilessRequest.pattern.cut (a ++ (Shell.variableWord v' ++ z))).count := by
    obtain ⟨n, hn⟩ := BodilessRequest.exists_count_variableWord names a z
    exact (count_edit_eq_iff _).mp ((hn v hv).trans (hn v' hv').symm)
  have hmessages : (SuccessMessage.pattern.cut (a ++ (Shell.variableWord v ++ z))).count =
      (SuccessMessage.pattern.cut (a ++ (Shell.variableWord v' ++ z))).count := by
    have h := congrArg Edited.count (SuccessMessage.annotate_variableWord hv a z)
    have h' := congrArg Edited.count (SuccessMessage.annotate_variableWord hv' a z)
    exact (count_edit_eq_iff SuccessMessage.withStatus).mp (h.trans h'.symm)
  obtain ⟨a', hawaits, htext⟩ := SuccessMessage.exists_text_variableWord a z
  have ha' : ¬ Awaits a' := mt hawaits ha
  have hlabels (y : Text) : (ResponseLabel.pattern.cut (a' ++ (Shell.variableWord v ++ y))).count =
      (ResponseLabel.pattern.cut (a' ++ (Shell.variableWord v' ++ y))).count := by
    have h := congrArg Edited.count (ResponseLabel.annotate_variableWord names hv ha' y)
    have h' := congrArg Edited.count (ResponseLabel.annotate_variableWord names hv' ha' y)
    exact (count_edit_eq_iff (ResponseLabel.annotated names)).mp (h.trans h'.symm)
  rw [report_laterPasses hhelper, report_laterPasses hhelper, htext v hv, htext v' hv', hgets,
    hmessages, hlabels]

namespace BodyRequest

/-! ## Requests -/

/-- What stands before the quotes of the body is in the front or in the options of the request. -/
theorem Call.prefix_front (c : Call) {p q : Text} (h : c.text = p ++ '\'' :: q) (hq : '\'' ∈ q) :
    p <+: c.front ++ options := by
  have heq : (c.front ++ options) ++ '\'' :: (c.body ++ '\'' :: []) = p ++ '\'' :: q := by
    rw [← h, c.text_eq_front, Shell.singleQuoted]
    simp only [List.append_assoc, List.cons_append]
  rcases Text.char_cases heq with ⟨t, ht, _⟩ | ⟨w, rfl, hw⟩
  · exact ⟨'\'' :: t, ht.symm⟩
  · obtain _ | ⟨d, w⟩ := w
    · exact (List.append_nil _).symm ▸ List.prefix_rfl
    · obtain ⟨rfl, hbody⟩ : '\'' = d ∧ c.body ++ '\'' :: [] = w ++ '\'' :: q := by simpa using hw
      rcases Text.first_cases c.quote_notMem_body hbody.symm with ⟨_, rfl⟩ | ⟨u, _, hu⟩
      · simp at hq
      · simp at hu

/-- The request as far as the blank before the address. -/
def Lead.command (l : Lead) : Text :=
  CurlCall.opening ++ ("-X ".toList ++ (l.method ++ [' ']))

/-- Before the body a parenthesis that closes comes only in the address. -/
theorem Call.paren_front (c : Call) {w t : Text} (h : c.front ++ options = w ++ ')' :: t) :
    ∃ u v, w = c.toLead.command ++ u ∧ c.url.text = u ++ ')' :: v := by
  have hcommand : ')' ∉ c.toLead.command := by
    have hopening : ')' ∉ CurlCall.opening ++ "-X ".toList := by decide
    have hmethod : ∀ m ∈ methods, ')' ∉ m ++ [' '] := by decide
    rw [Lead.command, ← List.append_assoc, List.mem_append, not_or]
    exact ⟨hopening, hmethod _ c.method_mem⟩
  have hbehind : ')' ∉ c.gap ++ '\n' :: options := by
    have hoptions : ')' ∉ '\n' :: options := by decide
    rw [List.mem_append, not_or]
    exact ⟨c.paren_notMem_gap, hoptions⟩
  have heq : (c.toLead.command ++ c.url.text) ++ (c.gap ++ '\n' :: options) = w ++ ')' :: t := by
    rw [← h, Call.front, Lead.text, Lead.command]
    simp
  rcases Text.char_cases heq with ⟨t, ht, _⟩ | ⟨w', _, hw⟩
  · rcases Text.char_cases ht with ⟨v, hv, _⟩ | ⟨u, rfl, hu⟩
    · exact absurd (hv ▸ by simp) hcommand
    · exact ⟨u, t, rfl, hu⟩
  · exact absurd (hw ▸ by simp) hbehind

/-- No address goes on behind white space like the count as far as its last parenthesis. -/
theorem Call.openCounting_ne (c : Call) {x y u v : Text} {d : Char} (hd : isBlank d = true)
    (hurl : c.url.text = u ++ ')' :: v) :
    y ++ d :: ResponseLabel.openCounting ≠ x ++ (c.toLead.command ++ u) := by
  intro h
  rw [← List.append_assoc] at h
  rcases Text.char_cases h.symm with ⟨t, ht, hword⟩ | ⟨w, rfl, hu⟩
  · rcases List.eq_nil_or_concat t with rfl | ⟨t, e, rfl⟩
    · -- the count does not begin like an address
      have hbegin : ResponseLabel.openCounting ++ ')' :: v =
          CurlCall.urlOpening ++ (c.url.service ++ '/' :: c.url.path) := by
        rw [hword, ← CurlCall.Url.text, hurl]
        rfl
      exact absurd (List.head_eq_of_cons_eq hbegin) (by decide)
    · have hblank : ' ' ∉ ResponseLabel.openCounting := by decide
      have hend : (x ++ (CurlCall.opening ++ ("-X ".toList ++ c.method))) ++ [' '] =
          (y ++ d :: t) ++ [e] := by
        simpa [Lead.command] using ht
      obtain rfl : ' ' = e := by simpa using (List.append_inj' hend rfl).2
      exact hblank (hword ▸ by simp)
  · exact absurd hd (by simp [c.url.isBlank_of_mem d (by rw [hurl, hu]; simp)])

/-- In a request no text waits for the response body in front of the quotes of the body. -/
theorem not_awaits_call (c : Call) {p q : Text} (h : c.text = p ++ '\'' :: q) (hq : '\'' ∈ q)
    (x : Text) : ¬ Awaits (x ++ p) := by
  rintro ⟨d, b, hd, hb, y, hy⟩
  let more : Text := '\n' :: (b ++ "echo ".toList)
  have hlast : x ++ p = (y ++ d :: ResponseLabel.openCounting) ++ ')' :: more := by
    rw [← hy, ResponseLabel.counting_eq]
    simp [more]
  have hp : CurlCall.opening <+: p := by
    have hopening : '\'' ∉ CurlCall.opening := by decide
    rw [← Text.prefix_append_cons hopening, ← h]
    exact (List.prefix_append _ _).trans (List.prefix_append _ _)
  -- the last parenthesis of the count is in the request, and so in its address
  obtain ⟨w, hw, rfl⟩ :
      ∃ w, y ++ d :: ResponseLabel.openCounting = x ++ w ∧ p = w ++ ')' :: more := by
    rcases Text.char_cases hlast with ⟨t, _, ht⟩ | hcases
    · have hparen : '(' ∈ more := ht ▸ List.mem_append_right t (hp.subset (by decide))
      have hblank : isBlank '(' = false := by decide
      simp only [more, List.mem_cons, List.mem_append] at hparen
      rcases hparen with hparen | hparen | hparen
      · exact absurd hparen (by decide)
      · simp [hb _ hparen] at hblank
      · exact absurd hparen (by decide)
    · exact hcases
  obtain ⟨z, hz⟩ := c.prefix_front h hq
  rw [List.append_assoc, List.cons_append] at hz
  obtain ⟨u, v, rfl, hurl⟩ := c.paren_front hz.symm
  exact c.openCounting_ne hd hurl hw

/-- The variables in a request can be changed one by one. -/
theorem report_replaceAll (hhelper : Shell.IsIdentifier names.helper) {v v' : Text}
    (hv : Shell.IsIdentifier v) (hv' : Shell.IsIdentifier v') (c : Call) (z s : Text) :
    ∀ x p, c.text = p ++ s → (∀ q, Awaits (x ++ q) → ∃ y, Awaits (y ++ (p ++ q))) →
      (laterPasses names (x ++
        (Text.replaceAll (Shell.singleQuoted c.body) (Shell.variableWord v) s ++ z))).report =
      (laterPasses names (x ++
        (Text.replaceAll (Shell.singleQuoted c.body) (Shell.variableWord v') s ++ z))).report := by
  have hword : Shell.singleQuoted c.body ≠ [] := List.cons_ne_nil _ _
  induction s using Text.replaceAll_induction hword with
  | absent s h =>
    intro x p _ _
    rw [Text.replaceAll_of_not_mem h, Text.replaceAll_of_not_mem h]
  | first a b h ih =>
    intro x p hc hx
    have hawaits : ¬ Awaits (x ++ a) := by
      intro hxa
      obtain ⟨y, hy⟩ := hx a hxa
      refine not_awaits_call c (p := p ++ a) (q := c.body ++ '\'' :: b) ?_ (by simp) y hy
      simp [hc, Shell.singleQuoted]
    have hrest := ih (x ++ (a ++ Shell.variableWord v')) (p ++ (a ++ Shell.singleQuoted c.body))
      (by simp [hc]) fun q hq => ⟨[], ?_⟩
    · have hfirst := report_variableWord hhelper hawaits hv hv'
        (Text.replaceAll (Shell.singleQuoted c.body) (Shell.variableWord v) b ++ z)
      simp only [List.append_assoc] at hfirst hrest
      rw [Text.replaceAll_first hword h, Text.replaceAll_first hword h]
      simp only [List.append_assoc]
      exact hfirst.trans hrest
    · -- what waits behind the variable waits behind the body, too
      have hq : Awaits ((x ++ (a ++ '"' :: '$' :: v')) ++ '"' :: q) := by
        simpa [Shell.variableWord, Shell.doubleQuoted] using hq
      exact hq.behind_quote.append_left _

/-- A request is rewritten with other names. -/
theorem report_rewritten (hhelper : Shell.IsIdentifier names.helper)
    (hvar : Shell.IsIdentifier names.bodyVar) (hhelper' : Shell.IsIdentifier names'.helper)
    (hvar' : Shell.IsIdentifier names'.bodyVar) {a : Text} (ha : Text.WholeLines a) (c : Call)
    (z : Text) : (laterPasses names (a ++ ((c.request []).rewritten names ++ z))).report =
      (laterPasses names (a ++ ((c.request []).rewritten names' ++ z))).report := by
  have hsplit (n : Names) : (c.request []).assignment n =
      (n.bodyVar ++ ['=', '\'']) ++ (c.body ++ ['\'', '\n']) := by
    simp [assignment, Shell.assignment, Shell.singleQuoted, Call.request]
  have hwhole : Text.WholeLines (a ++ (c.request []).assignment names') :=
    ha.append (Text.wholeLines_append_newline _)
  have hassignment := report_barrier names ha (barrier_assignment hvar)
    (barrier_assignment hvar')
    (c.body ++ ['\'', '\n'] ++ ((c.request []).logLine names ++
      ((c.request []).callWithVariable names ++ z)))
  have hlogLine := report_barrier names hwhole (c.barrier_logLine hhelper hvar)
    (c.barrier_logLine hhelper' hvar') ((c.request []).callWithVariable names ++ z)
  have hcall := report_replaceAll hhelper hvar hvar' c z c.text
    (a ++ ((c.request []).assignment names' ++ (c.request []).logLine names')) [] rfl
    fun q hq => ⟨_, hq⟩
  simp only [rewritten, List.append_assoc, hsplit] at hassignment hlogLine hcall ⊢
  exact hassignment.trans (hlogLine.trans hcall)

/-- The texts that the pass leaves with other names have the same report. -/
theorem report_annotate (hhelper : Shell.IsIdentifier names.helper)
    (hvar : Shell.IsIdentifier names.bodyVar) (hhelper' : Shell.IsIdentifier names'.helper)
    (hvar' : Shell.IsIdentifier names'.bodyVar) (t : Text) :
    ∀ x, (laterPasses names (x ++ (annotate names t).text)).report =
      (laterPasses names (x ++ (annotate names' t).text)).report := by
  induction t using forwardScan.induct with
  | case1 t hnone =>
    intro x
    rw [annotate_of_nextCall_eq_none hnone, annotate_of_nextCall_eq_none hnone]
  | case2 t a m rest hnext _ ih =>
    intro x
    obtain ⟨_, harmed, hmatch⟩ := nextCall_sound hnext
    obtain ⟨c, rfl, _⟩ := match?_call_sound hmatch
    have hcall := report_rewritten hhelper hvar hhelper' hvar' (harmed.append x).wholeLines c
      (annotate names rest).text
    have hrest := ih (x ++ (a ++ (c.request []).rewritten names'))
    rw [annotate_of_nextCall names hnext, annotate_of_nextCall names' hnext]
    simp only [Edited.text_append, List.append_assoc] at hcall hrest ⊢
    exact hcall.trans hrest

end BodyRequest

/-- A script has the same report with any names that are identifiers. -/
theorem report_annotate_eq (hhelper : Shell.IsIdentifier names.helper)
    (hvar : Shell.IsIdentifier names.bodyVar) (hhelper' : Shell.IsIdentifier names'.helper)
    (hvar' : Shell.IsIdentifier names'.bodyVar) {t : Text} (hdefined : names.definedIn t = true)
    (hdefined' : names'.definedIn t = true) :
    ∃ a a', annotate names t = .ok a ∧ annotate names' t = .ok a' ∧ a.report = a'.report := by
  refine ⟨_, _, annotate_eq_ok_iff.mpr ⟨hdefined, rfl⟩, annotate_eq_ok_iff.mpr ⟨hdefined', rfl⟩, ?_⟩
  have hcount : (BodyRequest.annotate names t).count = (BodyRequest.annotate names' t).count :=
    (count_edit _ _ t).trans (count_edit _ _ t).symm
  have hlater := BodyRequest.report_annotate hhelper hvar hhelper' hvar' t []
  have hsame : (laterPasses names (BodyRequest.annotate names' t).text).report =
      (laterPasses names' (BodyRequest.annotate names' t).text).report := by
    rw [report_laterPasses hhelper, report_laterPasses hhelper']
  rw [runPasses_eq_laterPasses, runPasses_eq_laterPasses, hcount]
  simp only [List.nil_append] at hlater
  rw [hlater, hsame]

/-- Names that are words of what the passes look for. -/
def patternNames : Names :=
  { helper := "echo".toList, bodyVar := "RESPONSE_BODY".toList }

/-- A script that defines both logging functions. -/
def twoHelpersScript : Text :=
  "print_request()\necho()\n".toList ++ BodyRequest.plainScript

theorem report_twoHelpersScript : ∃ a a', annotate {} twoHelpersScript = .ok a ∧
    annotate patternNames twoHelpersScript = .ok a' ∧ a.report = a'.report ∧
      a.report.bodyRequests = 1 := by
  have hcount : (BodyRequest.annotate {} twoHelpersScript).count = 1 := by
    rw [BodyRequest.annotate, count_edit, ← scan_eq_cut]
    decide +kernel
  obtain ⟨a, a', ha, ha', hreport⟩ := @report_annotate_eq {} patternNames (by decide) (by decide)
    (by decide) (by decide) twoHelpersScript (by decide) (by decide)
  refine ⟨a, a', ha, ha', hreport, ?_⟩
  have hbodies (names : Names) (t : Text) :
      (runPasses names t).report.bodyRequests = (BodyRequest.annotate names t).count := rfl
  rw [(annotate_eq_ok_iff.mp ha).2, hbodies, hcount]

end CurlLog
