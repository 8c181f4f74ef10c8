import CurlLog.Annotation
import CurlLog.Proofs.Places
import CurlLog.Proofs.Rewriting
import CurlLog.Proofs.SingleCommand

/-!
# The number of lines

An annotation puts whole lines into a script: two for a request with a body, one for a request
without, and one for a label. A status code is added to a line that is there (`Pass.newLines`). So
the line ends of an annotated script can be counted from its report (`count_newline_annotate`).

The lines of a body move with it, from the request to the line that sets the variable. What the one
loses the other gains only if the body stands in the request once. With no other word of the request
in single quotes this is so.
-/

namespace CurlLog

open Pattern

/-- No name has a line end. -/
structure Names.OnOneLine (names : Names) : Prop where
  helper : '\n' ∉ names.helper
  bodyVar : '\n' ∉ names.bodyVar
  responseLabel : '\n' ∉ names.responseLabel

/-- The lines that a pass adds at each place that it edits. -/
def Pass.newLines : Pass → Nat
  | bodyRequests => 2
  | bodilessRequests => 1
  | successMessages => 0
  | responseLabels => 1

/-! ## Inserted lines -/

namespace Shell

theorem count_newline_singleQuoted (value : Text) :
    (singleQuoted value).count '\n' = value.count '\n' := by
  simp [singleQuoted]

theorem count_newline_variableWord {name : Text} (hname : '\n' ∉ name) :
    (variableWord name).count '\n' = 0 := by
  have hname : name.count '\n' = 0 := List.count_eq_zero.mpr hname
  simp [variableWord, doubleQuoted, hname]

theorem count_newline_assignment {name : Text} (hname : '\n' ∉ name) (value : Text) :
    (assignment name value).count '\n' = value.count '\n' + 1 := by
  have hname : name.count '\n' = 0 := List.count_eq_zero.mpr hname
  simp [assignment, count_newline_singleQuoted, hname]

theorem count_newline_command {name : Text} {words : List Text} (hname : '\n' ∉ name)
    (hwords : ∀ w ∈ words, '\n' ∉ w) : (command name words).count '\n' = 1 := by
  have hcall : (call name words).count '\n' = 0 :=
    List.count_eq_zero.mpr (notMem_call hname hwords (by decide) (by decide))
  rw [command_eq, List.count_append, hcall]
  rfl

end Shell

theorem ResponseLabel.count_newline_labelLine {names : Names} (h : '\n' ∉ names.responseLabel) :
    (labelLine names).count '\n' = 1 := by
  have hlabel : names.responseLabel.count '\n' = 0 := List.count_eq_zero.mpr h
  have hopening : ("    ".toList ++ Shell.greenOpening).count '\n' = 0 := by decide
  have hclosing : (Shell.greenClosing ++ ['\n']).count '\n' = 1 := by decide
  simp only [List.count_append] at hopening hclosing
  simp only [labelLine, Shell.green, List.count_append]
  omega

/-! ## One place -/

namespace Site

variable {names : Names} (hnames : names.OnOneLine)
include hnames

/-- The lines of a body move to the line before the request, and two lines end in addition. -/
theorem count_newline_bodyRequest (c : BodyRequest.Call) (header : Text)
    (hquotes : c.text.count '\'' = 2) :
    ((bodyRequest (c.request header)).inserted names).count '\n' +
        ((bodyRequest (c.request header)).emitted names).count '\n' =
      c.text.count '\n' + 2 := by
  have hassignment : (Shell.assignment names.bodyVar c.body).count '\n' = c.body.count '\n' + 1 :=
    Shell.count_newline_assignment hnames.bodyVar c.body
  have hcommand : (Shell.command names.helper
      [c.method, c.url.text, '$' :: names.bodyVar]).count '\n' = 1 := by
    refine Shell.count_newline_command hnames.helper ?_
    intro w hw
    simp only [List.mem_cons, List.not_mem_nil, or_false] at hw
    rcases hw with rfl | rfl | rfl
    · exact BodyRequest.newline_notMem_of_mem_methods c.method_mem
    · exact c.url.notMem_of_isBlank (by decide)
    · simp [hnames.bodyVar]
  have hinserted : ((bodyRequest (c.request header)).inserted names).count '\n' =
      c.body.count '\n' + 2 := by
    show (Shell.assignment names.bodyVar c.body ++ Shell.command names.helper
      [c.method, c.url.text, '$' :: names.bodyVar]).count '\n' = _
    rw [List.count_append, hassignment, hcommand]
  have hemitted : (bodyRequest (c.request header)).emitted names =
      c.front ++ (BodyRequest.options ++ Shell.variableWord names.bodyVar) :=
    BodyRequest.Call.callWithVariable_request hquotes header
  rw [hinserted, hemitted, c.text_eq_front]
  simp only [List.count_append, Shell.count_newline_variableWord hnames.bodyVar,
    Shell.count_newline_singleQuoted]
  omega

/-- Each place gets the new lines of its pass. -/
theorem count_newline_edited {s : Site} (hread : s.Read)
    (hquotes : ∀ r, s = bodyRequest r → r.call.count '\'' = 2) :
    (s.edited names).count '\n' = s.original.count '\n' + s.pass.newLines := by
  have hback : (s.inserted names).count '\n' + (s.emitted names).count '\n' =
      s.back.count '\n' + s.pass.newLines := by
    cases s with
    | bodyRequest r =>
      obtain ⟨_, c, hr⟩ := hread
      have hcall : c.text.count '\'' = 2 := by
        have h := hquotes r rfl
        rw [hr] at h
        exact h
      rw [hr]
      exact count_newline_bodyRequest hnames c r.header hcall
    | bodilessRequest r =>
      obtain ⟨_, c, hr⟩ := hread
      have hline : (Shell.command names.helper ["GET".toList, r.url]).count '\n' = 1 := by
        refine Shell.count_newline_command hnames.helper ?_
        intro w hw
        simp only [List.mem_cons, List.not_mem_nil, or_false] at hw
        rcases hw with rfl | rfl
        · decide
        · rw [hr]
          exact c.url.notMem_of_isBlank (by decide)
      show (Shell.command names.helper ["GET".toList, r.url]).count '\n' + r.call.count '\n' =
        r.call.count '\n' + 1
      omega
    | successMessage caseId =>
      have hstatus : SuccessMessage.status.count '\n' = 0 := by decide
      show SuccessMessage.status.count '\n' + Shell.greenClosing.count '\n' =
        Shell.greenClosing.count '\n' + 0
      omega
    | responseLabel lead printing =>
      have hline : (ResponseLabel.labelLine names).count '\n' = 1 :=
        ResponseLabel.count_newline_labelLine hnames.responseLabel
      show (ResponseLabel.labelLine names).count '\n' + printing.count '\n' =
        printing.count '\n' + 1
      omega
  simp only [edited, original, List.count_append]
  omega

end Site

/-! ## All places -/

/-- A count that grows alike at each place grows by that much for each place. -/
theorem Places.count_text {d : Char} {k : Nat} {f g : Site → Text} {p : Places}
    (h : ∀ e ∈ p.found, (g e.2).count d = (f e.2).count d + k) :
    (p.text g).count d = (p.text f).count d + k * p.found.length := by
  obtain ⟨found, rest⟩ := p
  induction found with
  | nil => rfl
  | cons e found ih =>
    obtain ⟨gap, s⟩ := e
    have hsite : (g s).count d = (f s).count d + k := h (gap, s) (by simp)
    have hfound : (text g ⟨found, rest⟩).count d =
        (text f ⟨found, rest⟩).count d + k * found.length :=
      ih fun e he => h e (by simp [he])
    simp only [text_cons, List.count_append, List.length_cons, Nat.mul_succ]
    omega

/-- A pass adds its new lines as often as its count says. -/
theorem Pass.count_newline_run {names : Names} (hnames : names.OnOneLine) (pass : Pass) (t : Text)
    (hquotes : pass = bodyRequests → ∀ m ∈ (BodyRequest.pattern.cut t).taken,
      (BodyRequest.ofMatch m).call.count '\'' = 2) :
    (pass.run names t).text.count '\n' =
      t.count '\n' + pass.newLines * (pass.run names t).count := by
  have hedits := edits names pass t
  have hsites : ∀ e ∈ (pass.places t).found,
      (e.2.edited names).count '\n' = e.2.original.count '\n' + pass.newLines := by
    intro e he
    obtain ⟨hpass, hread⟩ := hedits.sites e he
    rw [← hpass]
    refine Site.count_newline_edited hnames hread ?_
    intro r hr
    obtain rfl : bodyRequests = pass := by
      rw [← hpass, hr]
      rfl
    obtain ⟨m, hm, hsite⟩ := Places.mem_found_ofCut he
    obtain rfl : BodyRequest.ofMatch m = r := Site.bodyRequest.inj (hsite.symm.trans hr)
    exact hquotes rfl m hm
  calc (pass.run names t).text.count '\n'
      = ((pass.places t).text (Site.edited names)).count '\n' := by rw [hedits.edited]
    _ = ((pass.places t).text Site.original).count '\n' +
          pass.newLines * (pass.places t).found.length := Places.count_text hsites
    _ = t.count '\n' + pass.newLines * (pass.run names t).count := by
      rw [hedits.original, hedits.edited]

/-! ## The whole annotation -/

/-- The line ends of an annotated script, if no request has another word in single quotes. -/
theorem count_newline_annotate {names : Names} (hnames : names.OnOneLine) {t : Text}
    (hquotes : ∀ m ∈ (BodyRequest.pattern.cut t).taken,
      (BodyRequest.ofMatch m).call.count '\'' = 2) {a : Annotated} (h : annotate names t = .ok a) :
    a.text.count '\n' = t.count '\n' +
      (2 * a.report.bodyRequests + a.report.bodilessRequests + a.report.responseLabels) := by
  obtain ⟨_, rfl⟩ := annotate_eq_ok_iff.mp h
  let bodies := Pass.bodyRequests.run names t
  let gets := Pass.bodilessRequests.run names bodies.text
  let messages := Pass.successMessages.run names gets.text
  let labels := Pass.responseLabels.run names messages.text
  have hruns : runPasses names t =
      ⟨labels.text, bodies.count, gets.count, messages.count, labels.count⟩ := rfl
  have hbodies : bodies.text.count '\n' = t.count '\n' + 2 * bodies.count :=
    Pass.count_newline_run hnames .bodyRequests t fun _ => hquotes
  have hgets : gets.text.count '\n' = bodies.text.count '\n' + 1 * gets.count :=
    Pass.count_newline_run hnames .bodilessRequests bodies.text nofun
  have hmessages : messages.text.count '\n' = gets.text.count '\n' + 0 * messages.count :=
    Pass.count_newline_run hnames .successMessages gets.text nofun
  have hlabels : labels.text.count '\n' = messages.text.count '\n' + 1 * labels.count :=
    Pass.count_newline_run hnames .responseLabels messages.text nofun
  rw [hruns]
  dsimp only
  omega

/-- A request with a body of three lines. -/
def multilineCall : BodyRequest.Call :=
  { BodyRequest.plainCall with
    body := "\n1\n".toList
    body_ne_nil := by decide
    quote_notMem_body := by decide }

/-- This request, one without a body, and an answer that is printed after an empty line. -/
def multilineScript : Text :=
  "f()\n".toList ++ BodyRequest.plainHeader ++ multilineCall.text ++ ")\n".toList ++
    BodyRequest.plainHeader ++ CurlCall.opening ++ "$BASE_URL_A/w)\n".toList ++
    SuccessMessage.opening ++ "TC-A-1".toList ++ SuccessMessage.plainClosing ++
    "\n PASSED=$((PASSED+1))\n\n echo \"$RESPONSE_BODY\" | jq\n".toList

theorem count_newline_multilineScript :
    ∃ a, annotate ⟨['f'], ['v'], ['l']⟩ multilineScript = .ok a ∧ a.report = ⟨1, 1, 1, 1⟩ ∧
      multilineScript.count '\n' = 15 ∧ a.text.count '\n' = 15 + 4 := by
  let names : Names := ⟨['f'], ['v'], ['l']⟩
  have hnames : names.OnOneLine := ⟨by decide, by decide, by decide⟩
  have hread : (BodyRequest.pattern.cut multilineScript).taken.map
      (fun m => (BodyRequest.ofMatch m).call.count '\'') = [2] := by
    rw [← scan_eq_cut]
    decide +kernel
  have hquotes : ∀ m ∈ (BodyRequest.pattern.cut multilineScript).taken,
      (BodyRequest.ofMatch m).call.count '\'' = 2 := by
    intro m hm
    have hmem : (BodyRequest.ofMatch m).call.count '\'' ∈ [2] :=
      hread ▸ List.mem_map.mpr ⟨m, hm, rfl⟩
    exact List.mem_singleton.mp hmem
  have hdefined : names.definedIn multilineScript = true := by decide +kernel
  have h : annotate names multilineScript = .ok (runPasses names multilineScript) :=
    annotate_eq_ok_iff.mpr ⟨hdefined, rfl⟩
  have hreport : (runPasses names multilineScript).report = ⟨1, 1, 1, 1⟩ := by decide +kernel
  have hcount : multilineScript.count '\n' = 15 := by decide +kernel
  have htext := count_newline_annotate hnames hquotes h
  rw [hreport, hcount] at htext
  exact ⟨_, h, hreport, hcount, htext⟩

end CurlLog
