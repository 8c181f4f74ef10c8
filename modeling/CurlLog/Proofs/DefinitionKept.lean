import CurlLog.Annotation
import CurlLog.Proofs.Places
import CurlLog.Proofs.SingleCommand
import CurlLog.Proofs.Text.Replacement

/-!
# The definition of the logging function stays

A script is annotated only if it defines the logging function. What is annotated still defines it,
so an annotation can be followed by others, and by single passes, as often as one likes
(`Step.exists_runAll_of_annotate`).

The definition can stand anywhere, in what an edit moves or takes out of a request too. The point is
that each edit cuts the text at a line end, at a quote or at a dollar sign, and that a word without
these characters is not cut (`Text.keeps_around`). The one text that a pass takes out is a body, and
that is put into the line before (`Text.infix_replaceAll`).
-/

namespace CurlLog

/-! ## Words that an edit keeps -/

namespace Text

/-- The word stays in every text in which `v` is put in the place of `u`. -/
def Keeps (w u v : Text) : Prop :=
  ∀ x z, w <:+: x ++ (u ++ z) → w <:+: x ++ (v ++ z)

section

variable {w : Text}

theorem Keeps.refl (u : Text) : Keeps w u u :=
  fun _ _ h => h

theorem Keeps.append {u v u' v' : Text} (h : Keeps w u v) (h' : Keeps w u' v') :
    Keeps w (u ++ u') (v ++ v') := by
  intro x z hword
  have hfirst : w <:+: x ++ (v ++ (u' ++ z)) := h x (u' ++ z) (by simpa using hword)
  have hsecond : w <:+: (x ++ v) ++ (v' ++ z) := h' (x ++ v) z (by simpa using hfirst)
  simpa using hsecond

/-- At a character that the word does not have, anything can be put in. -/
theorem keeps_around {d : Char} (hd : d ∉ w) (i j : Text) : Keeps w [d] (i ++ d :: j) := by
  intro x z hword
  rw [List.singleton_append, infix_append_cons hd] at hword
  rcases hword with h | h
  · exact h.trans (List.prefix_append _ _).isInfix
  · exact h.trans ⟨x ++ (i ++ d :: j), [], by simp⟩

/-- Between two characters that the word does not have, only the word has to be kept. -/
theorem keeps_between {d e : Char} (hd : d ∉ w) (he : e ∉ w) {u v : Text}
    (h : w <:+: u → w <:+: v) : Keeps w (d :: (u ++ [e])) (d :: v) := by
  intro x z hword
  have hsplit : x ++ (d :: (u ++ [e]) ++ z) = x ++ d :: (u ++ e :: z) := by simp
  rw [hsplit, infix_append_cons hd, infix_append_cons he] at hword
  rw [List.cons_append, infix_append_cons hd]
  rcases hword with hx | hu | hz
  · exact Or.inl hx
  · exact Or.inr ((h hu).trans (List.prefix_append _ _).isInfix)
  · exact Or.inr (hz.trans (List.suffix_append _ _).isInfix)

end

end Text

open Text (Keeps)

/-! ## One place -/

/-- The word has none of the characters at which a pass cuts. -/
structure Uncut (w : Text) : Prop where
  newline : '\n' ∉ w
  quote : '\'' ∉ w
  dollar : '$' ∉ w

/-- A header ends with its line. -/
theorem TestCase.exists_concat_of_header {gap : Char → Bool} {header : Text}
    (h : Piece.Spells (TestCase.header gap) header) : ∃ lead, header = lead ++ ['\n'] := by
  obtain ⟨i, j, y, z, rfl, _⟩ := TestCase.spells_header.mp h
  exact ⟨i.mark ++ (y ++ '\n' :: (j.title ++ (z ++ ['"']))), by simp⟩

section

variable {w : Text} (hw : Uncut w)
include hw

/-- Behind a header any lines can be put in. -/
theorem TestCase.keeps_header {gap : Char → Bool} {header : Text}
    (h : Piece.Spells (TestCase.header gap) header) (inserted : Text) :
    Keeps w header (header ++ inserted) := by
  obtain ⟨lead, rfl⟩ := TestCase.exists_concat_of_header h
  have hline : Keeps w ['\n'] ('\n' :: inserted) := Text.keeps_around hw.newline [] inserted
  simpa using (Keeps.refl lead).append hline

/-- A word of a request with a body stays in it, or is moved with the body. -/
theorem Site.keeps_bodyRequest (names : Names) {header : Text}
    (h : Piece.Spells (TestCase.header fun _ => true) header) (c : BodyRequest.Call) :
    Keeps w (bodyRequest (c.request header)).original
      ((bodyRequest (c.request header)).edited names) := by
  obtain ⟨lead, hlead⟩ := TestCase.exists_concat_of_header h
  let opened := c.toLead.text ++ (c.gap ++ (BodyRequest.bodyOpening ++ c.body))
  let insertion := (bodyRequest (c.request header)).inserted names
  let emission := (bodyRequest (c.request header)).emitted names
  have hcall : c.text = opened ++ ['\''] := by
    simp [opened, BodyRequest.Call.text, BodyRequest.Call.tail]
  have hbody : c.body <:+: insertion := by
    let logLine := Shell.command names.helper [c.method, c.url.text, '$' :: names.bodyVar]
    exact ⟨names.bodyVar ++ ['=', '\''], '\'' :: '\n' :: logLine,
      by simp [insertion, inserted, logLine, BodyRequest.Call.request, Shell.assignment,
        Shell.singleQuoted]⟩
  have hmoved : w <:+: opened → w <:+: insertion ++ emission := by
    intro hopened
    have hword : w <:+: c.text := hcall ▸ hopened.trans (List.prefix_append _ _).isInfix
    rcases Text.infix_replaceAll hw.quote (Shell.variableWord names.bodyVar) hword with hin | hin
    · exact (hin.trans hbody).trans (List.prefix_append _ _).isInfix
    · exact hin.trans (List.suffix_append insertion emission).isInfix
  have hkeeps := (Keeps.refl lead).append (Text.keeps_between hw.newline hw.quote hmoved)
  have horiginal : (bodyRequest (c.request header)).original =
      lead ++ '\n' :: (opened ++ ['\'']) := by
    show header ++ c.text = _
    rw [hcall, hlead, List.append_assoc, List.singleton_append]
  have hedited : (bodyRequest (c.request header)).edited names =
      lead ++ '\n' :: (insertion ++ emission) := by
    show header ++ (insertion ++ emission) = _
    rw [hlead, List.append_assoc, List.singleton_append]
  rw [horiginal, hedited]
  exact hkeeps

/-- No edit takes a word away that has no line end, no single quote and no dollar sign. -/
theorem Site.keeps_edited (names : Names) {s : Site} (hread : s.Read) :
    Keeps w s.original (s.edited names) := by
  cases s with
  | bodyRequest r =>
    obtain ⟨hheader, c, hr⟩ := hread
    rw [hr]
    exact keeps_bodyRequest hw names hheader c
  | bodilessRequest r =>
    have hheader := TestCase.keeps_header hw hread.1
      (Shell.command names.helper ["GET".toList, r.url])
    simpa [original, edited, front, back, inserted, emitted] using hheader.append (.refl r.call)
  | successMessage caseId =>
    obtain ⟨closing, hclosing⟩ : ∃ closing, Shell.greenClosing = '$' :: closing :=
      ⟨"\x7bNC\x7d\"".toList, by decide⟩
    have hstatus : Keeps w ['$'] (SuccessMessage.status ++ ['$']) :=
      Text.keeps_around hw.dollar SuccessMessage.status []
    have hmessage := (Keeps.refl (front (successMessage caseId))).append
      (hstatus.append (.refl closing))
    simpa [original, edited, back, inserted, emitted, hclosing] using hmessage
  | responseLabel lead printing =>
    obtain ⟨i, b, b', _, _, rfl, rfl⟩ := hread
    have hline : Keeps w ['\n'] ('\n' :: ResponseLabel.labelLine names) :=
      Text.keeps_around hw.newline [] (ResponseLabel.labelLine names)
    have hcounted : Keeps w (ResponseLabel.lead i b)
        (ResponseLabel.lead i b ++ ResponseLabel.labelLine names) := by
      simpa [ResponseLabel.lead] using (Keeps.refl (SuccessMessage.message i
        SuccessMessage.statusClosing ++ '\n' :: (b ++ ResponseLabel.counting))).append hline
    have hlead := hcounted.append (.refl (ResponseLabel.printing b'))
    simpa [original, edited, front, back, inserted, emitted] using hlead

end

/-! ## All places -/

/-- What every edit keeps, the text keeps. -/
theorem Places.keeps_text {w : Text} {f g : Site → Text} {p : Places}
    (h : ∀ e ∈ p.found, Keeps w (f e.2) (g e.2)) : Keeps w (p.text f) (p.text g) := by
  obtain ⟨found, rest⟩ := p
  induction found with
  | nil => exact .refl rest
  | cons e found ih =>
    obtain ⟨gap, s⟩ := e
    have hsite : Keeps w (f s) (g s) := h (gap, s) (by simp)
    have hfound : Keeps w (text f ⟨found, rest⟩) (text g ⟨found, rest⟩) :=
      ih fun e he => h e (by simp [he])
    rw [text_cons, text_cons]
    exact (Keeps.refl gap).append (hsite.append hfound)

/-- A pass takes no word away that it does not cut. -/
theorem Pass.infix_run {w : Text} (hw : Uncut w) (names : Names) (pass : Pass) {t : Text}
    (h : w <:+: t) : w <:+: (pass.run names t).text := by
  have hedits := edits names pass t
  have hkeeps : Keeps w ((pass.places t).text Site.original)
      ((pass.places t).text (Site.edited names)) :=
    Places.keeps_text fun e he => Site.keeps_edited hw names (hedits.sites e he).2
  rw [hedits.original] at hkeeps
  rw [hedits.edited]
  simpa using hkeeps [] [] (by simpa using h)

/-! ## Chains of annotations and passes -/

/-- A step of a chain: a complete annotation, or a pass alone. -/
inductive Step where
  | complete (names : Names)
  | pass (names : Names) (which : Pass)

namespace Step

/-- Makes the step. -/
def run (t : Text) : Step → Except Failure Text
  | complete names => (annotate names t).map Annotated.text
  | pass names which => .ok (which.run names t).text

/-- A complete annotation calls the given function, and a pass may call any. -/
def Calls (helper : Text) : Step → Prop
  | complete names => names.helper = helper
  | pass _ _ => True

/-- Makes the steps in their order. -/
def runAll (steps : List Step) (t : Text) : Except Failure Text :=
  steps.foldlM run t

end Step

/-- The definition begins with the name and goes on with characters at which no pass cuts. -/
theorem Uncut.helperDefinition {names : Names} (h : Uncut names.helper) :
    Uncut names.helperDefinition := by
  have hparens : Uncut "()".toList := ⟨by decide, by decide, by decide⟩
  constructor <;> rw [Names.helperDefinition, List.mem_append, not_or]
  · exact ⟨h.newline, hparens.newline⟩
  · exact ⟨h.quote, hparens.quote⟩
  · exact ⟨h.dollar, hparens.dollar⟩

section

variable {names : Names} (huncut : Uncut names.helper)
include huncut

/-- A pass leaves the definition in the text, whatever names it inserts itself. -/
theorem Pass.definedIn_run (names' : Names) (pass : Pass) {t : Text}
    (h : names.definedIn t = true) : names.definedIn (pass.run names' t).text = true := by
  rw [Names.definedIn, Text.occurs_iff_infix] at *
  exact infix_run huncut.helperDefinition names' pass h

theorem definedIn_runPasses (names' : Names) {t : Text} (h : names.definedIn t = true) :
    names.definedIn (runPasses names' t).text = true := by
  have hbodies := Pass.definedIn_run huncut names' .bodyRequests h
  have hgets := Pass.definedIn_run huncut names' .bodilessRequests hbodies
  have hmessages := Pass.definedIn_run huncut names' .successMessages hgets
  exact Pass.definedIn_run huncut names' .responseLabels hmessages

/-- A step does not fail, and leaves the definition in the text. -/
theorem Step.exists_run {s : Step} (hs : s.Calls names.helper) {t : Text}
    (h : names.definedIn t = true) : ∃ r, s.run t = .ok r ∧ names.definedIn r = true := by
  cases s with
  | complete names' =>
    have hdefined : names'.definedIn t = true := by
      rw [Names.definedIn, Names.helperDefinition, show names'.helper = names.helper from hs]
      exact h
    have hok : annotate names' t = .ok (runPasses names' t) :=
      annotate_eq_ok_iff.mpr ⟨hdefined, rfl⟩
    refine ⟨(runPasses names' t).text, ?_, definedIn_runPasses huncut names' h⟩
    rw [run, hok]
    rfl
  | pass names' which => exact ⟨_, rfl, Pass.definedIn_run huncut names' which h⟩

/-- A chain of steps does not fail, and leaves the definition in the text. -/
theorem Step.exists_runAll {steps : List Step} (hsteps : ∀ s ∈ steps, s.Calls names.helper)
    {t : Text} (h : names.definedIn t = true) :
    ∃ r, runAll steps t = .ok r ∧ names.definedIn r = true := by
  induction steps generalizing t with
  | nil => exact ⟨t, rfl, h⟩
  | cons s steps ih =>
    obtain ⟨t', hrun, h'⟩ := exists_run huncut (hsteps s (by simp)) h
    obtain ⟨r, hrest, hr⟩ := ih (fun s hs => hsteps s (by simp [hs])) h'
    refine ⟨r, ?_, hr⟩
    rw [runAll, List.foldlM_cons, hrun]
    exact hrest

end

/--
An annotated script still defines the logging function, and so does all that a chain of annotations
with this function and of single passes makes of it. None of them fails.
-/
theorem Step.exists_runAll_of_annotate {names : Names} (huncut : Uncut names.helper) {t : Text}
    {a : Annotated} (h : annotate names t = .ok a) :
    names.definedIn a.text = true ∧
      ∀ steps : List Step, (∀ s ∈ steps, s.Calls names.helper) →
        ∃ r, Step.runAll steps a.text = .ok r ∧ names.definedIn r = true := by
  obtain ⟨hdefined, rfl⟩ := annotate_eq_ok_iff.mp h
  have hkept := definedIn_runPasses huncut names hdefined
  exact ⟨hkept, fun steps hsteps => Step.exists_runAll huncut hsteps hkept⟩

/-- A request with the definition in its body. -/
def definingCall : BodyRequest.Call :=
  { BodyRequest.plainCall with
    body := "f()".toList
    body_ne_nil := by decide
    quote_notMem_body := by decide }

/-- A script that defines the function nowhere else. -/
def definingScript : Text :=
  BodyRequest.plainHeader ++ (definingCall.text ++ [')', '\n'])

/-- The definition is moved with the body, and a later annotation still finds it. -/
theorem Step.runAll_definingScript : ∃ a r,
    annotate ⟨['f'], ['v'], ['l']⟩ definingScript = .ok a ∧ a.report.bodyRequests = 1 ∧
      Step.runAll [.pass {} .bodyRequests, .complete ⟨['f'], ['w'], []⟩] a.text = .ok r ∧
        Names.definedIn ⟨['f'], ['v'], ['l']⟩ r = true := by
  let names : Names := ⟨['f'], ['v'], ['l']⟩
  have huncut : Uncut names.helper := ⟨by decide, by decide, by decide⟩
  have hdefined : names.definedIn definingScript = true := by decide +kernel
  have h : annotate names definingScript = .ok (runPasses names definingScript) :=
    annotate_eq_ok_iff.mpr ⟨hdefined, rfl⟩
  have hcount : (runPasses names definingScript).report.bodyRequests = 1 := by decide +kernel
  obtain ⟨_, hchain⟩ := Step.exists_runAll_of_annotate huncut h
  let steps : List Step := [.pass {} .bodyRequests, .complete ⟨['f'], ['w'], []⟩]
  have hcalls : ∀ s ∈ steps, s.Calls names.helper := by
    intro s hs
    simp only [steps, List.mem_cons, List.not_mem_nil, or_false] at hs
    rcases hs with rfl | rfl
    · trivial
    · rfl
  obtain ⟨r, hrun, hr⟩ := hchain steps hcalls
  exact ⟨_, r, h, hcount, hrun, hr⟩

end CurlLog
