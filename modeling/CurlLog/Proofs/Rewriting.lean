import CurlLog.Proofs.Placement
import CurlLog.Proofs.Text.Replacement

/-!
# What takes the place of a request with a body

The pass over requests with a body puts two lines before the request, and the variable in the place
of the body. The pass over requests without a body does the same to the text with these changes as
to the text without them (`annotate_call`, `annotate_rewritten`), if the body has no mark of a test
case.
-/

namespace CurlLog

open Pattern

namespace BodyRequest

variable {names : Names}

/-! ## The request and its body -/

/-- The options between the end of the gap and the quote before the body. -/
def options : Text :=
  "-H \"Content-Type: application/json\" \\\n-d ".toList

theorem bodyOpening_eq_options : bodyOpening = '\n' :: (options ++ ['\'']) := by
  decide

namespace Call

/-- The request as far as the end of the gap. -/
def front (c : Call) : Text :=
  c.toLead.text ++ (c.gap ++ ['\n'])

theorem tail_eq (c : Call) :
    c.tail = (c.gap ++ ['\n']) ++ (options ++ Shell.singleQuoted c.body) := by
  rw [tail, bodyOpening_eq_options, Shell.singleQuoted]
  simp only [List.append_assoc, List.cons_append, List.nil_append]

theorem text_eq_front (c : Call) : c.text = c.front ++ (options ++ Shell.singleQuoted c.body) := by
  rw [text, tail_eq, front]
  simp only [List.append_assoc]

/-- The two lines that are put before the request. -/
def inserted (c : Call) (names : Names) : Text :=
  Shell.assignment names.bodyVar c.body ++
    Shell.command names.helper [c.method, c.url.text, '$' :: names.bodyVar]

end Call

/-- The body has no mark of a test case, and no other word of the request is in single quotes. -/
structure Plain (r : BodyRequest) : Prop where
  mark : Text.occurs TestCase.markOpening r.body = false
  quotes : r.call.count '\'' = 2

instance (r : BodyRequest) : Decidable r.Plain :=
  decidable_of_iff (Text.occurs TestCase.markOpening r.body = false ∧ r.call.count '\'' = 2)
    ⟨fun h => ⟨h.1, h.2⟩, fun h => ⟨h.mark, h.quotes⟩⟩

/-- No mark stands in the body of a plain request. -/
theorem Plain.mark_not_infix {r : BodyRequest} (h : r.Plain) :
    ¬ TestCase.markOpening <:+: r.body := by
  rw [← Text.occurs_iff_infix]
  exact ne_true_of_eq_false h.mark

namespace Call

variable {c : Call}

/-- The two quotes around the body are the only ones if there is none before it. -/
theorem count_quote (c : Call) : c.text.count '\'' = (c.front ++ options).count '\'' + 2 := by
  have hbody : c.body.count '\'' = 0 := List.count_eq_zero.mpr c.quote_notMem_body
  rw [text_eq_front, ← List.append_assoc, List.count_append, Shell.singleQuoted]
  simp [hbody]

theorem quote_notMem_front (h : c.text.count '\'' = 2) : '\'' ∉ c.front ++ options := by
  rw [c.count_quote] at h
  exact List.count_eq_zero.mp (by omega)

/-- The variable takes the place of the body, and nothing else changes. -/
theorem callWithVariable_request (h : c.text.count '\'' = 2) (header : Text) :
    (c.request header).callWithVariable names =
      c.front ++ (options ++ Shell.variableWord names.bodyVar) := by
  have hcall : (c.request header).call = (c.front ++ options) ++ Shell.singleQuoted c.body := by
    rw [List.append_assoc, ← text_eq_front]
    rfl
  rw [callWithVariable, hcall, ← List.append_assoc]
  exact Text.replaceAll_append _ (quote_notMem_front h)

theorem rewritten_request (h : c.text.count '\'' = 2) :
    (c.request []).rewritten names =
      c.inserted names ++ (c.front ++ (options ++ Shell.variableWord names.bodyVar)) := by
  rw [rewritten, callWithVariable_request h]
  rfl

end Call

/-- Whether a match is plain can be read off its request alone. -/
theorem plain_callOf {s : Text} (h : ∀ m ∈ (pattern.cut s).taken, (ofMatch m).Plain) :
    ∀ m ∈ (forwardScan s).taken, (ofMatch m).Plain := by
  intro m hm
  rw [Cut.taken, ← (cut_eq_forwardScan s).1, List.map_map] at hm
  obtain ⟨e, he, rfl⟩ := List.mem_map.mp hm
  have hplain := h e.2 (List.mem_map_of_mem he)
  rw [ofMatch_eq] at hplain
  exact ⟨hplain.mark, hplain.quotes⟩

/-- A round of the scan: the request is rewritten, and the pass goes on behind it. -/
theorem annotate_of_nextCall (names : Names) {s a rest : Text} {c : Call}
    (h : nextCall s = some (a, c.toMatch, rest)) :
    annotate names s = ⟨a ++ (c.request []).rewritten names, 1⟩ ++ annotate names rest := by
  rw [annotate_eq_replace, annotate_eq_replace, forwardScan_of_eq_some h]
  ext1
  · rw [Cut.replace_cons, c.ofMatch_toMatch]
    rfl
  · rw [Edited.count_append, Nat.add_comm]
    rfl

theorem annotate_of_nextCall_eq_none {s : Text} (h : nextCall s = none) :
    annotate names s = ⟨s, 0⟩ := by
  rw [annotate_eq_replace, forwardScan_of_eq_none h]
  rfl

end BodyRequest

namespace BodilessRequest

open BodyRequest (Plain options)

variable {names : Names}

/-! ## The request -/

/-- A text with a single quote at its end and no mark is left alone. -/
theorem annotate_quote {a : Text} (b : Text) (h : ¬ TestCase.markOpening <:+: a) :
    annotate names (a ++ '\'' :: b) = ⟨a ++ ['\''], 0⟩ ++ annotate names b := by
  have hquote : '\'' ∉ TestCase.markOpening := by decide
  refine beginsWith_markOpening.edit_append not_takes_nil _ hquote ?_ b
  rw [Text.infix_append_cons hquote, not_or]
  exact ⟨h, by decide⟩

/-- A request with a body is neither a title nor a request without a body. -/
theorem not_opens_lead (l : BodyRequest.Lead) (y : Text) :
    ¬ OpensCase (l.text ++ y) ∧ ¬ OpensCall (l.text ++ y) := by
  constructor
  · rintro ⟨_, c, r, h, _, i, z, rfl⟩
    obtain ⟨t, ht⟩ := i.title_cons
    obtain ⟨u, hu⟩ := l.text_cons
    rw [ht, hu] at h
    exact absurd (List.head_eq_of_cons_eq h) (by decide)
  · rintro ⟨c, r, h⟩
    exact lead_append_ne_call l y c r h

/-- Neither is a line that sets a variable. -/
theorem not_opens_assignment {v : Text} (hv : ' ' ∉ v) (z : Text) :
    ¬ OpensCase (v ++ '=' :: '\'' :: z) ∧ ¬ OpensCall (v ++ '=' :: '\'' :: z) := by
  constructor
  · rintro ⟨_, c, r, h, _, i, y, rfl⟩
    obtain ⟨t, ht⟩ := i.title_cons
    have hword : ['e', 'c', 'h', 'o'] ++ ' ' ::
        ('"' :: '>' :: (t ++ (y ++ ['"']) ++ '\n' :: (c.text ++ r))) = v ++ '=' :: ('\'' :: z) := by
      rw [h, ht]
      rfl
    exact hv (Text.mem_of_append_cons (by decide) (by decide) hword)
  · rintro ⟨c, r, h⟩
    obtain ⟨w, hw⟩ : ∃ w, CurlCall.opening =
        "RESPONSE".toList ++ '=' :: (['$', '(', 'c', 'u', 'r', 'l'] ++ ' ' :: w) :=
      ⟨"-s -w \"\\n%\x7bhttp_code\x7d\" ".toList, by decide⟩
    have hresponse : '=' ∉ "RESPONSE".toList := by decide
    rw [Call.text, hw, List.append_assoc, List.append_assoc, List.cons_append,
      List.append_assoc] at h
    rcases Text.first_cases hresponse h with ⟨_, htail⟩ | ⟨v', rfl, htail⟩
    · exact absurd (List.head_eq_of_cons_eq htail) (by decide)
    · exact hv (by simp [Text.mem_of_append_cons (by decide) (by decide) htail])

theorem wholeLines_front (c : BodyRequest.Call) : Text.WholeLines c.front := by
  rw [BodyRequest.Call.front, ← List.append_assoc]
  exact Text.wholeLines_append_newline _

theorem seam_front (c : BodyRequest.Call) (z : Text) :
    pattern.Seam c.front (options ++ z) := by
  obtain ⟨hcase, hcall⟩ := not_opens_of_ne (d := '-')
    (z := "H \"Content-Type: application/json\" \\\n-d ".toList ++ z) (by decide) (by decide)
  exact seam_wholeLines (wholeLines_front c) hcase hcall

theorem seam_request {a : Text} (ha : Text.WholeLines a) (c : BodyRequest.Call) (z : Text) :
    pattern.Seam a (c.front ++ z) := by
  obtain ⟨hcase, hcall⟩ := not_opens_lead c.toLead ((c.gap ++ ['\n']) ++ z)
  rw [← List.append_assoc, ← BodyRequest.Call.front] at hcase hcall
  exact seam_wholeLines ha hcase hcall

/-- The pass goes over a request with a body as far as the end of its gap. -/
theorem annotate_call (names : Names) {a : Text} (ha : Text.WholeLines a) {c : BodyRequest.Call}
    (hmark : ¬ TestCase.markOpening <:+: c.body) (z : Text) :
    annotate names (a ++ (c.text ++ z)) = annotate names a ++ (annotate names c.front ++
      (⟨options ++ Shell.singleQuoted c.body, 0⟩ ++ annotate names z)) := by
  have hquote : '\'' ∉ TestCase.markOpening := by decide
  have hoptions : Text.occurs TestCase.markOpening options = false := by decide
  have hnone : ¬ TestCase.markOpening <:+: options ++ '\'' :: c.body := by
    rw [Text.infix_append_cons hquote, not_or, ← Text.occurs_iff_infix, hoptions]
    exact ⟨by simp, hmark⟩
  have hquoted : options ++ Shell.singleQuoted c.body ++ z =
      (options ++ '\'' :: c.body) ++ '\'' :: z := by
    simp [Shell.singleQuoted]
  rw [c.text_eq_front, List.append_assoc, annotate_append (seam_request ha c _),
    List.append_assoc, annotate_append (seam_front c _), ← List.append_assoc, hquoted,
    annotate_quote z hnone]
  simp [Shell.singleQuoted]

/-! ## The request as it is rewritten -/

section

variable (hhelper : Shell.IsIdentifier names.helper) (hvar : Shell.IsIdentifier names.bodyVar)
include hhelper hvar

/-- The inserted lines have no mark besides those of the body. -/
theorem markOpening_not_infix_inserted {c : BodyRequest.Call}
    (hmark : ¬ TestCase.markOpening <:+: c.body) :
    ¬ TestCase.markOpening <:+: c.inserted names := by
  have hcommand : ¬ TestCase.markOpening <:+:
      Shell.command names.helper [c.method, c.url.text, '$' :: names.bodyVar] := by
    intro h
    have hblank : [' ', 'T'] <:+: TestCase.markOpening := by decide
    refine Shell.blank_not_infix_command (hhelper.notMem (by decide)) ?_ (d := 'T') (by decide)
      (hblank.trans h)
    have hmethod := BodyRequest.blank_notMem_of_mem_methods c.method_mem
    have hurl : ' ' ∉ c.url.text := c.url.notMem_of_isBlank (by decide)
    have hname : ' ' ∉ names.bodyVar := hvar.notMem (by decide)
    simp [hmethod, hurl, hname]
  have hname : ¬ TestCase.markOpening <:+: names.bodyVar ++ ['='] := by
    intro h
    have hmem : '#' ∈ names.bodyVar ++ ['='] := h.subset (by decide)
    have hvar : '#' ∉ names.bodyVar := hvar.notMem (by decide)
    simp [hvar] at hmem
  have hquote : '\'' ∉ TestCase.markOpening := by decide
  have hnewline : '\n' ∉ TestCase.markOpening := by decide
  have hnil : ¬ TestCase.markOpening <:+: [] := by decide
  have hsplit : c.inserted names = (names.bodyVar ++ ['=']) ++ '\'' :: (c.body ++ '\'' ::
      ([] ++ '\n' :: Shell.command names.helper [c.method, c.url.text, '$' :: names.bodyVar])) := by
    simp [BodyRequest.Call.inserted, Shell.assignment, Shell.singleQuoted]
  rw [hsplit, Text.infix_append_cons hquote, Text.infix_append_cons hquote,
    Text.infix_append_cons hnewline]
  rintro (h | h | h | h)
  · exact hname h
  · exact hmark h
  · exact hnil h
  · exact hcommand h

/-- The pass treats the request that is rewritten like the request as it was. -/
theorem annotate_rewritten {a : Text} (ha : Text.WholeLines a) {c : BodyRequest.Call}
    (hmark : ¬ TestCase.markOpening <:+: c.body) (z : Text) :
    annotate names (a ++ (c.inserted names ++
        (c.front ++ (options ++ Shell.variableWord names.bodyVar)) ++ z)) =
      annotate names a ++ (⟨c.inserted names, 0⟩ ++ (annotate names c.front ++
        (⟨options ++ Shell.variableWord names.bodyVar, 0⟩ ++ annotate names z))) := by
  have hinserted : Text.WholeLines (c.inserted names) := by
    rw [BodyRequest.Call.inserted, Shell.command_eq, ← List.append_assoc]
    exact Text.wholeLines_append_newline _
  have hseam (y : Text) : pattern.Seam a (c.inserted names ++ y) := by
    obtain ⟨hcase, hcall⟩ := not_opens_assignment (hvar.notMem (by decide))
      (c.body ++ '\'' :: '\n' ::
        (Shell.command names.helper [c.method, c.url.text, '$' :: names.bodyVar] ++ y))
    have hsplit : c.inserted names ++ y = names.bodyVar ++ '=' :: '\'' :: (c.body ++ '\'' :: '\n' ::
        (Shell.command names.helper [c.method, c.url.text, '$' :: names.bodyVar] ++ y)) := by
      simp [BodyRequest.Call.inserted, Shell.assignment, Shell.singleQuoted]
    rw [hsplit]
    exact seam_wholeLines ha hcase hcall
  have hnone : '#' ∉ options ++ Shell.variableWord names.bodyVar := by
    have hoptions : '#' ∉ options := by decide
    have hname : '#' ∉ names.bodyVar := hvar.notMem (by decide)
    simp [Shell.variableWord, Shell.doubleQuoted, hoptions, hname]
  rw [List.append_assoc, annotate_append (hseam _), List.append_assoc,
    annotate_append (seam_request hinserted c _), List.append_assoc,
    annotate_append (seam_front c _), ← List.append_assoc,
    annotate_append (seam_of_notMem hnone), annotate_of_notMem hnone,
    annotate_of_find?_eq_none
      (beginsWith_markOpening.find?_eq_none (markOpening_not_infix_inserted hhelper hvar hmark))]

end

end BodilessRequest

end CurlLog
