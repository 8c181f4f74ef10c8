import CurlLog.Proofs.Blocks.Law
import CurlLog.Proofs.SingleCommand

/-!
# What becomes of a block

`Block.annotated` says what the passes make of each block, if the names of the logging function and
of the variable have no blanks: the inserted lines then have nothing that a later pass looks for
(`Foreign`). The quoted body is text that they read as well, and they treat it as if it stood alone
(`BodyCase.laterPasses_around`).
-/

namespace CurlLog

open Pattern BodyRequest

/-! ## Words that no request has -/

/-- A word that stands in none of the fixed phrases of a request and of the line that logs it. -/
structure Foreign (w : Text) : Prop where
  dollar_notMem : '$' ∉ w
  slash_notMem : '\\' ∉ w
  quote_notMem : '"' ∉ w
  newline_notMem : '\n' ∉ w
  not_blank_end : ¬ [' '] <:+ w
  blank_infix : ∃ d, d ≠ '"' ∧ [' ', d] <:+: w
  notIn_method : ∀ m ∈ methods,
    Text.occurs w (CurlCall.opening ++ ("-X ".toList ++ (m ++ [' ']))) = false
  notIn_option : ∀ o ∈ ["-X GET ".toList, []], Text.occurs w (CurlCall.opening ++ o) = false
  notIn_options : Text.occurs w ('\n' :: options) = false

theorem foreign_echoOption : Foreign Shell.echoOption where
  dollar_notMem := by decide
  slash_notMem := by decide
  quote_notMem := by decide
  newline_notMem := by decide
  not_blank_end := by decide
  blank_infix := ⟨'-', by decide, "echo".toList, "e".toList, by decide⟩
  notIn_method := by decide
  notIn_option := by decide
  notIn_options := by decide

theorem foreign_markOpening : Foreign TestCase.markOpening where
  dollar_notMem := by decide
  slash_notMem := by decide
  quote_notMem := by decide
  newline_notMem := by decide
  not_blank_end := by decide
  blank_infix := ⟨'T', by decide, "#".toList, "C-".toList, by decide⟩
  notIn_method := by decide
  notIn_option := by decide
  notIn_options := by decide

namespace Foreign

variable {w : Text} (hw : Foreign w)
include hw

theorem blank_mem : ' ' ∈ w := by
  obtain ⟨d, _, hbehind⟩ := hw.blank_infix
  exact hbehind.subset (by simp)

/-- A text without blanks does not have the word. -/
theorem not_infix_of_notMem {s : Text} (hs : ' ' ∉ s) : ¬ w <:+: s :=
  fun h => hs (h.subset hw.blank_mem)

theorem not_infix_command {name : Text} {words : List Text} (hname : ' ' ∉ name)
    (hwords : ∀ v ∈ words, ' ' ∉ v) : ¬ w <:+: Shell.command name words := by
  obtain ⟨d, hd, hbehind⟩ := hw.blank_infix
  exact fun h => Shell.blank_not_infix_command hname hwords hd (hbehind.trans h)

theorem not_infix_bodilessCall (b : BodilessCase) : ¬ w <:+: b.call.text ++ [')', '\n'] := by
  have hlead := hw.notIn_option b.option b.option_mem
  have hurl : ' ' ∉ b.call.url.text := b.call.url.notMem_of_isBlank (by decide)
  obtain ⟨u, hu⟩ : ∃ u, b.call.url.text = '$' :: u := ⟨_, rfl⟩
  have hsplit : b.call.text ++ [')', '\n'] =
      (CurlCall.opening ++ b.option) ++ '$' :: (u ++ [')', '\n']) := by
    rw [BodilessRequest.Call.text, hu]
    simp only [List.append_assoc, List.cons_append]
    rfl
  rw [hu] at hurl
  rw [hsplit, Text.infix_append_cons hw.dollar_notMem, not_or, ← Text.occurs_iff_infix, hlead]
  refine ⟨by decide, hw.not_infix_of_notMem ?_⟩
  simp only [List.mem_cons, not_or] at hurl
  simp [hurl.2]

theorem not_infix_bodyCall (b : BodyCase) {name : Text} (hname : ' ' ∉ name) :
    ¬ w <:+: b.call.front ++ (options ++ (Shell.variableWord name ++ [')', '\n'])) := by
  have hlead := hw.notIn_method b.method b.method_mem
  have hurl : ' ' ∉ b.call.url.text := b.call.url.notMem_of_isBlank (by decide)
  obtain ⟨u, hu⟩ : ∃ u, b.call.url.text = '$' :: u := ⟨_, rfl⟩
  have hsplit : b.call.front ++ (options ++ (Shell.variableWord name ++ [')', '\n'])) =
      (CurlCall.opening ++ ("-X ".toList ++ (b.method ++ [' ']))) ++ '$' :: ((u ++ [' ']) ++
        '\\' :: (('\n' :: options) ++ '"' :: (('$' :: name) ++ '"' :: [')', '\n']))) := by
    have hgap : b.call.gap = [' ', '\\'] := show " \\".toList = [' ', '\\'] by decide
    have hmethod : b.call.method = b.method := rfl
    rw [Call.front, Lead.text, hu, hgap, hmethod]
    simp [Shell.variableWord, Shell.doubleQuoted]
  rw [hu] at hurl
  simp only [List.mem_cons, not_or] at hurl
  have haddress : ¬ w <:+: u ++ [' '] := by
    rw [List.infix_concat_iff, not_or]
    refine ⟨?_, hw.not_infix_of_notMem hurl.2⟩
    rintro ⟨z, hz⟩
    obtain ⟨w', hw', _⟩ := Text.last_cases hz (List.ne_nil_of_mem hw.blank_mem)
    exact hw.not_blank_end ⟨w', hw'.symm⟩
  rw [hsplit, Text.infix_append_cons hw.dollar_notMem, Text.infix_append_cons hw.slash_notMem,
    Text.infix_append_cons hw.quote_notMem, Text.infix_append_cons hw.quote_notMem,
    ← Text.occurs_iff_infix, hlead, ← @Text.occurs_iff_infix w ('\n' :: options), hw.notIn_options]
  rintro (h | h | h | h | h)
  · exact absurd h (by decide)
  · exact haddress h
  · exact absurd h (by decide)
  · exact hw.not_infix_of_notMem (by simp [hname]) h
  · exact hw.not_infix_of_notMem (by decide) h

end Foreign

/-- Nothing in a header is printed in colour. -/
theorem Header.echoOption_not_infix (h : Header) : ¬ Shell.echoOption <:+: h.text := by
  have hnewline : '\n' ∉ Shell.echoOption := by decide
  have hcolon : ':' ∉ Shell.echoOption := by decide
  have hquote : '"' ∉ Shell.echoOption := by decide
  have hnil : ¬ Shell.echoOption <:+: [] := by decide
  have hecho : ¬ Shell.echoOption <:+: "echo ".toList := by decide
  have not_infix_of_notMem {s : Text} (hs : 'e' ∉ s) : ¬ Shell.echoOption <:+: s :=
    fun h => hs (h.subset (by decide))
  have hid (i : TestCase.Id) : 'e' ∉ i.text := i.notMem_text (by decide)
  have hmark : ¬ Shell.echoOption <:+: h.markLine := by
    have hword : 'e' ∉ "# ".toList ++ h.id.text := by simp [hid]
    have hsplit : h.markLine = ("# ".toList ++ h.id.text) ++ ':' :: h.remark := by
      simp only [markLine, TestCase.Id.mark, List.append_assoc, List.cons_append, List.nil_append]
    rw [hsplit, Text.infix_append_cons hcolon, ← @Text.occurs_iff_infix _ h.remark,
      h.echo_notIn_remark, not_or]
    exact ⟨not_infix_of_notMem hword, by decide⟩
  have htitle : ¬ Shell.echoOption <:+: h.titleLine := by
    have hword : 'e' ∉ ">>> ".toList ++ h.titleId.text := by simp [hid]
    have hsplit : h.titleLine = "echo ".toList ++
        '"' :: ((">>> ".toList ++ h.titleId.text) ++ ':' :: (h.title ++ '"' :: [])) := by
      rw [titleLine, h.titleId.title_eq_quote]
      simp only [List.append_assoc, List.cons_append, List.nil_append]
    rw [hsplit, Text.infix_append_cons hquote, Text.infix_append_cons hcolon,
      Text.infix_append_cons hquote, ← @Text.occurs_iff_infix _ h.title, h.echo_notIn_title]
    rintro (h | h | h | h)
    · exact hecho h
    · exact not_infix_of_notMem hword h
    · exact absurd h (by decide)
    · exact hnil h
  rw [text, Text.infix_append_cons hnewline, Text.infix_append_cons hnewline]
  rintro (h | h | h)
  · exact hmark h
  · exact htitle h
  · exact hnil h

/-! ## Test cases without a body -/

namespace Header

variable {names : Names}

theorem marked_markLine (h : Header) : TestCase.Marked h.markLine :=
  ⟨[], _, rfl, h.id, h.remark, rfl⟩

theorem titled_titleLine (h : Header) : TestCase.Titled h.titleLine :=
  ⟨h.titleId, h.title, rfl⟩

/-- A header is left alone if there is neither a title nor a request under it. -/
theorem annotate_bodiless (h : Header) {s : Text}
    (hs : ¬ BodilessRequest.OpensCase s ∧ ¬ BodilessRequest.OpensCall s) :
    BodilessRequest.annotate names (h.text ++ s) =
      ⟨h.text, 0⟩ ++ BodilessRequest.annotate names s := by
  have htitle : ¬ BodilessRequest.OpensCase (h.titleLine ++ '\n' :: s) := by
    rintro ⟨k, c, r, heq, hk, _⟩
    obtain ⟨_, rfl⟩ := Text.first_unique hk h.newline_notMem_titleLine heq
    exact hs.2 ⟨c, r, rfl⟩
  have hsplit : h.text ++ s = h.markLine ++ '\n' :: (h.titleLine ++ '\n' :: s) := by
    simp [text]
  rw [hsplit, BodilessRequest.annotate_line h.newline_notMem_markLine fun _ => htitle,
    BodilessRequest.annotate_line h.newline_notMem_titleLine fun _ => hs.1]
  ext1 <;> simp [text]

end Header

namespace Block

variable (names : Names)

/-- Without a command that prints in colour the last two passes do nothing. -/
theorem annotate_of_not_echo {s : Text} (h : ¬ Shell.echoOption <:+: s) :
    SuccessMessage.annotate s = ⟨s, 0⟩ ∧ ResponseLabel.annotate names s = ⟨s, 0⟩ :=
  ⟨edit_of_find?_eq_none _ (SuccessMessage.beginsWith_echoOption.find?_eq_none h),
    edit_of_find?_eq_none _ (ResponseLabel.beginsWith_echoOption.find?_eq_none h)⟩

/-- The request is logged in the line before it. -/
theorem withLogs_bodilessCase (b : BodilessCase) :
    (bodilessCase b).withLogs names =
      ⟨b.header.text ++ (b.call.logLine names ++ (b.call.text ++ [')', '\n'])), 1⟩ := by
  have hclose : BodilessRequest.annotate names [')', '\n'] = ⟨[')', '\n'], 0⟩ :=
    BodilessRequest.annotate_of_notMem (by decide)
  have hsplit : b.text = b.header.markLine ++
      '\n' :: (b.header.titleLine ++ '\n' :: (b.call.text ++ [')', '\n'])) := by
    simp [BodilessCase.text, Header.text]
  show BodilessRequest.annotate names b.text = _
  rw [hsplit, BodilessRequest.annotate_request names b.call b.header.newline_notMem_markLine
    b.header.marked_markLine b.header.newline_notMem_titleLine b.header.titled_titleLine
    (fun x hx => ?_), hclose]
  · ext1 <;> simp [Header.text]
  · obtain rfl : ')' = x := Option.some.inj hx
    decide

theorem withLabel_bodilessCase (hhelper : ' ' ∉ names.helper) (b : BodilessCase) :
    (bodilessCase b).withStatus names = ⟨((bodilessCase b).withLogs names).text, 0⟩ ∧
      (bodilessCase b).withLabel names = ⟨((bodilessCase b).withLogs names).text, 0⟩ := by
  have hline : ¬ Shell.echoOption <:+: b.call.logLine names := by
    have hurl : ' ' ∉ b.call.url.text := b.call.url.notMem_of_isBlank (by decide)
    exact foreign_echoOption.not_infix_command hhelper (by simp [hurl])
  have hnone : ¬ Shell.echoOption <:+: ((bodilessCase b).withLogs names).text := by
    have hnewline : '\n' ∉ Shell.echoOption := by decide
    have hwhole : Text.WholeLines (b.call.logLine names) := Shell.wholeLines_command _ _
    rw [withLogs_bodilessCase, b.header.wholeLines.infix_append hnewline,
      hwhole.infix_append hnewline]
    rintro (h | h | h)
    · exact b.header.echoOption_not_infix h
    · exact hline h
    · exact foreign_echoOption.not_infix_bodilessCall b h
  obtain ⟨hstatus, hlabel⟩ := annotate_of_not_echo names hnone
  exact ⟨hstatus, by rw [withLabel, withStatus, hstatus, hlabel]⟩

/-! ## Success messages and other lines -/

/-- The message has its status, and a label stands before a printed response body. -/
theorem withLabel_success (s : Success) :
    (success s).withLabel names = ⟨Success.indent ++ (SuccessMessage.message s.id
        SuccessMessage.statusClosing ++ '\n' :: (Success.indent ++ (ResponseLabel.counting ++
          '\n' :: (if s.printed then ResponseLabel.labelLine names else []) ++ s.printing))),
      if s.printed then 1 else 0⟩ := by
  have hblank : ResponseLabel.Blank Success.indent := ⟨by decide, by decide⟩
  have quiet {t : Text} (ht : Text.occurs Shell.echoOption t = false) :
      ResponseLabel.annotate names t = ⟨t, 0⟩ :=
    (annotate_of_not_echo names fun h =>
      absurd (Text.occurs_iff_infix.mpr h) (ne_true_of_eq_false ht)).2
  have hindent := quiet (t := Success.indent) (by decide)
  have hfilter := quiet (t := Success.filter) (by decide)
  have hlead : ResponseLabel.annotate names (ResponseLabel.lead s.id Success.indent) =
      ⟨ResponseLabel.lead s.id Success.indent, 0⟩ :=
    ResponseLabel.annotate_of_find?_eq_none (ResponseLabel.find?_lead s.id hblank)
  have hsplit : ((success s).withStatus names).text =
      Success.indent ++ (ResponseLabel.lead s.id Success.indent ++ s.printing) := by
    rw [withStatus_success, Success.textWith, ResponseLabel.lead]
    simp only [List.append_assoc, List.cons_append, List.nil_append]
  rw [withLabel, hsplit, Success.printing]
  cases s.printed with
  | false =>
    have hseam := ResponseLabel.seam_lead Success.indent [] s.id Success.indent
    rw [List.append_nil] at hseam
    rw [if_neg Bool.false_ne_true, List.append_nil, ResponseLabel.annotate_append hseam, hindent,
      hlead]
    ext1 <;> simp [ResponseLabel.lead]
  | true =>
    rw [if_pos rfl, ResponseLabel.annotate_printed names _ _ s.id hblank hblank, hindent, hfilter]
    ext1 <;> simp [ResponseLabel.lead]

theorem withLabel_filler (f : Filler) : (filler f).withLabel names = ⟨f.text, 0⟩ := by
  rw [withLabel, withStatus_filler]
  exact (annotate_of_not_echo names (echoOption_not_infix_filler f)).2

end Block

/-! ## Test cases with a body -/

namespace BodyCase

variable {names : Names}

/-- The body between its quotes. -/
def quoted (b : BodyCase) : Text :=
  Shell.singleQuoted b.body

/-- What stands behind the body, as it is rewritten. -/
def behind (names : Names) (b : BodyCase) : Text :=
  '\n' :: (Shell.command names.helper [b.method, b.call.url.text, '$' :: names.bodyVar] ++
    (b.call.front ++ (options ++ (Shell.variableWord names.bodyVar ++ [')', '\n']))))

/-- The test case as it is rewritten, with `q` in the place of the quoted body. -/
def around (names : Names) (b : BodyCase) (q : Text) : Text :=
  b.header.text ++ (names.bodyVar ++ '=' :: (q ++ b.behind names))

theorem withVariable_text (names : Names) (b : BodyCase) :
    ((Block.bodyCase b).withVariable names).text = b.around names b.quoted := by
  have hmethod : b.call.method = b.method := rfl
  have hbody : b.call.body = b.body := rfl
  simp [Block.withVariable, Call.inserted, Shell.assignment, quoted, behind, around, hmethod, hbody]

/-- The rewritten request has none of the words that the later passes look for. -/
theorem not_infix_behind {w : Text} (hw : Foreign w) (hhelper : ' ' ∉ names.helper)
    (hvar : ' ' ∉ names.bodyVar) (b : BodyCase) : ¬ w <:+: b.behind names := by
  have hcommand : ¬ w <:+:
      Shell.command names.helper [b.method, b.call.url.text, '$' :: names.bodyVar] := by
    refine hw.not_infix_command hhelper ?_
    have hmethod := blank_notMem_of_mem_methods b.method_mem
    have hurl : ' ' ∉ b.call.url.text := b.call.url.notMem_of_isBlank (by decide)
    simp [hmethod, hurl, hvar]
  have hline : Text.WholeLines ['\n'] := Text.wholeLines_append_newline []
  rw [behind, ← List.singleton_append, hline.infix_append hw.newline_notMem,
    (Shell.wholeLines_command _ _).infix_append hw.newline_notMem]
  rintro (h | h | h)
  · exact hw.not_infix_of_notMem (by decide) h
  · exact hcommand h
  · exact hw.not_infix_bodyCall b hvar h

/-- No request without a body goes on behind the quoted body. -/
theorem seam_quoted (hhelper : ' ' ∉ names.helper) (b : BodyCase) :
    BodilessRequest.pattern.Seam b.quoted (b.behind names) := by
  intro x u v y hx hv hu hne ht
  obtain ⟨l, k, c, heq, ⟨hl, _⟩, hk, i, z, rfl⟩ := BodilessRequest.takes_pattern.mp ht
  have hquoted : b.quoted = ('\'' :: b.body) ++ ['\''] := rfl
  obtain ⟨u, rfl, _⟩ := Text.last_cases (hquoted ▸ hx.symm) hu
  obtain ⟨d, v, rfl⟩ := List.exists_cons_of_ne_nil hne
  obtain rfl : '\n' = d := List.head_eq_of_cons_eq hv
  -- the line end behind the body is that of the mark, that of the title, or one of the request
  rcases Text.first_cases hl heq with ⟨_, rfl⟩ | ⟨w, hw, hbelow⟩
  · have hmethod : ∀ m ∈ methods, m.head? ≠ some '>' := by decide
    simp only [behind, List.cons_append, List.cons.injEq, true_and, List.append_assoc] at hv
    exact command_ne_title _ hhelper (hmethod _ b.method_mem) i _ _ hv
  · rcases Text.first_cases hk hbelow.symm with ⟨rfl, _⟩ | ⟨w', rfl, hcall⟩
    · have hend : u ++ ['\''] = (l ++ '\n' :: (i.title ++ z)) ++ ['"'] := by
        rw [hw]
        simp
      exact absurd (List.append_inj' hend rfl).2 (by decide)
    · exact c.newline_notMem_text (by simp [hcall])

section

variable (hhelper : ' ' ∉ names.helper) (hvar : ' ' ∉ names.bodyVar) (b : BodyCase)
include hhelper hvar

/-- The pass over requests without a body goes over the quoted body as if it stood alone. -/
theorem annotate_bodiless : BodilessRequest.annotate names (b.around names b.quoted) =
    ⟨b.around names (BodilessRequest.annotate names b.quoted).text,
      (BodilessRequest.annotate names b.quoted).count⟩ := by
  have hname : ¬ TestCase.markOpening <:+: names.bodyVar ++ ['='] :=
    foreign_markOpening.not_infix_of_notMem (by simp [hvar])
  have hopens := BodilessRequest.not_opens_assignment hvar (b.body ++ '\'' :: b.behind names)
  have hsplit : names.bodyVar ++ '=' :: '\'' :: (b.body ++ '\'' :: b.behind names) =
      names.bodyVar ++ '=' :: (b.quoted ++ b.behind names) := by
    simp [quoted, Shell.singleQuoted]
  rw [hsplit] at hopens
  rw [around, b.header.annotate_bodiless hopens, BodilessRequest.annotate,
    BodilessRequest.beginsWith_markOpening.edit_between BodilessRequest.not_takes_nil _ (by decide)
      hname (b.seam_quoted hhelper) (b.not_infix_behind foreign_markOpening hhelper hvar)]
  ext1 <;> simp [around, BodilessRequest.annotate]

theorem echoOption_not_infix : ¬ Shell.echoOption <:+: b.behind names :=
  b.not_infix_behind foreign_echoOption hhelper hvar

omit hhelper in
theorem echoOption_not_infix_before :
    ¬ Shell.echoOption <:+: (b.header.text ++ names.bodyVar) ++ ['='] := by
  rw [List.append_assoc, b.header.wholeLines.infix_append (by decide), not_or]
  exact ⟨b.header.echoOption_not_infix, foreign_echoOption.not_infix_of_notMem (by simp [hvar])⟩

/-- So does the pass over success messages, whatever has become of the body. -/
theorem annotate_status (q : Text) : SuccessMessage.annotate (b.around names q) =
    ⟨b.around names (SuccessMessage.annotate q).text, (SuccessMessage.annotate q).count⟩ := by
  have hseam : SuccessMessage.pattern.Seam q (b.behind names) := by
    refine .of_notMem_right (fun t ht => ?_) q _
    obtain ⟨i, rfl⟩ := SuccessMessage.takes_pattern.mp ht
    exact SuccessMessage.newline_notMem_message i
  rw [around, ← List.append_assoc, SuccessMessage.annotate,
    SuccessMessage.beginsWith_echoOption.edit_between SuccessMessage.not_takes_nil _ (by decide)
      (b.echoOption_not_infix_before hvar) hseam (b.echoOption_not_infix hhelper hvar)]
  ext1 <;> simp [around, SuccessMessage.annotate]

/-- So does the pass over response bodies, if the quote is still there. -/
theorem annotate_label {q : Text} (hq : ['\''] <:+ q) :
    ResponseLabel.annotate names (b.around names q) =
      ⟨b.around names (ResponseLabel.annotate names q).text,
        (ResponseLabel.annotate names q).count⟩ := by
  have hseam : ResponseLabel.pattern.Seam q (b.behind names) := by
    obtain ⟨q, rfl⟩ := hq
    exact .of_notMem_left (fun t ht => ResponseLabel.quote_notMem ht) q _
  rw [around, ← List.append_assoc, ResponseLabel.annotate,
    ResponseLabel.beginsWith_echoOption.edit_between ResponseLabel.not_takes_nil _ (by decide)
      (b.echoOption_not_infix_before hvar) hseam (b.echoOption_not_infix hhelper hvar)]
  ext1 <;> simp [around, ResponseLabel.annotate]

end

end BodyCase

/-- The passes go over the quoted body as if it stood alone. -/
theorem BodyCase.laterPasses_around {names : Names} (hhelper : ' ' ∉ names.helper)
    (hvar : ' ' ∉ names.bodyVar) (b : BodyCase) : laterPasses names (b.around names b.quoted) =
      ⟨b.around names (laterPasses names b.quoted).text, (laterPasses names b.quoted).report⟩ := by
  have hquote :
      ['\''] <:+ (SuccessMessage.annotate (BodilessRequest.annotate names b.quoted).text).text := by
    rw [SuccessMessage.suffix_iff_of_steps (SuccessMessage.steps_annotate _).1 (by decide),
      (BodilessRequest.logs_annotate names b.quoted).suffix_iff (by decide)]
    exact ⟨'\'' :: b.body, rfl⟩
  simp only [laterPasses, Pass.run, b.annotate_bodiless hhelper hvar,
    b.annotate_status hhelper hvar, b.annotate_label hhelper hvar hquote]

namespace Block

/-- What becomes of a block. -/
def annotated (names : Names) : Block → Annotated
  | bodyCase b =>
    { text := b.around names (laterPasses names b.quoted).text
      report := { (laterPasses names b.quoted).report with bodyRequests := 1 } }
  | bodilessCase b =>
    ⟨b.header.text ++ (b.call.logLine names ++ (b.call.text ++ [')', '\n'])), 0, 1, 0, 0⟩
  | success s =>
    ⟨Success.indent ++ (SuccessMessage.message s.id SuccessMessage.statusClosing ++ '\n' ::
      (Success.indent ++ (ResponseLabel.counting ++ '\n' ::
        (if s.printed then ResponseLabel.labelLine names else []) ++ s.printing))),
      0, 0, 1, if s.printed then 1 else 0⟩
  | filler f => ⟨f.text, 0, 0, 0, 0⟩

variable {names : Names}

/-- What the passes make of a block. -/
theorem runPasses_eq_annotated (hhelper : ' ' ∉ names.helper) (hvar : ' ' ∉ names.bodyVar)
    (block : Block) : runPasses names block.text = block.annotated names := by
  cases block with
  | bodyCase b =>
    have hlater := b.laterPasses_around hhelper hvar
    rw [← b.withVariable_text] at hlater
    rw [runPasses_eq_laterPasses, annotate_text, hlater]
    rfl
  | bodilessCase b =>
    obtain ⟨hstatus, hlabel⟩ := withLabel_bodilessCase names hhelper b
    rw [runPasses_text, hstatus, hlabel, withLogs_bodilessCase]
    rfl
  | success s =>
    rw [runPasses_text, withLabel_success, withStatus_success, withLogs_success]
    rfl
  | filler f =>
    rw [runPasses_text, withLabel_filler, withStatus_filler, withLogs_filler]
    rfl

/-- A body without marks and without commands that print in colour stays as it is. -/
theorem laterPasses_quoted (names : Names) (b : BodyCase)
    (hmark : Text.occurs TestCase.markOpening b.body = false)
    (hecho : Text.occurs Shell.echoOption b.body = false) :
    laterPasses names b.quoted = ⟨b.quoted, 0, 0, 0, 0⟩ := by
  have absent {w : Text} (hquote : '\'' ∉ w) (hnil : ¬ w <:+: [])
      (hbody : Text.occurs w b.body = false) : ¬ w <:+: b.quoted := by
    have hsplit : b.quoted = [] ++ '\'' :: (b.body ++ '\'' :: []) := rfl
    rw [hsplit, Text.infix_append_cons hquote, Text.infix_append_cons hquote,
      ← @Text.occurs_iff_infix w b.body, hbody]
    simp [hnil]
  have hbodiless : BodilessRequest.annotate names b.quoted = ⟨b.quoted, 0⟩ :=
    BodilessRequest.annotate_of_find?_eq_none (BodilessRequest.beginsWith_markOpening.find?_eq_none
      (absent (by decide) (by decide) hmark))
  obtain ⟨hstatus, hlabel⟩ := annotate_of_not_echo names (absent (by decide) (by decide) hecho)
  simp only [laterPasses, Pass.run, hbodiless, hstatus, hlabel]

/--
A script is annotated block by block, whatever the names are, if no body that leaks has a quote
behind it. If the names have no blanks, this is the only condition, and what becomes of the blocks
is `annotated`, in which a body without marks and colours is as it was.
-/
theorem annotate_blocks (names : Names) (blocks : List Block) :
    (Tight blocks → CurlLog.annotate names (source blocks) =
      if names.definedIn (source blocks) then
        .ok (Annotated.join (blocks.map fun block => runPasses names block.text))
      else .error (.missingHelper names.helper)) ∧
    (' ' ∉ names.helper → ' ' ∉ names.bodyVar →
      (runPasses names (source blocks) = Annotated.join (blocks.map (annotated names)) ↔
        Tight blocks)) ∧
    (∀ b : BodyCase, Text.occurs TestCase.markOpening b.body = false →
      Text.occurs Shell.echoOption b.body = false →
        laterPasses names b.quoted = ⟨b.quoted, 0, 0, 0, 0⟩) := by
  refine ⟨fun h => ?_, fun hhelper hvar => ?_, laterPasses_quoted names⟩
  · rw [CurlLog.annotate, runPasses_source names h]
  · have hblocks : (blocks.map fun block => runPasses names block.text) =
        blocks.map (annotated names) :=
      List.map_congr_left fun block _ => runPasses_eq_annotated hhelper hvar block
    rw [← hblocks]
    exact runPasses_source_iff hvar

/-! ## Two scripts -/

/-- An identifier of one letter and one digit. -/
def shortId (letter digit : Char) (hletter : letter.isUpper = true)
    (hdigit : isDecimalDigit digit = true) : TestCase.Id :=
  ⟨[letter], [digit], List.cons_ne_nil _ _, List.cons_ne_nil _ _, by simpa using hletter,
    by simpa using hdigit⟩

/-- An address with one letter for the service and a path of one character. -/
def shortAddress (letter c : Char) (hletter : letter.isUpper = true)
    (hc : isBlank c = false ∧ c ∉ ['\\', ')', '\'']) : Address :=
  ⟨[letter], [c], List.cons_ne_nil _ _, List.cons_ne_nil _ _, by simpa using hletter,
    by simpa using hc⟩

/-- The identifier `TC-A-1`. -/
def sampleId : TestCase.Id :=
  shortId 'A' '1' (by decide) (by decide)

/-- A header without a title. -/
def sampleHeader : Header :=
  ⟨sampleId, [], sampleId, [], by decide, by decide, by decide, by decide⟩

/-- The address `$BASE_URL_A/x`. -/
def sampleAddress : Address :=
  shortAddress 'A' 'x' (by decide) (by decide)

/-- The line that defines the logging function. -/
def definition : Filler :=
  ⟨"print_request() (:)".toList, by decide, by decide, by decide, by decide, by decide, by decide⟩

/-- A test case with the request of `plainCall`. -/
def sampleCase : BodyCase :=
  ⟨sampleHeader, "POST".toList, sampleAddress, ['y'], plainCall.method_mem, plainCall.body_ne_nil,
    plainCall.quote_notMem_body⟩

/-- A script with a block of each kind. -/
def sampleBlocks : List Block :=
  [.filler definition, .bodyCase sampleCase,
    .bodilessCase ⟨sampleHeader, [], sampleAddress, by decide⟩, .success ⟨sampleId, true⟩]

/-- What becomes of this script, line by line. -/
def sampleLines : List String :=
  [
    "print_request() (:)",
    "# TC-A-1:",
    "echo \">>> TC-A-1:\"",
    "REQUEST_DATA='y'",
    "print_request \"POST\" \"$BASE_URL_A/x\" \"$REQUEST_DATA\"",
    "RESPONSE=$(curl -s -w \"\\n%\x7bhttp_code\x7d\" -X POST $BASE_URL_A/x \\",
    "-H \"Content-Type: application/json\" \\",
    "-d \"$REQUEST_DATA\")",
    "# TC-A-1:",
    "echo \">>> TC-A-1:\"",
    "print_request \"GET\" \"$BASE_URL_A/x\"",
    "RESPONSE=$(curl -s -w \"\\n%\x7bhttp_code\x7d\" $BASE_URL_A/x)",
    "    echo -e \"$\x7bGREEN\x7d✓ TC-A-1 PASSED (HTTP: $HTTP_CODE)$\x7bNC\x7d\"",
    "    PASSED=$((PASSED+1))",
    "    echo -e \"$\x7bGREEN\x7d[响应]$\x7bNC\x7d\"",
    "    echo \"$RESPONSE_BODY\" | jq ."
  ]

theorem annotate_sampleBlocks : Tight sampleBlocks ∧ CurlLog.annotate {} (source sampleBlocks) =
    .ok ⟨sampleLines.flatMap fun line => line.toList ++ ['\n'], 1, 1, 1, 1⟩ := by
  obtain ⟨_, hforms, hquoted⟩ := annotate_blocks {} sampleBlocks
  have htight : Tight sampleBlocks := by
    refine tight_of_not_leaks fun b hb => ?_
    obtain rfl : b = sampleCase := by simpa [sampleBlocks] using hb
    decide
  have hdefined : Names.definedIn {} (source sampleBlocks) = true := by decide
  have hruns := (hforms (by decide) (by decide)).mpr htight
  have hbody := hquoted sampleCase (by decide) (by decide)
  refine ⟨htight, annotate_eq_ok_iff.mpr ⟨hdefined, ?_⟩⟩
  rw [hruns]
  simp only [sampleBlocks, List.map_cons, List.map_nil, annotated, hbody]
  decide +kernel

/-- A request whose body ends like the options before a body. -/
def leakyCase : BodyCase :=
  ⟨sampleHeader, "POST".toList, sampleAddress, '\n' :: options, plainCall.method_mem,
    List.cons_ne_nil _ _, by decide⟩

/-- A script with this request and a quote in a line behind it. -/
def leakyBlocks : List Block :=
  [.filler definition, .bodyCase leakyCase,
    .filler ⟨['\''], by decide, by decide, by decide, by decide, by decide, by decide⟩]

/-- The line behind the body becomes a part of it. -/
theorem annotate_leakyBlocks : Names.definedIn {} (source leakyBlocks) = true ∧
    CurlLog.annotate {} (source leakyBlocks) ≠
      .ok (Annotated.join (leakyBlocks.map fun block => runPasses {} block.text)) := by
  refine ⟨by decide, fun h => ?_⟩
  have htight := (runPasses_source_iff (by decide)).mp (annotate_eq_ok_iff.mp h).2.symm
  have hleaks : leakyCase.Leaks := ⟨List.suffix_refl _, by decide⟩
  exact htight [.filler definition] leakyCase _ rfl hleaks (by decide)

end Block

end CurlLog
