import CurlLog.Proofs.Blocks.Bodies
import CurlLog.Proofs.LaterPasses

/-!
# Scripts are annotated block by block

The passes behind the first one leave the blocks apart as well, whatever the names are.

* No request without a body begins in one block and ends in another, since every block begins with
  neither a title nor a request (`Block.Apart`).
* A success message stands on one line.
* A message and the command that prints the response body belong to one block, since no block begins
  with that command (`Block.Stops`), and a filler or a request does not end like a message
  (`Block.Ends`).

So the four passes over a script are the four passes over its blocks (`Block.runPasses_source`). A
body that leaks shows behind the quote of the variable, where no later pass hides it, so there is no
weaker condition (`Block.runPasses_source_iff`).
-/

namespace CurlLog

open Pattern BodyRequest

/-! ## Requests without a body -/

theorem wholeLines_close (s : Text) : Text.WholeLines (s ++ [')', '\n']) := by
  rw [List.append_cons]
  exact Text.wholeLines_append_newline _

theorem Success.wholeLines (s : Success) (closing : Text) :
    Text.WholeLines (s.textWith closing) := by
  have hprinting : Text.WholeLines s.printing := by
    unfold printing
    split
    · exact Text.wholeLines_append_newline (ResponseLabel.printing indent ++ " .".toList)
    · exact Text.wholeLines_nil
  have hsplit : s.textWith closing = ((indent ++ (SuccessMessage.message s.id closing ++
      '\n' :: (indent ++ ResponseLabel.counting))) ++ ['\n']) ++ s.printing := by
    rw [textWith]
    simp only [List.append_assoc, List.cons_append, List.nil_append]
  rw [hsplit]
  exact (Text.wholeLines_append_newline _).append hprinting

/-- Neither a title nor a request begins with a line that has none. -/
theorem Filler.not_opens (f : Filler) (z : Text) :
    ¬ BodilessRequest.OpensCase (f.text ++ z) ∧ ¬ BodilessRequest.OpensCall (f.text ++ z) := by
  have line (w : Text) (hw : '\n' ∉ w) (h : Text.occurs w f.line = false) (y : Text) :
      f.text ++ z ≠ w ++ y := by
    intro heq
    have hprefix : w <+: f.line ++ '\n' :: z := by
      refine ⟨y, ?_⟩
      rw [← heq, text, List.append_assoc]
      rfl
    have hinfix := ((Text.prefix_append_cons hw).mp hprefix).isInfix
    exact absurd (Text.occurs_iff_infix.mpr hinfix) (ne_true_of_eq_false h)
  constructor
  · rintro ⟨_, c, r, h, _, i, y, rfl⟩
    obtain ⟨t, ht⟩ := i.title_eq_opening
    rw [ht, List.append_assoc, List.append_assoc] at h
    exact line _ (by decide) f.title_notIn _ h
  · rintro ⟨c, r, h⟩
    obtain ⟨w, hw⟩ : ∃ w, CurlCall.opening = "RESPONSE=$(curl".toList ++ w :=
      ⟨" -s -w \"\\n%\x7bhttp_code\x7d\" ".toList, by decide⟩
    rw [BodilessRequest.Call.text, hw, List.append_assoc, List.append_assoc] at h
    exact line _ (by decide) f.command_notIn _ h

namespace Block

variable (names : Names)

/-- A text of whole lines that begins with neither a title nor a request. -/
def Apart (t : Text) : Prop :=
  Text.WholeLines t ∧ ∀ z,
    ¬ BodilessRequest.OpensCase (t ++ z) ∧ ¬ BodilessRequest.OpensCall (t ++ z)

theorem apart_withVariable (block : Block) : Apart (block.withVariable names).text := by
  cases block with
  | bodyCase b =>
    refine ⟨?_, fun z => BodilessRequest.not_opens_of_ne (d := '#') (by decide) (by decide)⟩
    rw [withVariable, ← List.append_assoc]
    exact wholeLines_close _
  | bodilessCase b =>
    refine ⟨?_, fun z => BodilessRequest.not_opens_of_ne (d := '#') (by decide) (by decide)⟩
    show Text.WholeLines (b.header.text ++ (b.call.text ++ [')', '\n']))
    rw [← List.append_assoc]
    exact wholeLines_close _
  | success s =>
    exact ⟨s.wholeLines _, fun z =>
      BodilessRequest.not_opens_of_ne (d := ' ') (by decide) (by decide)⟩
  | filler f => exact ⟨Text.wholeLines_append_newline _, f.not_opens⟩

end Block

namespace BodilessRequest

theorem not_opens_flatten {ts : List Text} (h : ∀ t ∈ ts, Block.Apart t) :
    ¬ OpensCase ts.flatten ∧ ¬ OpensCall ts.flatten := by
  cases ts with
  | nil =>
    constructor
    · rintro ⟨k, c, r, h, _⟩
      simp at h
    · rintro ⟨c, r, h⟩
      obtain ⟨t, ht⟩ := c.text_cons
      simp [ht] at h
  | cons t ts => exact (h t (by simp)).2 ts.flatten

theorem seams_of_apart {ts : List Text} (h : ∀ t ∈ ts, Block.Apart t) : pattern.Seams ts := by
  induction ts with
  | nil => trivial
  | cons t ts ih =>
    have hts : ∀ u ∈ ts, Block.Apart u := fun u hu => h u (by simp [hu])
    obtain ⟨hcase, hcall⟩ := not_opens_flatten hts
    exact ⟨seam_wholeLines (h t (by simp)).1 hcase hcall, ih hts⟩

end BodilessRequest

/-! ## Messages and response bodies -/

namespace Block

variable (names : Names)

/-- The block after the passes over requests. -/
def withLogs (block : Block) : Edited :=
  BodilessRequest.annotate names (block.withVariable names).text

/-- The block after the passes over requests and over success messages. -/
def withStatus (block : Block) : Edited :=
  SuccessMessage.annotate (block.withLogs names).text

/-- The block after all passes. -/
def withLabel (block : Block) : Edited :=
  ResponseLabel.annotate names (block.withStatus names).text

theorem seams_message {ts : List Text} (h : ∀ t ∈ ts, ∃ y, t = y ++ ['\n']) :
    SuccessMessage.pattern.Seams ts := by
  induction ts with
  | nil => trivial
  | cons t ts ih =>
    obtain ⟨y, rfl⟩ := h t (by simp)
    refine ⟨.of_notMem_left (fun u hu => ?_) y _, ih fun u hu => h u (by simp [hu])⟩
    obtain ⟨i, rfl⟩ := SuccessMessage.takes_pattern.mp hu
    exact SuccessMessage.newline_notMem_message i

/-- The last line of a request: only one parenthesis closes it. -/
def Closed (t : Text) : Prop :=
  [')', '\n'] <:+ t ∧ ¬ [')', ')', '\n'] <:+ t

theorem closed_append {x : Char} (hx : x ≠ ')') (y : Text) : Closed (y ++ [x, ')', '\n']) := by
  refine ⟨⟨y ++ [x], by simp⟩, ?_⟩
  rintro ⟨z, hz⟩
  have hinj := (List.append_inj' hz rfl).2
  simp only [List.cons.injEq, and_true] at hinj
  exact hx hinj.symm

/-- A request that is printed by no command in a later line. -/
theorem Closed.seam {t z : Text} (h : Closed t) : ResponseLabel.pattern.Seam t z := by
  obtain ⟨⟨y, rfl⟩, hclosed⟩ := h
  rw [List.append_cons]
  refine ResponseLabel.seam_line_end (fun h => ?_) (fun d hd h => ?_) fun h => ?_
  · exact absurd (Text.eq_of_suffix_concat h) (by decide)
  · rw [Text.eq_of_suffix_concat h] at hd
    exact absurd hd (by decide)
  · have hcounting : [')', ')'] <:+ ResponseLabel.counting := by decide
    obtain ⟨w, hw⟩ := hcounting.trans h
    have hend : w ++ [')', ')', '\n'] = (y ++ [')']) ++ ['\n'] := by
      rw [← hw]
      simp
    exact absurd ⟨w, by simpa using hend⟩ hclosed

/-- Nothing before the command that prints the response body is in the text. -/
def Stops (t : Text) : Prop :=
  ∀ z, ResponseLabel.Prints (t ++ z) → ResponseLabel.Prints z

theorem stops_cons {d : Char} (hd : isBlank d = false) (he : d ≠ 'e') (t : Text) :
    Stops (d :: t) := by
  rintro z ⟨b, y, hb, h⟩
  obtain _ | ⟨c, b⟩ := b
  · exact absurd (List.head_eq_of_cons_eq h) he
  · obtain rfl : d = c := List.head_eq_of_cons_eq h
    exact absurd (hb d (by simp)) (by simp [hd])

/-- A text that begins like a test case and ends like a request. -/
def CaseLike (t : Text) : Prop :=
  (∃ u, t = '#' :: u) ∧ Closed t

theorem CaseLike.stops {t : Text} (h : CaseLike t) : Stops t := by
  obtain ⟨⟨u, rfl⟩, _⟩ := h
  exact stops_cons (by decide) (by decide) u

theorem CaseLike.logs {names : Names} {s t : Text} (h : CaseLike s)
    (hlogs : BodilessRequest.Logs names s t) : CaseLike t := by
  obtain ⟨⟨u, rfl⟩, hend, hclosed⟩ := h
  obtain ⟨u', hu', _⟩ := BodilessRequest.Logs.of_append_left (x := ['#']) (by decide) hlogs
  exact ⟨⟨u', hu'⟩, (hlogs.suffix_iff (by decide)).mpr hend,
    fun h => hclosed ((hlogs.suffix_iff (by decide)).mp h)⟩

theorem CaseLike.status {s t : Text} (h : CaseLike s)
    (hsteps : Relation.ReflTransGen SuccessMessage.StatusStep s t) : CaseLike t := by
  obtain ⟨hhead, hend, hclosed⟩ := h
  refine ⟨?_, (SuccessMessage.suffix_iff_of_steps hsteps (by decide)).mpr hend,
    fun h => hclosed ((SuccessMessage.suffix_iff_of_steps hsteps (by decide)).mp h)⟩
  induction hsteps with
  | refl => exact hhead
  | tail _ hstep ih =>
    obtain ⟨u, rfl⟩ := ih
    exact hstep.eq_cons (by decide)

theorem caseLike_bodyCase (b : BodyCase) : CaseLike ((bodyCase b).withVariable names).text := by
  refine ⟨⟨_, rfl⟩, ?_⟩
  have hsplit : ((bodyCase b).withVariable names).text =
      (b.header.text ++ (b.call.inserted names ++ (b.call.front ++
        (options ++ ('"' :: '$' :: names.bodyVar))))) ++ ['"', ')', '\n'] := by
    simp [withVariable, Shell.variableWord, Shell.doubleQuoted]
  rw [hsplit]
  exact closed_append (by decide) _

theorem caseLike_bodilessCase (b : BodilessCase) : CaseLike b.text := by
  refine ⟨⟨_, rfl⟩, ?_⟩
  obtain ⟨p, x, hpath⟩ : ∃ p x, b.address.path = p ++ [x] :=
    ⟨_, _, (List.dropLast_concat_getLast b.address.path_ne_nil).symm⟩
  have hx : x ≠ ')' := by
    have hmem := (b.address.inPath_of_mem x (by simp [hpath])).2
    rintro rfl
    exact hmem (by decide)
  have hsplit : b.text = (b.header.text ++ (CurlCall.opening ++ (b.option ++ (CurlCall.urlOpening ++
      (b.address.service ++ '/' :: p))))) ++ [x, ')', '\n'] := by
    show b.header.text ++ ((CurlCall.opening ++ (b.option ++ (CurlCall.urlOpening ++
      (b.address.service ++ '/' :: b.address.path)))) ++ [')', '\n']) = _
    rw [hpath]
    simp only [List.append_assoc, List.cons_append, List.nil_append]
  rw [hsplit]
  exact closed_append hx _

/-! ### Success messages and other lines -/

theorem withLogs_success (s : Success) : (success s).withLogs names = ⟨s.text, 0⟩ := by
  have hindent : '#' ∉ Success.indent := by decide
  have hcounting : '#' ∉ ResponseLabel.counting := by decide
  have hmessage : '#' ∉ SuccessMessage.message s.id SuccessMessage.plainClosing :=
    SuccessMessage.notMem_message s.id (by decide) (by decide) (by decide)
  have hprinting : '#' ∉ s.printing := by
    have hcommand : '#' ∉ ResponseLabel.printing Success.indent ++ Success.filter := by decide
    unfold Success.printing
    split
    · exact hcommand
    · exact List.not_mem_nil
  refine BodilessRequest.annotate_of_notMem ?_
  show '#' ∉ s.textWith SuccessMessage.plainClosing
  simp [Success.textWith, hindent, hcounting, hmessage, hprinting]

theorem withStatus_success (s : Success) :
    (success s).withStatus names = ⟨s.textWith SuccessMessage.statusClosing, 1⟩ := by
  have quiet (t : Text) (ht : Text.occurs Shell.echoOption t = false) :
      SuccessMessage.annotate t = ⟨t, 0⟩ := by
    refine edit_of_find?_eq_none _ (SuccessMessage.beginsWith_echoOption.find?_eq_none fun h => ?_)
    exact absurd (Text.occurs_iff_infix.mpr h) (ne_true_of_eq_false ht)
  have hbelow : Text.occurs Shell.echoOption
      ('\n' :: (Success.indent ++ (ResponseLabel.counting ++ '\n' :: s.printing))) = false := by
    unfold Success.printing
    cases s.printed <;> decide
  have hindent : Text.occurs Shell.echoOption Success.indent = false := by decide
  rw [withStatus, withLogs_success, Success.text, Success.textWith, SuccessMessage.annotate_plain,
    quiet _ hbelow, quiet _ hindent]
  ext1 <;> simp [Success.textWith]

theorem withLogs_filler (f : Filler) : (filler f).withLogs names = ⟨f.text, 0⟩ :=
  BodilessRequest.annotate_of_find?_eq_none (BodilessRequest.find?_line f.newline_notMem)

theorem echoOption_not_infix_filler (f : Filler) : ¬ Shell.echoOption <:+: f.text := by
  have hnewline : '\n' ∉ Shell.echoOption := by decide
  have hnil : ¬ Shell.echoOption <:+: [] := by decide
  rw [Filler.text, Text.infix_append_cons hnewline, ← Text.occurs_iff_infix, f.echo_notIn, not_or]
  exact ⟨by decide, hnil⟩

theorem withStatus_filler (f : Filler) : (filler f).withStatus names = ⟨f.text, 0⟩ := by
  rw [withStatus, withLogs_filler]
  exact edit_of_find?_eq_none _
    (SuccessMessage.beginsWith_echoOption.find?_eq_none (echoOption_not_infix_filler f))

theorem stops_success (s : Success) (closing : Text) : Stops (s.textWith closing) := by
  rintro z ⟨b, y, hb, h⟩
  have hopening : ∃ w, SuccessMessage.opening = "echo ".toList ++ '-' :: w :=
    ⟨"e \"$\x7bGREEN\x7d✓ ".toList, by decide⟩
  obtain ⟨w, hw⟩ := hopening
  have hcommand : ResponseLabel.bodyCommand =
      "echo ".toList ++ '"' :: "$RESPONSE_BODY\" | jq".toList := by decide
  have hindent : ∀ c ∈ Success.indent, isBlank c = true := by decide
  have hline : Success.indent ++ ("echo ".toList ++ '-' :: (w ++ (s.id.text ++ (closing ++
      '\n' :: (Success.indent ++ (ResponseLabel.counting ++ '\n' :: s.printing)) ++ z)))) =
      b ++ ("echo ".toList ++ '"' :: ("$RESPONSE_BODY\" | jq".toList ++ y)) := by
    rw [hcommand, Success.textWith, SuccessMessage.message, hw] at h
    simpa only [List.append_assoc, List.cons_append] using h
  have hhead (u : Text) : ∀ c ∈ ("echo ".toList ++ u).head?, isBlank c = false := by
    intro c hc
    obtain rfl : 'e' = c := Option.some.inj hc
    decide
  obtain ⟨_, htail⟩ := run_unique_of_head? hline hindent hb (hhead _) (hhead _)
  exact absurd (List.head_eq_of_cons_eq (List.append_cancel_left htail)) (by decide)

theorem stops_filler (f : Filler) : Stops f.text := by
  rintro z ⟨b, y, hb, h⟩
  have hcommand : '\n' ∉ ResponseLabel.bodyCommand := by decide
  have hline : b ++ (ResponseLabel.bodyCommand ++ y) = f.line ++ '\n' :: z := by
    rw [← h, Filler.text, List.append_assoc]
    rfl
  rcases Text.char_cases hline with ⟨t, rfl, rfl⟩ | ⟨w, hw, hbelow⟩
  · exact ⟨t, y, fun c hc => hb c (by simp [hc]), rfl⟩
  · rcases Text.char_cases hbelow with ⟨t, ht, _⟩ | ⟨w, rfl, _⟩
    · exact absurd (ht ▸ by simp) hcommand
    · have hprefix : "echo \"$RESPONSE_BODY\"".toList <+: ResponseLabel.bodyCommand := by decide
      have hinfix : "echo \"$RESPONSE_BODY\"".toList <:+: f.line := by
        rw [hw]
        exact hprefix.isInfix.trans ⟨b, w, by simp⟩
      exact absurd (Text.occurs_iff_infix.mpr hinfix) (ne_true_of_eq_false f.printing_notIn)

/-- The text goes on only into a command that prints the response body. -/
def Ends (t : Text) : Prop :=
  ∀ z, ¬ ResponseLabel.Prints z → ResponseLabel.pattern.Seam t z

theorem ends_success (s : Success) (closing : Text) : Ends (s.textWith closing) := by
  intro z hz
  -- the last line ends with a parenthesis or with a full stop
  have hend (a : Text) {c : Char} (hquote : c ≠ '"') (hblank : isBlank c = false) :
      ResponseLabel.pattern.Seam (a ++ [c] ++ ['\n']) z := by
    refine ResponseLabel.seam_line_end (fun h => ?_) (fun d hd h => ?_) fun _ => hz
    · exact hquote (Text.eq_of_suffix_concat h).symm
    · rw [Text.eq_of_suffix_concat h, hblank] at hd
      exact absurd hd (by decide)
  have hfilter : Success.filter = [' ', '.'] ++ ['\n'] := by decide
  rw [Success.textWith, Success.printing]
  cases s.printed with
  | false =>
    have h := hend (Success.indent ++ (SuccessMessage.message s.id closing ++
      '\n' :: (Success.indent ++ ResponseLabel.openCounting))) (c := ')') (by decide) (by decide)
    rw [ResponseLabel.counting_eq]
    simpa using h
  | true =>
    have h := hend (Success.indent ++ (SuccessMessage.message s.id closing ++
      '\n' :: (Success.indent ++ (ResponseLabel.counting ++ '\n' ::
        (ResponseLabel.printing Success.indent ++ [' ']))))) (c := '.') (by decide) (by decide)
    rw [hfilter]
    simpa using h

theorem ends_filler (f : Filler) : Ends f.text := fun z _ =>
  ResponseLabel.beginsWith_echoOption.seam (by decide) (echoOption_not_infix_filler f) z

/-! ## All passes -/

theorem wholeLines_withLogs (block : Block) : ∃ y, (block.withLogs names).text = y ++ ['\n'] := by
  have whole {t : Text} (h : CaseLike t) : ∃ y, t = y ++ ['\n'] := by
    obtain ⟨_, ⟨y, rfl⟩, _⟩ := h
    exact ⟨y ++ [')'], by simp⟩
  cases block with
  | bodyCase b => exact whole ((caseLike_bodyCase names b).logs (BodilessRequest.logs_annotate _ _))
  | bodilessCase b =>
    exact whole ((caseLike_bodilessCase b).logs (BodilessRequest.logs_annotate _ _))
  | success s =>
    rw [withLogs_success]
    rcases s.wholeLines SuccessMessage.plainClosing with h | h
    · exact absurd h (List.cons_ne_nil ' ' _)
    · exact h
  | filler f =>
    rw [withLogs_filler]
    exact ⟨f.line, rfl⟩

theorem stops_ends_withStatus (block : Block) :
    Stops (block.withStatus names).text ∧ Ends (block.withStatus names).text := by
  have case {t : Text} (h : CaseLike t) :
      Stops (SuccessMessage.annotate t).text ∧ Ends (SuccessMessage.annotate t).text := by
    have hlike := h.status (SuccessMessage.steps_annotate t).1
    exact ⟨hlike.stops, fun z _ => hlike.2.seam⟩
  cases block with
  | bodyCase b => exact case ((caseLike_bodyCase names b).logs (BodilessRequest.logs_annotate _ _))
  | bodilessCase b =>
    exact case ((caseLike_bodilessCase b).logs (BodilessRequest.logs_annotate _ _))
  | success s =>
    rw [withStatus_success]
    exact ⟨stops_success s _, ends_success s _⟩
  | filler f =>
    rw [withStatus_filler]
    exact ⟨stops_filler f, ends_filler f⟩

theorem seams_label {ts : List Text} (h : ∀ t ∈ ts, Stops t ∧ Ends t) :
    ResponseLabel.pattern.Seams ts ∧ ¬ ResponseLabel.Prints ts.flatten := by
  induction ts with
  | nil =>
    refine ⟨trivial, ?_⟩
    rintro ⟨b, y, _, h⟩
    have hcommand : ResponseLabel.bodyCommand ≠ [] := by decide
    simp [hcommand] at h
  | cons t ts ih =>
    obtain ⟨hseams, hprints⟩ := ih fun u hu => h u (by simp [hu])
    obtain ⟨hstops, hends⟩ := h t (by simp)
    exact ⟨⟨hends _ hprints, hseams⟩, fun hp => hprints (hstops _ hp)⟩

theorem annotate_withVariable (blocks : List Block) :
    BodilessRequest.annotate names (Edited.join (blocks.map (withVariable names))).text =
      Edited.join (blocks.map (withLogs names)) := by
  refine edit_join BodilessRequest.not_takes_nil _ (BodilessRequest.seams_of_apart fun t ht => ?_)
  obtain ⟨block, _, rfl⟩ := List.mem_map.mp ht
  exact apart_withVariable names block

theorem annotate_withLogs (blocks : List Block) :
    SuccessMessage.annotate (Edited.join (blocks.map (withLogs names))).text =
      Edited.join (blocks.map (withStatus names)) := by
  refine edit_join SuccessMessage.not_takes_nil _ (seams_message fun t ht => ?_)
  obtain ⟨block, _, rfl⟩ := List.mem_map.mp ht
  exact wholeLines_withLogs names block

theorem annotate_withStatus (blocks : List Block) :
    ResponseLabel.annotate names (Edited.join (blocks.map (withStatus names))).text =
      Edited.join (blocks.map (withLabel names)) := by
  have hblocks : ∀ t ∈ blocks.map fun block => (block.withStatus names).text,
      Stops t ∧ Ends t := by
    intro t ht
    obtain ⟨block, _, rfl⟩ := List.mem_map.mp ht
    exact stops_ends_withStatus names block
  exact edit_join ResponseLabel.not_takes_nil _ (seams_label hblocks).1

end Block

/-- Annotated scripts in a row, with their counts together. -/
def Annotated.join (xs : List Annotated) : Annotated where
  text := (xs.map (·.text)).flatten
  report := .ofCounts fun pass => (xs.map (·.report.count pass)).sum

namespace Block

variable (names : Names)

theorem laterPasses_join (blocks : List Block) :
    laterPasses names (Edited.join (blocks.map (withVariable names))).text =
      ⟨(Edited.join (blocks.map (withLabel names))).text, 0,
        (Edited.join (blocks.map (withLogs names))).count,
        (Edited.join (blocks.map (withStatus names))).count,
        (Edited.join (blocks.map (withLabel names))).count⟩ := by
  simp only [laterPasses, Pass.run, annotate_withVariable, annotate_withLogs, annotate_withStatus]

/-- The four passes over one block. -/
theorem runPasses_text (block : Block) : runPasses names block.text =
    ⟨(block.withLabel names).text, (block.withVariable names).count, (block.withLogs names).count,
      (block.withStatus names).count, (block.withLabel names).count⟩ := by
  simp only [runPasses, Pass.run, annotate_text]
  rfl

/-- The blocks one by one are what the later passes make of the blocks after the first. -/
theorem join_runPasses (blocks : List Block) :
    Annotated.join (blocks.map fun block => runPasses names block.text) =
      { text := (laterPasses names (Edited.join (blocks.map (withVariable names))).text).text
        report :=
          { (laterPasses names (Edited.join (blocks.map (withVariable names))).text).report with
            bodyRequests := (Edited.join (blocks.map (withVariable names))).count } } := by
  rw [laterPasses_join]
  simp only [runPasses_text, Annotated.join, Edited.join, List.map_map]
  rfl

/-- A script is annotated block by block. -/
theorem runPasses_source {blocks : List Block} (h : Tight blocks) :
    runPasses names (source blocks) =
      Annotated.join (blocks.map fun block => runPasses names block.text) := by
  rw [join_runPasses, runPasses_eq_laterPasses, annotate_source names h]

end Block

/-! ## Scripts with a body that leaks -/

/-- None of the passes changes the first character of a text. -/
theorem head?_laterPasses (names : Names) (s : Text) :
    (laterPasses names s).text.head? = s.head? := by
  have hbodiless (s : Text) : (BodilessRequest.annotate names s).text.head? = s.head? := by
    refine head?_edit BodilessRequest.not_takes_nil fun before m rest h => ?_
    obtain ⟨l, k, c, rfl, hannotated, _⟩ := BodilessRequest.exists_request_of_find? h
    rw [hannotated]
    cases l with
    | nil => exact ⟨'\n', _, _, rfl, rfl⟩
    | cons d l => exact ⟨d, _, _, rfl, rfl⟩
  have hmessage (s : Text) : (SuccessMessage.annotate s).text.head? = s.head? := by
    refine head?_edit SuccessMessage.not_takes_nil fun before m rest h => ?_
    obtain ⟨i, rfl, hstatus⟩ := SuccessMessage.exists_message_of_find? h
    rw [hstatus]
    exact ⟨'e', _, _, rfl, rfl⟩
  have hlabel (s : Text) : (ResponseLabel.annotate names s).text.head? = s.head? := by
    refine head?_edit ResponseLabel.not_takes_nil fun before m rest h => ?_
    obtain ⟨i, b, b', _, _, rfl, hannotated⟩ := ResponseLabel.exists_of_find? h
    rw [hannotated]
    exact ⟨'e', _, _, rfl, rfl⟩
  exact (hlabel _).trans ((hmessage _).trans (hbodiless _))

section

variable {names : Names} (hvar : ' ' ∉ names.bodyVar)
include hvar

/-- Behind the quote that opens a body the passes begin again. -/
theorem text_laterPasses {x : Text} (hx : Text.WholeLines x) : ∃ x', ∀ z,
    (laterPasses names (x ++ (names.bodyVar ++ '=' :: '\'' :: z))).text =
      x' ++ '\'' :: (laterPasses names z).text := by
  have hname : ¬ TestCase.markOpening <:+: (names.bodyVar ++ ['=']) ++ ['\''] := by
    have hblank : ' ' ∉ (names.bodyVar ++ ['=']) ++ ['\''] := by simp [hvar]
    exact fun h => hblank (h.subset (by decide))
  have hmessage (t : Text) (ht : SuccessMessage.pattern.Takes t) : '\'' ∉ t := by
    obtain ⟨i, rfl⟩ := SuccessMessage.takes_pattern.mp ht
    exact SuccessMessage.quote_notMem_message i
  refine ⟨(ResponseLabel.annotate names (SuccessMessage.annotate
    ((BodilessRequest.annotate names x).text ++ (names.bodyVar ++ ['=']))).text).text, fun z => ?_⟩
  have hbodiless :
      (BodilessRequest.annotate names (x ++ (names.bodyVar ++ '=' :: '\'' :: z))).text =
        ((BodilessRequest.annotate names x).text ++ (names.bodyVar ++ ['='])) ++
          '\'' :: (BodilessRequest.annotate names z).text := by
    obtain ⟨hcase, hcall⟩ := BodilessRequest.not_opens_assignment hvar z
    have hopens := BodilessRequest.beginsWith_markOpening.edit_append BodilessRequest.not_takes_nil
      (fun m => (BodilessRequest.ofMatch m).annotated names) (by decide) hname z
    rw [BodilessRequest.annotate_append (BodilessRequest.seam_wholeLines hx hcase hcall),
      List.append_cons, BodilessRequest.annotate.eq_def names (_ ++ '\'' :: z), hopens]
    simp [BodilessRequest.annotate]
  simp only [laterPasses, Pass.run, hbodiless, SuccessMessage.annotate, ResponseLabel.annotate,
    edit_of_notMem SuccessMessage.not_takes_nil _ hmessage,
    edit_of_notMem ResponseLabel.not_takes_nil _ fun _ => ResponseLabel.quote_notMem,
    Edited.text_append, List.singleton_append]

namespace Block

/-- A script is annotated block by block exactly if no body that leaks has a quote behind it. -/
theorem runPasses_source_iff {blocks : List Block} :
    runPasses names (source blocks) =
      Annotated.join (blocks.map fun block => runPasses names block.text) ↔ Tight blocks := by
  refine ⟨fun h => Classical.byContradiction fun hnot => ?_, runPasses_source names⟩
  obtain ⟨l, b, r, rfl, hleaks, hquote, hl⟩ := exists_of_not_tight hnot
  obtain ⟨t, ht⟩ := annotate_of_leaks names hl hleaks hquote
  -- the two texts agree as far as the quote before the body
  obtain ⟨u, hu⟩ : ∃ u, (Edited.join ((l ++ bodyCase b :: r).map (withVariable names))).text =
      ((Edited.join (l.map (withVariable names))).text ++ b.header.text) ++
        (names.bodyVar ++ '=' :: '\'' :: (b.body ++ u)) := by
    refine ⟨'\'' :: '\n' ::
      (Shell.command names.helper [b.method, b.call.url.text, '$' :: names.bodyVar] ++
        (b.call.front ++ (options ++ (Shell.variableWord names.bodyVar ++ ')' :: '\n' ::
          (Edited.join (r.map (withVariable names))).text)))), ?_⟩
    have hmethod : b.call.method = b.method := rfl
    have hbody : b.call.body = b.body := rfl
    simp [Edited.join, withVariable, Call.inserted, Shell.assignment, Shell.singleQuoted, hmethod,
      hbody]
  have hlines := b.header.wholeLines_append (Edited.join (l.map (withVariable names))).text
  obtain ⟨x', hx'⟩ := text_laterPasses hvar hlines
  rw [join_runPasses, runPasses_eq_laterPasses] at h
  have htexts := congrArg Annotated.text h
  dsimp only at htexts
  rw [hu, hx', ht, ← List.append_assoc, hx'] at htexts
  have hbehind := List.tail_eq_of_cons_eq (List.append_cancel_left htexts)
  have hheads := congrArg List.head? hbehind
  rw [head?_laterPasses, head?_laterPasses] at hheads
  obtain ⟨d, body, hbody⟩ := List.exists_cons_of_ne_nil b.body_ne_nil
  rw [hbody] at hheads
  obtain rfl : ')' = d := Option.some.inj hheads
  exact hleaks.2 (by simp [hbody])

end Block

end

end CurlLog
