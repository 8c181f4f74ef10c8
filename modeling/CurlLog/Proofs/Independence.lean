import CurlLog.Pass
import CurlLog.Proofs.Rewriting
import CurlLog.Proofs.StatusLines

/-!
# Passes that do not depend on the order
-/

namespace CurlLog

open Pattern

/--
Two edits of a text can be made in either order: the text comes out the same, and each of them
edits as many places.
-/
def Commute (f g : Text → Edited) (t : Text) : Prop :=
  (g (f t).text).text = (f (g t).text).text ∧
    (f (g t).text).count = (f t).count ∧ (g (f t).text).count = (g t).count

namespace BodilessRequest

variable {names : Names}

/-- White space is neither a title nor a request. -/
theorem not_opens_of_blank {b : Text} (h : ResponseLabel.Blank b) (z : Text) :
    ¬ OpensCase (b ++ z) ∧ ¬ OpensCall (b ++ z) := by
  obtain ⟨d, b, rfl⟩ := List.exists_cons_of_ne_nil h.1
  have hd := h.2 d (by simp)
  refine not_opens_of_ne ?_ ?_
  · rintro rfl
    exact absurd hd (by decide)
  · rintro rfl
    exact absurd hd (by decide)

/-! ## Labels of response bodies -/

/-- A message that is counted stays where it is. -/
theorem annotate_lead (x : Text) (i : TestCase.Id) {b : Text} (hb : ResponseLabel.Blank b) :
    ∃ y, (annotate names (x ++ ResponseLabel.lead i b)).text = y ++ ResponseLabel.lead i b := by
  have hcounting : '#' ∉ b ++ (ResponseLabel.counting ++ ['\n']) := by
    have hword : '#' ∉ ResponseLabel.counting ++ ['\n'] := by decide
    rw [List.mem_append, not_or]
    exact ⟨hb.notMem (by decide), hword⟩
  have hsplit (z : Text) : z ++ ResponseLabel.lead i b =
      (z ++ (SuccessMessage.message i SuccessMessage.statusClosing ++ ['\n'])) ++
        (b ++ (ResponseLabel.counting ++ ['\n'])) := by
    simp [ResponseLabel.lead]
  have hwhole : Text.WholeLines
      (x ++ (SuccessMessage.message i SuccessMessage.statusClosing ++ ['\n'])) := by
    rw [← List.append_assoc]
    exact Text.wholeLines_append_newline _
  obtain ⟨hcase, hcall⟩ := not_opens_of_blank hb (ResponseLabel.counting ++ ['\n'])
  obtain ⟨y, hy⟩ := (logs_annotate names _).last_line (x := x)
    (ResponseLabel.newline_notMem_message i)
  refine ⟨y, ?_⟩
  rw [hsplit, annotate_append (seam_wholeLines hwhole hcase hcall), annotate_of_notMem hcounting,
    Edited.text_append, hy, hsplit]

/-- The label stands on a line of its own. -/
theorem labelLine_eq (hlabel : '\n' ∉ names.responseLabel) :
    ∃ l, ResponseLabel.labelLine names = ' ' :: (l ++ ['\n']) ∧ '\n' ∉ ' ' :: l := by
  have hopening : '\n' ∉ Shell.greenOpening := by decide
  have hclosing : '\n' ∉ Shell.greenClosing := by decide
  refine ⟨"   ".toList ++ Shell.green names.responseLabel, rfl, ?_⟩
  simp [Shell.green, hopening, hclosing, hlabel]

/-- The pass goes over a printed response body as if it were not there, with a label or without. -/
theorem annotate_printed (hlabel : '\n' ∉ names.responseLabel) (x z : Text) (i : TestCase.Id)
    {b b' : Text} (hb' : ResponseLabel.Blank b') :
    annotate names (x ++ (ResponseLabel.lead i b ++ (ResponseLabel.printing b' ++ z))) =
      annotate names (x ++ ResponseLabel.lead i b) ++
        (⟨ResponseLabel.printing b', 0⟩ ++ annotate names z) ∧
    annotate names (x ++ (ResponseLabel.lead i b ++
        (ResponseLabel.labelLine names ++ ResponseLabel.printing b') ++ z)) =
      annotate names (x ++ ResponseLabel.lead i b) ++
        (⟨ResponseLabel.labelLine names ++ ResponseLabel.printing b', 0⟩ ++ annotate names z) := by
  have hprinting : '#' ∉ ResponseLabel.printing b' := by
    have hcommand : '#' ∉ ResponseLabel.bodyCommand := by decide
    rw [ResponseLabel.printing, List.mem_append, not_or]
    exact ⟨hb'.notMem (by decide), hcommand⟩
  have hlead : Text.WholeLines (x ++ ResponseLabel.lead i b) := by
    have h := Text.wholeLines_append_newline (x ++ (SuccessMessage.message i
      SuccessMessage.statusClosing ++ '\n' :: (b ++ ResponseLabel.counting)))
    simpa [ResponseLabel.lead] using h
  obtain ⟨hcase, hcall⟩ := not_opens_of_blank hb' (ResponseLabel.bodyCommand ++ z)
  rw [← List.append_assoc, ← ResponseLabel.printing] at hcase hcall
  have hrest : annotate names (ResponseLabel.printing b' ++ z) =
      ⟨ResponseLabel.printing b', 0⟩ ++ annotate names z := by
    rw [annotate_append (seam_of_notMem hprinting), annotate_of_notMem hprinting]
  obtain ⟨l, hl, hnewline⟩ := labelLine_eq hlabel
  constructor
  · rw [← List.append_assoc, annotate_append (seam_wholeLines hlead hcase hcall), hrest]
  · have hline : ResponseLabel.labelLine names = (' ' :: l) ++ ['\n'] := hl
    have hlabelled : pattern.Seam (x ++ ResponseLabel.lead i b)
        (ResponseLabel.labelLine names ++ (ResponseLabel.printing b' ++ z)) := by
      rw [hl]
      obtain ⟨hcase, hcall⟩ := not_opens_of_ne (d := ' ')
        (z := l ++ ['\n'] ++ (ResponseLabel.printing b' ++ z)) (by decide) (by decide)
      exact seam_wholeLines hlead hcase hcall
    have hbehind : pattern.Seam (ResponseLabel.labelLine names) (ResponseLabel.printing b' ++ z) :=
      seam_wholeLines (hline ▸ Text.wholeLines_append_newline _) hcase hcall
    have hlone : annotate names (ResponseLabel.labelLine names) =
        ⟨ResponseLabel.labelLine names, 0⟩ := by
      rw [hline]
      exact annotate_of_find?_eq_none (find?_line hnewline)
    have hassoc : x ++ (ResponseLabel.lead i b ++ (ResponseLabel.labelLine names ++
        ResponseLabel.printing b') ++ z) = (x ++ ResponseLabel.lead i b) ++
          (ResponseLabel.labelLine names ++ (ResponseLabel.printing b' ++ z)) := by
      simp only [List.append_assoc]
    rw [hassoc, annotate_append hlabelled, annotate_append hbehind, hrest, hlone]
    ext1 <;> simp

/-- Logging requests without a body and labelling response bodies can be done in either order. -/
theorem commute_responseLabel (hhelper : Shell.IsIdentifier names.helper)
    (hlabel : '\n' ∉ names.responseLabel) (t : Text) :
    Commute (annotate names) (ResponseLabel.annotate names) t := by
  induction t using ResponseLabel.printed_induction with
  | absent t h =>
    have h' := (logs_annotate names t).find?_responseLabel hhelper h
    rw [Commute, ResponseLabel.annotate_of_find?_eq_none h,
      ResponseLabel.annotate_of_find?_eq_none h']
    exact ⟨rfl, rfl, rfl⟩
  | first before i b b' rest hb hb' hbefore ih =>
    obtain ⟨htext, hcount, hcount'⟩ := ih
    obtain ⟨y, hy⟩ : ∃ y, (annotate names (before ++ ResponseLabel.lead i b)).text = _ :=
      annotate_lead before i hb
    -- the new lines before the message do not make another one
    have hy_none : ResponseLabel.pattern.find? y = none := by
      have hseam (x : Text) : ResponseLabel.pattern.Seam x (ResponseLabel.lead i b) := by
        simpa using ResponseLabel.seam_lead x [] i b
      have hlead : ResponseLabel.pattern.find? (before ++ ResponseLabel.lead i b) = none :=
        (find?_append_eq_none_iff (hseam before)).mpr ⟨hbefore, ResponseLabel.find?_lead i hb⟩
      have hnew := (logs_annotate names _).find?_responseLabel hhelper hlead
      rw [hy] at hnew
      exact ((find?_append_eq_none_iff (hseam y)).mp hnew).1
    have hft := (annotate_printed hlabel before rest i (b := b) hb').1
    have hfgt := (annotate_printed hlabel before (ResponseLabel.annotate names rest).text i
      (b := b) hb').2
    have hgt := ResponseLabel.annotate_first names hbefore rest i hb hb'
    have hgft := ResponseLabel.annotate_first names hy_none (annotate names rest).text i hb hb'
    rw [Commute, hft, hgt]
    simp only [Edited.text_append, Edited.count_append, hy, List.append_assoc] at hfgt hgft ⊢
    rw [hfgt, hgft]
    simp only [Edited.text_append, Edited.count_append, hy, htext, hcount, hcount',
      List.append_assoc]
    exact ⟨trivial, trivial, trivial⟩

/-! ## Status codes in messages -/

/-- Logging requests without a body and adding status codes can be done in either order. -/
theorem commute_successMessage (hhelper : Shell.IsIdentifier names.helper) (t : Text) :
    Commute (annotate names) SuccessMessage.annotate t := by
  obtain ⟨hsteps, hnone⟩ := SuccessMessage.steps_annotate t
  -- along the steps neither pass changes what it makes of the text in the end
  have hchain : ∀ s, Relation.ReflTransGen SuccessMessage.StatusStep t s →
      (SuccessMessage.annotate (annotate names t).text).text =
        (SuccessMessage.annotate (annotate names s).text).text ∧
      (annotate names s).count = (annotate names t).count := by
    intro s h
    induction h with
    | refl => exact ⟨rfl, rfl⟩
    | tail _ hstep ih =>
      obtain ⟨hstep', hcount⟩ := annotate_of_statusStep hhelper hstep
      rw [ih.1, SuccessMessage.text_annotate_of_step hstep', hcount]
      exact ⟨rfl, ih.2⟩
  obtain ⟨htext, hcount⟩ := hchain _ hsteps
  have hlogs (s : Text) := (logs_annotate names s).count_successMessage hhelper
  refine ⟨?_, hcount, hlogs t⟩
  rw [htext]
  refine text_edit_of_count_eq_zero ((hlogs _).trans ?_)
  exact (count_edit_eq_zero_iff SuccessMessage.not_takes_nil).mpr hnone

/-! ## Requests with a body -/

/-- In the front of a request only the gap gets new lines, and it stays a gap. -/
theorem exists_front (hhelper : Shell.IsIdentifier names.helper) (c : BodyRequest.Call) :
    ∃ c' : BodyRequest.Call, (annotate names c.front).text = c'.front ∧ c'.toLead = c.toLead ∧
      c'.body = c.body ∧ Logs names (c.gap ++ ['\n']) (c'.gap ++ ['\n']) := by
  obtain ⟨g, hfront, hlogs⟩ :=
    (logs_annotate names c.front).of_append_left c.toLead.newline_notMem_text
  obtain ⟨g, rfl⟩ := Logs.last_line (x := c.gap) (l := []) hlogs (by simp)
  have hne : g ≠ [] := by
    rintro rfl
    have hlen := hlogs.length_le
    have hgap := List.length_pos_iff.mpr c.gap_ne_nil
    simp only [List.length_append, List.length_cons, List.length_nil] at hlen
    omega
  have hparen : ')' ∉ g := by
    have hgap : ')' ∉ c.gap ++ ['\n'] := by
      simp [c.paren_notMem_gap]
    have h := hlogs.notMem (by decide) (hhelper.notMem (by decide)) hgap
    exact fun hmem => h (by simp [hmem])
  exact ⟨{ c with gap := g, gap_ne_nil := hne, paren_notMem_gap := hparen }, hfront, rfl, rfl,
    hlogs⟩

/-- A request with a body is still the next one after the new lines, and still plain. -/
theorem exists_nextCall (hhelper : Shell.IsIdentifier names.helper) {s a rest : Text}
    {c : BodyRequest.Call} (h : BodyRequest.nextCall s = some (a, c.toMatch, rest))
    (hplain : (c.request []).Plain) :
    ∃ c' : BodyRequest.Call, (annotate names c.front).text = c'.front ∧ c'.toLead = c.toLead ∧
      c'.body = c.body ∧ (c'.request []).Plain ∧
      BodyRequest.nextCall (annotate names s).text =
        some ((annotate names a).text, c'.toMatch, (annotate names rest).text) := by
  obtain ⟨c', hfront, hlead, hbody, hgap⟩ := exists_front hhelper c
  obtain ⟨hs, harmed, hwidest, hfree⟩ := BodyRequest.nextCall_eq_some_iff_free.mp h
  have hmark : ¬ TestCase.markOpening <:+: c.body := hplain.mark_not_infix
  have ha := logs_annotate names a
  have hrest := logs_annotate names rest
  have htail : Logs names (c.tail ++ rest) (c'.tail ++ (annotate names rest).text) := by
    rw [c.tail_eq, c'.tail_eq, hbody]
    exact (hgap.append_right _).append_right _ |>.trans (hrest.append_left _)
  have htext : Logs names (c.text ++ rest) (c'.text ++ (annotate names rest).text) := by
    rw [BodyRequest.Call.text, BodyRequest.Call.text, hlead, List.append_assoc, List.append_assoc]
    exact htail.append_left _
  refine ⟨c', hfront, hlead, hbody, ⟨?_, ?_⟩, ?_⟩
  · show Text.occurs TestCase.markOpening c'.body = false
    rw [hbody]
    exact hplain.mark
  · -- the quotes of the gap come from the text before
    have hquote := BodyRequest.Call.quote_notMem_front hplain.quotes
    have hfront' : '\'' ∉ c'.front ++ BodyRequest.options := by
      rw [List.mem_append, not_or] at hquote ⊢
      refine ⟨?_, hquote.2⟩
      rw [← hfront]
      exact (logs_annotate names c.front).notMem (by decide) (hhelper.notMem (by decide)) hquote.1
    show c'.text.count '\'' = 2
    rw [c'.count_quote, List.count_eq_zero.mpr hfront']
  · refine BodyRequest.nextCall_eq_some_iff_free.mpr ⟨?_, ?_, ?_, ?_⟩
    · rw [hs, annotate_call names harmed.wholeLines hmark, c'.text_eq_front, ← hfront, hbody]
      simp only [Edited.text_append, List.append_assoc]
    · exact (ha.armed_iff hhelper).mpr harmed
    · exact Logs.widest hhelper hwidest hbody htail hrest
    · exact ha.free hhelper htext hfree

/-- Logging requests of the two kinds can be done in either order. -/
theorem commute_bodyRequest (hhelper : Shell.IsIdentifier names.helper)
    (hvar : Shell.IsIdentifier names.bodyVar) (t : Text)
    (h : ∀ m ∈ (BodyRequest.forwardScan t).taken, (BodyRequest.ofMatch m).Plain) :
    Commute (BodyRequest.annotate names) (annotate names) t := by
  induction t using BodyRequest.forwardScan.induct with
  | case1 t hnone =>
    have hfree := (logs_annotate names t).free hhelper .refl
      (BodyRequest.nextCall_eq_none_iff_free.mp hnone)
    have hnone' := BodyRequest.nextCall_eq_none_iff_free.mpr hfree
    rw [Commute, BodyRequest.annotate_of_nextCall_eq_none hnone,
      BodyRequest.annotate_of_nextCall_eq_none hnone']
    exact ⟨rfl, rfl, rfl⟩
  | case2 t a m rest hnext _ ih =>
    obtain ⟨_, _, hmatch⟩ := BodyRequest.nextCall_sound hnext
    obtain ⟨c, rfl, _⟩ := BodyRequest.match?_call_sound hmatch
    rw [BodyRequest.forwardScan_of_eq_some hnext] at h
    obtain ⟨htext, hcount, hcount'⟩ := ih fun m hm => h m (List.mem_cons_of_mem _ hm)
    have hplain : (c.request []).Plain := by
      rw [← c.ofMatch_toMatch]
      exact h _ (by simp [Cut.taken])
    obtain ⟨c', hfront, hlead, hbody, hplain', hnext'⟩ := exists_nextCall hhelper hnext hplain
    obtain ⟨hs, harmed, _⟩ := BodyRequest.nextCall_eq_some_iff_free.mp hnext
    have hmark : ¬ TestCase.markOpening <:+: c.body := hplain.mark_not_infix
    have hinserted : c'.inserted names = c.inserted names := by
      rw [BodyRequest.Call.inserted, BodyRequest.Call.inserted, hlead, hbody]
    -- what the passes make of the text in the two orders
    have hf := BodyRequest.annotate_of_nextCall names hnext
    have hfg := BodyRequest.annotate_of_nextCall names hnext'
    have hg := annotate_call names harmed.wholeLines hmark rest
    have hgf := annotate_rewritten hhelper hvar harmed.wholeLines hmark
      (BodyRequest.annotate names rest).text
    rw [← hs] at hg
    rw [BodyRequest.Call.rewritten_request hplain.quotes] at hf
    rw [BodyRequest.Call.rewritten_request hplain'.quotes, hinserted, ← hfront] at hfg
    rw [Commute, hf, hfg]
    simp only [Edited.text_append, Edited.count_append, List.append_assoc] at hgf ⊢
    rw [hgf, hg]
    simp only [Edited.text_append, Edited.count_append, htext, hcount, hcount', List.append_assoc]
    exact ⟨trivial, trivial, by omega⟩

end BodilessRequest

namespace Pass

/--
The pass over requests without a body does not depend on the order. It can change places with the
pass over requests with a body if those are plain, and with the other two on every text.
-/
theorem bodilessRequests_commutes (names : Names) (hhelper : Shell.IsIdentifier names.helper)
    (hvar : Shell.IsIdentifier names.bodyVar) (hlabel : '\n' ∉ names.responseLabel) (t : Text) :
    ((∀ m ∈ (BodyRequest.pattern.cut t).taken, (BodyRequest.ofMatch m).Plain) →
      Commute (run names bodyRequests) (run names bodilessRequests) t) ∧
    Commute (run names bodilessRequests) (run names successMessages) t ∧
    Commute (run names bodilessRequests) (run names responseLabels) t :=
  ⟨fun h => BodilessRequest.commute_bodyRequest hhelper hvar t (BodyRequest.plain_callOf h),
    BodilessRequest.commute_successMessage hhelper t,
    BodilessRequest.commute_responseLabel hhelper hlabel t⟩

/-- A test case with a body, whose header begins in a test case without. -/
def mixedScript : Text :=
  "# TC-A-1:\necho \">>> TC-A-1:\"\nRESPONSE=$(curl -s -w \"\\n%\x7bhttp_code\x7d\" $BASE_URL_A/w)
# TC-A-2:\necho \">>> TC-A-2:\"
RESPONSE=$(curl -s -w \"\\n%\x7bhttp_code\x7d\" -X POST $BASE_URL_A/x \\
-H \"Content-Type: application/json\" \\\n-d 'y')\n".toList

theorem commute_mixedScript :
    (BodyRequest.pattern.cut mixedScript).count = 1 ∧
      Commute (run {} bodyRequests) (run {} bodilessRequests) mixedScript := by
  have hread : (BodyRequest.pattern.cut mixedScript).taken.map
      (fun m => ((BodyRequest.ofMatch m).body, decide (BodyRequest.ofMatch m).Plain)) =
        [(['y'], true)] := by
    rw [← scan_eq_cut]
    decide +kernel
  have hplain : ∀ m ∈ (BodyRequest.pattern.cut mixedScript).taken,
      (BodyRequest.ofMatch m).Plain := by
    intro m hm
    have hmem : ((BodyRequest.ofMatch m).body, decide (BodyRequest.ofMatch m).Plain) ∈
        [(['y'], true)] := hread ▸ List.mem_map.mpr ⟨m, hm, rfl⟩
    rw [List.mem_singleton, Prod.mk.injEq] at hmem
    exact of_decide_eq_true hmem.2
  refine ⟨?_,
    (bodilessRequests_commutes {} (by decide) (by decide) (by decide) mixedScript).1 hplain⟩
  have hlength := congrArg List.length hread
  simpa [Cut.taken, Cut.count] using hlength

end Pass

end CurlLog
