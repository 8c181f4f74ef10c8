import CurlLog.Proofs.Script.BodilessRequest
import CurlLog.Proofs.Script.ResponseLabel
import CurlLog.Proofs.Script.Shell
import Mathlib.Logic.Relation

/-!
# The lines that log requests without a body

The pass over requests without a body only adds lines, each in front of a request that stands at
the start of a line. `LogStep` adds one such line, and the pass is a chain of these steps
(`logs_annotate`). What one step leaves as it is, the whole pass leaves as it is.
-/

namespace CurlLog.BodilessRequest

open Pattern

/-- A line that logs a request is put before it. -/
inductive LogStep (names : Names) : Text → Text → Prop where
  | mk (a : Text) (c : Call) (r : Text) :
    LogStep names (a ++ '\n' :: (c.text ++ r)) (a ++ '\n' :: (c.logLine names ++ (c.text ++ r)))

/-- Any number of lines are put before the requests that they log. -/
abbrev Logs (names : Names) : Text → Text → Prop :=
  Relation.ReflTransGen (LogStep names)

variable {names : Names} {s t : Text}

theorem LogStep.append_left (h : LogStep names s t) (x : Text) :
    LogStep names (x ++ s) (x ++ t) := by
  obtain ⟨a, c, r⟩ := h
  rw [← List.append_assoc, ← List.append_assoc]
  exact ⟨x ++ a, c, r⟩

theorem LogStep.append_right (h : LogStep names s t) (x : Text) :
    LogStep names (s ++ x) (t ++ x) := by
  obtain ⟨a, c, r⟩ := h
  simp only [List.append_assoc, List.cons_append]
  exact ⟨a, c, r ++ x⟩

theorem Logs.append_left (h : Logs names s t) (x : Text) : Logs names (x ++ s) (x ++ t) :=
  h.lift (x ++ ·) fun _ _ hstep => hstep.append_left x

theorem Logs.append_right (h : Logs names s t) (x : Text) : Logs names (s ++ x) (t ++ x) :=
  h.lift (· ++ x) fun _ _ hstep => hstep.append_right x

/-- The pass adds lines that log requests, and does nothing else. -/
theorem logs_annotate (names : Names) (s : Text) : Logs names s (annotate names s).text := by
  rw [annotate, text_edit]
  fun_induction cut pattern s with
  | case1 s h => exact .refl
  | case2 s before m rest h hm => exact .refl
  | case3 s before m rest h hm c ih =>
    obtain ⟨l, k, call, rfl, hannotated, _⟩ := exists_request_of_find? h
    rw [Cut.replace_cons, hannotated]
    have hrest := ih.append_left (before ++ (l ++ '\n' :: (k ++ '\n' :: call.text)))
    have hstep : LogStep names _ _ := .mk (before ++ (l ++ '\n' :: k)) call
      ((cut pattern rest).replace fun m => (ofMatch m).annotated names)
    simp only [List.append_assoc, List.cons_append] at hrest hstep ⊢
    exact hrest.tail hstep

/-- A step that starts behind a text without a line end leaves that text in front. -/
theorem LogStep.of_append_left {x : Text} (hx : '\n' ∉ x) (h : LogStep names (x ++ s) t) :
    ∃ t', t = x ++ t' ∧ LogStep names s t' := by
  generalize hxs : x ++ s = u at h
  obtain ⟨a, c, r⟩ := h
  rcases Text.char_cases hxs with ⟨w, rfl, _⟩ | ⟨w, rfl, rfl⟩
  · simp at hx
  · exact ⟨w ++ '\n' :: (c.logLine names ++ (c.text ++ r)), by simp, w, c, r⟩

/-- A step that ends behind a text without a line end had that text in front. -/
theorem LogStep.eq_append_left {x : Text} (hx : '\n' ∉ x) (h : LogStep names s (x ++ t)) :
    ∃ s', s = x ++ s' ∧ LogStep names s' t := by
  generalize hxt : x ++ t = u at h
  obtain ⟨a, c, r⟩ := h
  rcases Text.char_cases hxt with ⟨w, rfl, _⟩ | ⟨w, rfl, rfl⟩
  · simp at hx
  · exact ⟨w ++ '\n' :: (c.text ++ r), by simp, w, c, r⟩

theorem Logs.of_append_left {x : Text} (hx : '\n' ∉ x) (h : Logs names (x ++ s) t) :
    ∃ t', t = x ++ t' ∧ Logs names s t' := by
  induction h with
  | refl => exact ⟨s, rfl, .refl⟩
  | tail _ hstep ih =>
    obtain ⟨t', rfl, ht⟩ := ih
    obtain ⟨t'', rfl, ht'⟩ := hstep.of_append_left hx
    exact ⟨t'', rfl, ht.tail ht'⟩

theorem Logs.eq_append_left {x : Text} (hx : '\n' ∉ x) (h : Logs names s (x ++ t)) :
    ∃ s', s = x ++ s' ∧ Logs names s' t := by
  generalize hxt : x ++ t = u at h
  induction h generalizing t with
  | refl => exact ⟨t, hxt.symm, .refl⟩
  | tail _ hstep ih =>
    obtain ⟨t', rfl, ht⟩ := LogStep.eq_append_left hx (hxt ▸ hstep)
    obtain ⟨s', hs, ht'⟩ := ih rfl
    exact ⟨s', hs, ht'.tail ht⟩

/-- A text does not get shorter. -/
theorem Logs.length_le (h : Logs names s t) : s.length ≤ t.length := by
  induction h with
  | refl => exact Nat.le_refl _
  | tail _ hstep ih =>
    obtain ⟨a, c, r⟩ := hstep
    simp only [List.length_append, List.length_cons] at ih ⊢
    omega

theorem LogStep.last_line {x l : Text} (h : LogStep names s t) (hs : s = x ++ (l ++ ['\n']))
    (hl : '\n' ∉ l) : ∃ y, t = y ++ (l ++ ['\n']) := by
  obtain ⟨a, c, r⟩ := h
  have heq : (x ++ l) ++ ['\n'] = a ++ '\n' :: (c.text ++ r) := by
    rw [hs, List.append_assoc]
  rcases Text.char_cases heq with ⟨z, hxl, hz⟩ | ⟨w, _, hw⟩
  · rcases Text.char_cases hxl with ⟨z', rfl, rfl⟩ | ⟨w, _, rfl⟩
    · exact ⟨a ++ '\n' :: (c.logLine names ++ z'), by simp [hz]⟩
    · simp at hl
  · obtain ⟨z, hz⟩ := c.text_cons
    have hlen := congrArg List.length hw
    rw [hz] at hlen
    simp only [List.length_append, List.length_cons, List.length_nil] at hlen
    omega

/-- The end of a text stays its end. -/
theorem LogStep.suffix_iff (h : LogStep names s t) {e : Text}
    (he : e.length ≤ CurlCall.opening.length) : e <:+ t ↔ e <:+ s := by
  obtain ⟨a, c, r⟩ := h
  have hlen : e.length ≤ (c.text ++ r).length := by
    simp only [Call.text, List.length_append]
    omega
  rw [List.append_cons, ← List.append_assoc, Text.suffix_append_iff hlen, List.append_cons a,
    Text.suffix_append_iff hlen]

theorem Logs.suffix_iff (h : Logs names s t) {e : Text} (he : e.length ≤ CurlCall.opening.length) :
    e <:+ t ↔ e <:+ s := by
  induction h with
  | refl => rfl
  | tail _ hstep ih => rw [hstep.suffix_iff he, ih]

/-- New lines stand in front of others, so the last line stays the last. -/
theorem Logs.last_line {x l : Text} (h : Logs names (x ++ (l ++ ['\n'])) t) (hl : '\n' ∉ l) :
    ∃ y, t = y ++ (l ++ ['\n']) := by
  induction h with
  | refl => exact ⟨x, rfl⟩
  | tail _ hstep ih =>
    obtain ⟨y, hy⟩ := ih
    exact hstep.last_line hy hl

/-! ## What stands in an inserted line -/

/-- After the first blank of the line comes the method. -/
theorem logLine_eq (names : Names) (c : Call) :
    ∃ t, c.logLine names = names.helper ++ ' ' :: '"' :: 'G' :: t :=
  ⟨_, by simp [Call.logLine, Shell.command, Shell.doubleQuoted]; rfl⟩

/-- Its characters are those of the logging function, of the address and of the command. -/
theorem notMem_logLine (c : Call) {d : Char} (hd : d ∉ "GET \"\n".toList) (hname : d ∉ names.helper)
    (hurl : d ∉ c.url.text) : d ∉ c.logLine names := by
  have hG : "GET \"\n".toList = ['G', 'E', 'T', ' ', '"', '\n'] := by decide
  simp only [hG, List.mem_cons, List.not_mem_nil, or_false, not_or] at hd
  obtain ⟨hG, hE, hT, hblank, hquote, hnewline⟩ := hd
  rw [Call.logLine, Shell.command_eq, List.mem_append, not_or]
  refine ⟨Shell.notMem_call hname ?_ hblank hquote, by simp [hnewline]⟩
  simp [hurl, hG, hE, hT]

/-- New lines bring no other characters. -/
theorem LogStep.notMem (h : LogStep names s t) {d : Char} (hd : d ∉ "GET \"\n".toList)
    (hname : d ∉ names.helper) (hs : d ∉ s) : d ∉ t := by
  obtain ⟨a, c, r⟩ := h
  simp only [List.mem_append, List.mem_cons, not_or] at hs ⊢
  refine ⟨hs.1, hs.2.1, notMem_logLine c hd hname (fun hurl => hs.2.2.1 ?_), hs.2.2⟩
  simp [Call.text, hurl]

theorem Logs.notMem (h : Logs names s t) {d : Char} (hd : d ∉ "GET \"\n".toList)
    (hname : d ∉ names.helper) (hs : d ∉ s) : d ∉ t := by
  induction h with
  | refl => exact hs
  | tail _ hstep ih => exact hstep.notMem hd hname ih

section

variable (hhelper : Shell.IsIdentifier names.helper) (c : Call)
include hhelper

theorem logLine_cons : ∃ d t, c.logLine names = d :: t ∧ isBlank d = false ∧ d ≠ '-' := by
  obtain ⟨d, t, hd, hblank, hminus⟩ := hhelper.exists_cons
  obtain ⟨t', hline⟩ := logLine_eq names c
  exact ⟨d, t ++ ' ' :: '"' :: 'G' :: t', by rw [hline, hd]; rfl, hblank, hminus⟩

/-- The line ends where its only line end stands. -/
theorem logLine_newline : ∃ l, c.logLine names = l ++ ['\n'] ∧ '\n' ∉ l := by
  refine ⟨_, Shell.command_eq _ _, Shell.notMem_call (hhelper.notMem (by decide)) ?_ (by decide)
    (by decide)⟩
  have hurl : '\n' ∉ c.url.text := c.url.notMem_of_isBlank (by decide)
  simp [hurl]

/-- Behind a blank of the line stands a quote. -/
theorem blank_not_infix_logLine {d : Char} (hd : d ≠ '"') : ¬ [' ', d] <:+: c.logLine names := by
  refine Shell.blank_not_infix_command (hhelper.notMem (by decide)) ?_ hd
  have hurl : ' ' ∉ c.url.text := c.url.notMem_of_isBlank (by decide)
  simp [hurl]

/-- The line has no text in green. -/
theorem not_green_logLine {x y : Text} : c.logLine names ≠ x ++ (SuccessMessage.opening ++ y) := by
  intro h
  have hopening : SuccessMessage.opening =
      "echo".toList ++ ([' ', '-'] ++ "e \"$\x7bGREEN\x7d✓ ".toList) := by decide
  refine blank_not_infix_logLine hhelper c (d := '-') (by decide)
    ⟨x ++ "echo".toList, "e \"$\x7bGREEN\x7d✓ ".toList ++ y, ?_⟩
  rw [h, hopening]
  simp only [List.append_assoc]

/-- The line has no mark of a test case. -/
theorem mark_not_infix_logLine (i : TestCase.Id) : ¬ i.mark <:+: c.logLine names := by
  intro h
  obtain ⟨t, ht⟩ := i.mark_eq_opening
  have hblank : [' ', 'T'] <:+: i.mark := ⟨['#'], "C-".toList ++ t, by rw [ht]; rfl⟩
  exact blank_not_infix_logLine hhelper c (by decide) (hblank.trans h)

end

/-! ## What the other passes see of a step -/

section

variable (hhelper : Shell.IsIdentifier names.helper)
include hhelper

theorem find?_logLine_successMessage (c : Call) :
    SuccessMessage.pattern.find? (c.logLine names) = none := by
  refine find?_eq_none_iff_takes.mpr fun before t rest hs ht => ?_
  obtain ⟨i, rfl⟩ := SuccessMessage.takes_pattern.mp ht
  rw [SuccessMessage.message, List.append_assoc, List.append_assoc] at hs
  exact not_green_logLine hhelper c hs

theorem find?_logLine_responseLabel (c : Call) :
    ResponseLabel.pattern.find? (c.logLine names) = none := by
  refine find?_eq_none_iff_takes.mpr fun before t rest hs ht => ?_
  obtain ⟨i, b, b', _, _, rfl⟩ := ResponseLabel.takes_pattern.mp ht
  rw [ResponseLabel.lead, SuccessMessage.message, List.append_assoc, List.append_assoc,
    List.append_assoc, List.append_assoc] at hs
  exact not_green_logLine hhelper c hs

/-- A pattern with seams around the new line, and none of its texts in it, is found as often. -/
theorem LogStep.count_edit {α : Type} {p : Pattern α} (hp : ¬ p.Takes []) (f : Match α → Text)
    (hcall : ∀ (x : Text) (c : Call) (r : Text), p.Seam (x ++ ['\n']) (c.text ++ r))
    (hline : ∀ (x : Text) (c : Call) (r : Text), p.Seam (x ++ ['\n']) (c.logLine names ++ r))
    (hnone : ∀ c : Call, p.find? (c.logLine names) = none) (h : LogStep names s t) :
    (p.edit f t).count = (p.edit f s).count := by
  obtain ⟨a, c, r⟩ := h
  obtain ⟨l, hend, _⟩ := logLine_newline hhelper c
  have hback : p.Seam (c.logLine names) (c.text ++ r) := hend ▸ hcall l c r
  rw [List.append_cons a _ (c.logLine names ++ _), List.append_cons a _ (c.text ++ r),
    edit_append hp f (hline a c _), edit_append hp f hback, edit_append hp f (hcall a c r),
    edit_of_find?_eq_none f (hnone c)]
  simp

/-- A new line neither brings nor takes a success message. -/
theorem Logs.count_successMessage (h : Logs names s t) :
    (SuccessMessage.annotate t).count = (SuccessMessage.annotate s).count := by
  induction h with
  | refl => rfl
  | tail _ hstep ih =>
    rw [← ih]
    exact hstep.count_edit hhelper SuccessMessage.not_takes_nil _
      (fun x _ _ => SuccessMessage.seam_newline x _) (fun x _ _ => SuccessMessage.seam_newline x _)
      (find?_logLine_successMessage hhelper)

omit hhelper in
theorem seam_call_responseLabel (x : Text) (c : Call) (r : Text) :
    ResponseLabel.pattern.Seam (x ++ ['\n']) (c.text ++ r) := by
  obtain ⟨t, ht⟩ := c.text_cons
  rw [ht]
  refine ResponseLabel.seam_line ?_ (fun z hz => ?_) (fun z hz => ?_)
  · intro d hd
    obtain rfl : 'R' = d := Option.some.inj hd
    decide
  · exact absurd (List.head_eq_of_cons_eq hz) (by decide)
  · exact absurd (List.head_eq_of_cons_eq hz) (by decide)

theorem seam_logLine_responseLabel (x : Text) (c : Call) (r : Text) :
    ResponseLabel.pattern.Seam (x ++ ['\n']) (c.logLine names ++ r) := by
  obtain ⟨d, t, hcons, hblank, _⟩ := logLine_cons hhelper c
  obtain ⟨l, hend, hl⟩ := logLine_newline hhelper c
  obtain ⟨t', hline⟩ := logLine_eq names c
  refine ResponseLabel.seam_line ?_ (fun z hz => ?_) (fun z hz => ?_)
  · intro e he
    rw [hcons] at he
    obtain rfl : d = e := Option.some.inj he
    exact hblank
  · -- the line has blanks, and the one that counts has none
    rw [hend, List.append_assoc] at hz
    have hcounting : '\n' ∉ ResponseLabel.counting := by decide
    obtain ⟨rfl, _⟩ := Text.first_unique hcounting hl hz
    have hmem : ' ' ∈ ResponseLabel.counting ++ ['\n'] := by
      rw [← hend, hline]
      simp
    exact absurd hmem (by decide)
  · have hcommand : ResponseLabel.bodyCommand =
        "echo".toList ++ ' ' :: '"' :: '$' :: "RESPONSE_BODY\" | jq".toList := by decide
    have hecho : ' ' ∉ "echo".toList := by decide
    rw [hline, hcommand, List.append_assoc, List.append_assoc] at hz
    obtain ⟨_, hz⟩ := Text.first_unique hecho (hhelper.notMem (by decide)) hz
    exact absurd (List.head_eq_of_cons_eq (List.tail_eq_of_cons_eq hz)) (by decide)

/-- A new line neither brings nor takes a printed response body. -/
theorem Logs.count_responseLabel (h : Logs names s t) :
    (ResponseLabel.pattern.cut t).count = (ResponseLabel.pattern.cut s).count := by
  induction h with
  | refl => rfl
  | tail _ hstep ih =>
    rw [← ih]
    refine (count_edit_eq_iff (ResponseLabel.annotated names)).mp ?_
    exact hstep.count_edit hhelper ResponseLabel.not_takes_nil _ seam_call_responseLabel
      (seam_logLine_responseLabel hhelper) (find?_logLine_responseLabel hhelper)

theorem Logs.find?_responseLabel (h : Logs names s t)
    (hs : ResponseLabel.pattern.find? s = none) : ResponseLabel.pattern.find? t = none := by
  have hcount := (count_edit_eq_iff (ResponseLabel.annotated names)).mpr
    (h.count_responseLabel hhelper)
  rw [← count_edit_eq_zero_iff ResponseLabel.not_takes_nil] at hs ⊢
  rw [hcount, hs]

end

end CurlLog.BodilessRequest
