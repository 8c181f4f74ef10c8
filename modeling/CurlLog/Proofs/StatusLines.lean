import CurlLog.Proofs.LogLines

/-!
# Status codes in the texts of headers

A success message can stand in the comment or in the title of a test case, and the status code is
then put into the header of a request. The pass over requests without a body does not notice: a
header with the status in one of its lines is still a header, of the same request.

* `marked_status` and `titled_status` say so for the lines of a header.
* `keepsStatus` follows the pass over a text and the same text with a status.
-/

namespace CurlLog

open Pattern

namespace TestCase

open SuccessMessage

theorem Id.dollar_notMem_mark (i : Id) : '$' ∉ i.mark :=
  i.notMem_mark (by decide) (by decide) (by decide)

theorem Id.paren_notMem_mark (i : Id) : '(' ∉ i.mark :=
  i.notMem_mark (by decide) (by decide) (by decide)

theorem Id.dollar_notMem_title (i : Id) : '$' ∉ i.title :=
  i.notMem_title (by decide) (by decide) (by decide)

theorem Id.paren_notMem_title (i : Id) : '(' ∉ i.title :=
  i.notMem_title (by decide) (by decide) (by decide)

theorem status_eq : status = ' ' :: '(' :: "HTTP: $HTTP_CODE)".toList := by
  decide

theorem Id.numberSign_mem_mark (i : Id) : '#' ∈ i.mark := by
  simp [mark]

theorem infix_status (i : Id) (p : Text) : i.mark <:+: p ++ status ↔ i.mark <:+: p := by
  rw [status_eq, List.append_cons, Text.infix_append_cons i.paren_notMem_mark,
    List.infix_concat_iff]
  constructor
  · rintro ((⟨x, hx⟩ | h) | ⟨x, y, hx⟩)
    · obtain ⟨t, ht⟩ := i.mark_eq
      rw [ht, ← List.append_assoc] at hx
      exact absurd (List.append_inj' hx rfl).2 (by decide)
    · exact h
    · have hmem : '#' ∈ "HTTP: $HTTP_CODE)".toList := hx ▸ by simp [i.numberSign_mem_mark]
      exact absurd hmem (by decide)
  · intro h
    exact Or.inl (Or.inr h)

/-- A status in a line does not change whether the line has a mark. -/
theorem marked_status (p q : Text) :
    Marked (p ++ (status ++ '$' :: q)) ↔ Marked (p ++ '$' :: q) := by
  simp only [marked_iff, ← List.append_assoc, Text.infix_append_cons (Id.dollar_notMem_mark _),
    infix_status]

theorem titled_iff {p q : Text} :
    Titled (p ++ '$' :: q) ↔ (∃ i : Id, i.title <+: p) ∧ ∃ y, '$' :: q = y ++ ['"'] := by
  constructor
  · rintro ⟨i, z, h⟩
    have hend : p ++ '$' :: q = (i.title ++ z) ++ ['"'] := by rw [h, List.append_assoc]
    obtain ⟨y, hy, _⟩ := Text.last_cases hend (by simp)
    refine ⟨⟨i, ?_⟩, y, hy⟩
    rcases Text.char_cases h.symm with ⟨t, ht, _⟩ | ⟨w, rfl, _⟩
    · exact absurd (ht ▸ by simp) i.dollar_notMem_title
    · exact List.prefix_append _ _
  · rintro ⟨⟨i, z, rfl⟩, y, hy⟩
    exact ⟨i, z ++ y, by rw [hy]; simp⟩

theorem prefix_status (i : Id) (p : Text) : i.title <+: p ++ status ↔ i.title <+: p := by
  constructor
  · rintro ⟨z, hz⟩
    rw [status_eq, List.append_cons] at hz
    rcases Text.char_cases hz with ⟨t, ht, _⟩ | ⟨w, hw, _⟩
    · exact absurd (ht ▸ by simp) i.paren_notMem_title
    · have hprefix : i.title <+: p ++ [' '] := ⟨w, hw.symm⟩
      rcases List.prefix_concat_iff.mp hprefix with heq | h
      · obtain ⟨t, ht⟩ := i.title_eq
        rw [ht] at heq
        exact absurd (List.append_inj' heq rfl).2 (by decide)
      · exact h
  · exact fun h => h.trans (List.prefix_append _ _)

/-- A status in a line does not change whether the line prints a title. -/
theorem titled_status (p q : Text) :
    Titled (p ++ (status ++ '$' :: q)) ↔ Titled (p ++ '$' :: q) := by
  simp only [← List.append_assoc, titled_iff, prefix_status]

end TestCase

namespace BodilessRequest

open SuccessMessage TestCase

variable {names : Names}

/-! ## Requests in front of a message -/

/-- No word of a request begins like the word with which a message ends. -/
theorem Call.passed_not_infix (c : Call) : ¬ [' ', 'P'] <:+: c.text := by
  have hoption : Text.occurs [' ', 'P'] (CurlCall.opening ++ c.option) = false := by
    have : ∀ w ∈ ["-X GET ".toList, []],
        Text.occurs [' ', 'P'] (CurlCall.opening ++ w) = false := by decide
    exact this _ c.option_mem
  have hurl : ' ' ∉ c.url.text := c.url.notMem_of_isBlank (by decide)
  rintro ⟨x, y, h⟩
  rw [Call.text, ← List.append_assoc] at h
  obtain ⟨u, hu⟩ : ∃ u, c.url.text = '$' :: u := ⟨_, rfl⟩
  rw [hu] at h hurl
  rcases Text.word_cases (by decide) (h.symm.trans (List.append_assoc _ _ _)) (by simp) with
    ⟨z, hz, _⟩ | ⟨x', _, hx'⟩
  · rw [← List.append_assoc] at hz
    simp [Text.occurs_iff.mpr ⟨x, z, hz⟩] at hoption
  · exact hurl (by simp [hx'])

/-- A request does not end in white space. -/
theorem Call.not_blank_end (c : Call) {e : Text} : c.text ≠ e ++ [' '] := by
  intro h
  obtain ⟨w, hw, _⟩ := Text.last_cases (u := CurlCall.opening ++ c.option) (v := c.url.text)
    (by rw [← h, Call.text, List.append_assoc]) c.url.text_ne_nil
  have hurl : ' ' ∉ c.url.text := c.url.notMem_of_isBlank (by decide)
  exact hurl (by simp [hw])

/-- A request that begins before the last word of a message ends before it. -/
theorem Call.ends_before_passed {c : Call} {r e z : Text} (h : c.text ++ r = e ++ (passed ++ z)) :
    ∃ r', e = c.text ++ r' ∧ r = r' ++ (passed ++ z) := by
  have hpassed : passed = ' ' :: 'P' :: "ASSED".toList := by decide
  have hcons : c.text ++ r = e ++ ' ' :: ('P' :: "ASSED".toList ++ z) := by rw [h, hpassed]; rfl
  rcases Text.char_cases hcons with ⟨t, ht, hz⟩ | ⟨r', he, hr⟩
  · obtain _ | ⟨d, t⟩ := t
    · exact absurd ht c.not_blank_end
    · obtain rfl : 'P' = d := List.head_eq_of_cons_eq hz
      exact absurd ⟨e, t, by simp [ht]⟩ c.passed_not_infix
  · exact ⟨r', he, by rw [hr, hpassed]; rfl⟩

/-! ## The pass over a text and the same text with a status -/

/-- Two texts that are one line and equal, or whose last lines are equal. -/
def SameEnd (e x : Text) : Prop :=
  (e = x ∧ '\n' ∉ e) ∨ ∃ p q l, '\n' ∉ l ∧ e = p ++ '\n' :: l ∧ x = q ++ '\n' :: l

theorem SameEnd.of_newline_notMem {e : Text} (h : '\n' ∉ e) : SameEnd e e := Or.inl ⟨rfl, h⟩

/-- A line before the end of one text, and other lines before the end of the other. -/
theorem SameEnd.append {e x : Text} (h : SameEnd e x) (p q : Text) {l : Text} (hl : '\n' ∉ l) :
    SameEnd (p ++ '\n' :: (l ++ e)) (q ++ '\n' :: (l ++ x)) := by
  rcases h with ⟨rfl, he⟩ | ⟨p', q', l', hl', rfl, rfl⟩
  · exact Or.inr ⟨p, q, l ++ e, by simp [hl, he], rfl, rfl⟩
  · exact Or.inr ⟨p ++ '\n' :: (l ++ p'), q ++ '\n' :: (l ++ q'), l', hl', by simp, by simp⟩

/-- What stands on the last line of one text stands there in the other. -/
theorem SameEnd.exists_append {e x l : Text} (h : SameEnd (e ++ l) x) (hl : '\n' ∉ l) :
    ∃ x', x = x' ++ l := by
  rcases h with ⟨rfl, _⟩ | ⟨p, q, l', hl', heq, rfl⟩
  · exact ⟨e, rfl⟩
  · rcases Text.char_cases heq with ⟨t, _, rfl⟩ | ⟨w, _, rfl⟩
    · exact ⟨q ++ '\n' :: t, by simp⟩
    · simp at hl

/-- Two beginnings of a line that agree on marks make no difference to the rest of the text. -/
theorem annotate_first_line (names : Names) {l l' : Text} (z : Text) (hl : '\n' ∉ l)
    (hl' : '\n' ∉ l') (hmark : ∀ w, Marked (l ++ w) ↔ Marked (l' ++ w)) :
    ∃ y n, annotate names (l ++ z) = ⟨l ++ y, n⟩ ∧ annotate names (l' ++ z) = ⟨l' ++ y, n⟩ := by
  by_cases hz : '\n' ∈ z
  · obtain ⟨w, s, rfl, hw⟩ := List.eq_append_cons_of_mem hz
    have hlw : '\n' ∉ l ++ w := by simp [hl, hw]
    have hlw' : '\n' ∉ l' ++ w := by simp [hl', hw]
    rw [← List.append_assoc, ← List.append_assoc]
    by_cases h : Marked (l ++ w) ∧ OpensCase s
    · obtain ⟨k, c, r, rfl, hk, htitle, hr⟩ := h.2.exists_call
      rw [annotate_request names c hlw h.1 hk htitle hr,
        annotate_request names c hlw' ((hmark w).mp h.1) hk htitle hr]
      refine ⟨w ++ '\n' :: (k ++ '\n' :: (c.logLine names ++ c.text)) ++
        (annotate names r).text, 1 + (annotate names r).count, ?_, ?_⟩ <;> ext1 <;> simp
    · have hnone : Marked (l ++ w) → ¬ OpensCase s := fun hm hs => h ⟨hm, hs⟩
      rw [annotate_line hlw hnone, annotate_line hlw' fun hm => hnone ((hmark w).mpr hm)]
      refine ⟨w ++ '\n' :: (annotate names s).text, (annotate names s).count, ?_, ?_⟩ <;>
        ext1 <;> simp
  · refine ⟨z, 0, ?_, ?_⟩
    · exact annotate_of_find?_eq_none (find?_of_newline_notMem (by simp [hl, hz]))
    · exact annotate_of_find?_eq_none (find?_of_newline_notMem (by simp [hl', hz]))

/-- Where a title with a request opens a text with a message in it. -/
theorem opensCase_iff {e m z : Text} (hm : '\n' ∉ m) :
    OpensCase (e ++ (passed ++ (m ++ z))) ↔
      ('\n' ∉ e ∧ ∃ w c r, z = w ++ '\n' :: (Call.text c ++ r) ∧ '\n' ∉ w ∧
        Titled (e ++ (passed ++ (m ++ w))) ∧ ∀ x ∈ r.head?, inPath x = false) ∨
      ∃ k c r, e = k ++ '\n' :: (Call.text c ++ r) ∧ '\n' ∉ k ∧ Titled k ∧
        ∀ x ∈ (r ++ passed).head?, inPath x = false := by
  have hpassed : '\n' ∉ passed := by decide
  constructor
  · intro h
    obtain ⟨k, c, r, heq, hk, htitle, hr⟩ := h.exists_call
    rcases Text.char_cases heq with ⟨t, rfl, ht⟩ | ⟨w, rfl, hw⟩
    · obtain ⟨r', rfl, rfl⟩ := Call.ends_before_passed ht
      refine Or.inr ⟨k, c, r', rfl, hk, htitle, fun x hx => hr x ?_⟩
      cases r' <;> exact hx
    · rw [← List.append_assoc] at hw
      rcases Text.char_cases hw with ⟨t, ht, _⟩ | ⟨w', rfl, rfl⟩
      · exact absurd (ht ▸ by simp) (show '\n' ∉ passed ++ m by simp [hpassed, hm])
      · simp only [List.mem_append, not_or] at hk
        refine Or.inl ⟨hk.1, w', c, r, rfl, hk.2.2, ?_, hr⟩
        simpa only [List.append_assoc] using htitle
  · rintro (⟨he, w, c, r, rfl, hw, htitle, _⟩ | ⟨k, c, r, rfl, hk, htitle, _⟩)
    · exact ⟨e ++ (passed ++ (m ++ w)), c, r, by simp, by simp [he, hpassed, hm, hw], htitle⟩
    · exact ⟨k, c, r ++ (passed ++ (m ++ z)), by simp, hk, htitle⟩

theorem newline_notMem_greenClosing : '\n' ∉ Shell.greenClosing := by
  decide

theorem newline_notMem_status : '\n' ∉ status := by
  decide

/-- A status in a message does not change whether its line prints a title. -/
theorem titled_message (e w : Text) :
    Titled (e ++ (passed ++ (status ++ (Shell.greenClosing ++ w)))) ↔
      Titled (e ++ (passed ++ (Shell.greenClosing ++ w))) := by
  have h := titled_status (e ++ passed) ("\x7bNC\x7d\"".toList ++ w)
  have hgreen : Shell.greenClosing = '$' :: "\x7bNC\x7d\"".toList := by decide
  simpa only [hgreen, List.append_assoc, List.cons_append] using h

/-- A status in a message does not change whether its line has a mark. -/
theorem marked_message (e w : Text) :
    Marked (e ++ (passed ++ (status ++ (Shell.greenClosing ++ w)))) ↔
      Marked (e ++ (passed ++ (Shell.greenClosing ++ w))) := by
  have h := marked_status (e ++ passed) ("\x7bNC\x7d\"".toList ++ w)
  have hgreen : Shell.greenClosing = '$' :: "\x7bNC\x7d\"".toList := by decide
  simpa only [hgreen, List.append_assoc, List.cons_append] using h

/-- A status in a message does not open a test case, nor keep one from being opened. -/
theorem opensCase_status {e z : Text} :
    OpensCase (e ++ (passed ++ (status ++ (Shell.greenClosing ++ z)))) ↔
      OpensCase (e ++ (passed ++ (Shell.greenClosing ++ z))) := by
  have hm : '\n' ∉ status ++ Shell.greenClosing := by
    simp [newline_notMem_status, newline_notMem_greenClosing]
  rw [← List.append_assoc status, opensCase_iff hm, opensCase_iff newline_notMem_greenClosing]
  simp only [List.append_assoc, titled_message]

/-- The pass makes the same of a text with a status between `e` and `z`, apart from the status. -/
def KeepsStatus (names : Names) (e z : Text) : Prop :=
  ∃ x y n, SameEnd e x ∧
    annotate names (e ++ (passed ++ (Shell.greenClosing ++ z))) =
      ⟨x ++ (passed ++ (Shell.greenClosing ++ y)), n⟩ ∧
    annotate names (e ++ (passed ++ (status ++ (Shell.greenClosing ++ z)))) =
      ⟨x ++ (passed ++ (status ++ (Shell.greenClosing ++ y))), n⟩

namespace KeepsStatus

variable {e l : Text}

/-- The message stands on the first line of the text. -/
theorem of_first_line (names : Names) (he : '\n' ∉ e) (z : Text) : KeepsStatus names e z := by
  have hpassed : '\n' ∉ passed := by decide
  have hgreen := newline_notMem_greenClosing
  have hmark (w : Text) : Marked ((e ++ (passed ++ Shell.greenClosing)) ++ w) ↔
      Marked ((e ++ (passed ++ (status ++ Shell.greenClosing))) ++ w) := by
    simpa only [List.append_assoc] using (marked_message e w).symm
  obtain ⟨y, n, hplain, hnoted⟩ := annotate_first_line names z
    (show '\n' ∉ e ++ (passed ++ Shell.greenClosing) by simp [he, hpassed, hgreen])
    (show '\n' ∉ e ++ (passed ++ (status ++ Shell.greenClosing)) by
      simp [he, hpassed, newline_notMem_status, hgreen]) hmark
  simp only [List.append_assoc] at hplain hnoted
  exact ⟨e, y, n, .of_newline_notMem he, hplain, hnoted⟩

/-- The message stands behind a line that opens no test case. -/
theorem line (hl : '\n' ∉ l) {z : Text}
    (h : Marked l → ¬ OpensCase (e ++ (passed ++ (Shell.greenClosing ++ z))))
    (hrest : KeepsStatus names e z) : KeepsStatus names (l ++ '\n' :: e) z := by
  obtain ⟨x, y, n, hend, hplain, hnoted⟩ := hrest
  refine ⟨l ++ '\n' :: x, y, n, hend.append l l (l := []) (by simp), ?_, ?_⟩
  · rw [List.append_assoc, List.cons_append, annotate_line hl h, hplain]
    ext1 <;> simp
  · rw [List.append_assoc, List.cons_append,
      annotate_line hl fun hm hs => h hm (opensCase_status.mp hs), hnoted]
    ext1 <;> simp

/-- The message stands in the title of a test case. -/
theorem title (hl : '\n' ∉ l) (hmark : Marked l) (he : '\n' ∉ e) {w r : Text} (c : Call)
    (hw : '\n' ∉ w) (htitle : Titled (e ++ (passed ++ (Shell.greenClosing ++ w))))
    (hr : ∀ x ∈ r.head?, inPath x = false) :
    KeepsStatus names (l ++ '\n' :: e) (w ++ '\n' :: (c.text ++ r)) := by
  have hpassed : '\n' ∉ passed := by decide
  have hgreen := newline_notMem_greenClosing
  have hk : '\n' ∉ e ++ (passed ++ (Shell.greenClosing ++ w)) := by
    simp [he, hpassed, hgreen, hw]
  have hk' : '\n' ∉ e ++ (passed ++ (status ++ (Shell.greenClosing ++ w))) := by
    simp [he, hpassed, newline_notMem_status, hgreen, hw]
  have hplain := annotate_request names c hl hmark hk htitle hr
  have hnoted := annotate_request names c hl hmark hk' ((titled_message e w).mpr htitle) hr
  simp only [List.append_assoc] at hplain hnoted
  refine ⟨l ++ '\n' :: e, w ++ '\n' :: (c.logLine names ++ (c.text ++ (annotate names r).text)),
    1 + (annotate names r).count, (SameEnd.of_newline_notMem he).append l l (l := []) (by simp),
    ?_, ?_⟩
  · simp only [List.append_assoc, List.cons_append]
    rw [hplain]
    ext1 <;> simp
  · simp only [List.append_assoc, List.cons_append]
    rw [hnoted]
    ext1 <;> simp

/-- The message stands behind the request of a test case. -/
theorem behind (hhelper : Shell.IsIdentifier names.helper) (hl : '\n' ∉ l) (hmark : Marked l)
    {k r z : Text} (c : Call) (hk : '\n' ∉ k) (htitle : Titled k)
    (hr : ∀ x ∈ (r ++ passed).head?, inPath x = false) (hrest : KeepsStatus names r z) :
    KeepsStatus names (l ++ '\n' :: (k ++ '\n' :: (c.text ++ r))) z := by
  obtain ⟨x, y, n, hend, hplain, hnoted⟩ := hrest
  obtain ⟨line, hline, _⟩ := logLine_newline hhelper c
  have hhead (m : Text) : ∀ d ∈ (r ++ (passed ++ m)).head?, inPath d = false := by
    intro d hd
    refine hr d ?_
    cases r <;> exact hd
  have hrequest (m : Text) := annotate_request names c hl hmark hk htitle (hhead m)
  refine ⟨l ++ '\n' :: (k ++ '\n' :: (c.logLine names ++ (c.text ++ x))), y, 1 + n, ?_, ?_, ?_⟩
  · have hsame := hend.append (l ++ '\n' :: k) (l ++ '\n' :: (k ++ '\n' :: line))
      c.newline_notMem_text
    simpa [hline] using hsame
  · simp only [List.append_assoc, List.cons_append]
    rw [hrequest, hplain]
    ext1 <;> simp
  · simp only [List.append_assoc, List.cons_append]
    rw [hrequest, hnoted]
    ext1 <;> simp

end KeepsStatus

/-- The pass makes the same of a text with a status in a message, apart from the status. -/
theorem keepsStatus (hhelper : Shell.IsIdentifier names.helper) (e z : Text) :
    KeepsStatus names e z := by
  by_cases he : '\n' ∈ e
  · obtain ⟨l, e', rfl, hl⟩ := List.eq_append_cons_of_mem he
    by_cases h : Marked l ∧ OpensCase (e' ++ (passed ++ (Shell.greenClosing ++ z)))
    · rcases (opensCase_iff newline_notMem_greenClosing).mp h.2 with
        ⟨he', w, c, r, rfl, hw, htitle, hr⟩ | ⟨k, c, r, rfl, hk, htitle, hr⟩
      · exact .title hl h.1 he' c hw htitle hr
      · exact .behind hhelper hl h.1 c hk htitle hr (keepsStatus hhelper r z)
    · exact .line hl (fun hm hs => h ⟨hm, hs⟩) (keepsStatus hhelper e' z)
  · exact .of_first_line names he z
termination_by e.length

/-- The pass takes a step of the next pass to such a step, and edits as many places. -/
theorem annotate_of_statusStep (hhelper : Shell.IsIdentifier names.helper) {s t : Text}
    (h : StatusStep s t) : StatusStep (annotate names s).text (annotate names t).text ∧
      (annotate names t).count = (annotate names s).count := by
  obtain ⟨a, i, b⟩ := h
  have hid : '\n' ∉ opening ++ i.text := by
    have hopening : '\n' ∉ opening := by decide
    have htext : '\n' ∉ i.text := i.notMem_text (by decide)
    simp [hopening, htext]
  obtain ⟨x, y, n, hend, hplain, hnoted⟩ := keepsStatus hhelper (a ++ (opening ++ i.text)) b
  obtain ⟨x, rfl⟩ := hend.exists_append hid
  have hstep := StatusStep.mk x i y
  simp only [message, plainClosing_eq, statusClosing_eq, List.append_assoc] at *
  rw [hplain, hnoted]
  exact ⟨hstep, rfl⟩

end BodilessRequest

end CurlLog
