import CurlLog.Proofs.LaterPasses

/-!
# A variable in the place of a body

In a request that is rewritten the variable stands in double quotes wherever the quoted body stood
(`Shell.variableWord`). What the later passes find around it does not depend on the name of the
variable.

* To the two passes over messages a dollar sign behind a quote belongs to a message only if a brace
  follows it, or in the command that prints the response body. The latter does not come up unless
  that command has begun behind the line that counts a test case (`Awaits`).
* To the pass over requests without a body the variable can be a part of a title or of an address,
  which then are a title and an address with any other name (`count_variableWord`).
-/

namespace CurlLog

open Pattern TestCase

namespace Shell

theorem append_variableWord (a v z : Text) :
    a ++ (variableWord v ++ z) = (a ++ ['"']) ++ '$' :: (v ++ '"' :: z) := by
  simp [variableWord, doubleQuoted]

/-- A name does not begin like a variable in braces. -/
theorem IsIdentifier.append_ne_brace {v z t : Text} (hv : IsIdentifier v) : v ++ z ≠ '{' :: t := by
  obtain ⟨d, w, rfl⟩ := List.exists_cons_of_ne_nil hv.1
  intro h
  obtain rfl : d = '{' := List.head_eq_of_cons_eq h
  exact hv.notMem (c := '{') (by decide) (by simp)

theorem IsIdentifier.echoOption_not_infix {v : Text} (hv : IsIdentifier v) :
    ¬ echoOption <:+: '$' :: v ++ ['"'] := by
  intro h
  have hmem : ' ' ∈ '$' :: v ++ ['"'] := h.subset (by decide)
  simp [hv.notMem (c := ' ') (by decide)] at hmem

end Shell

/-! ## Messages -/

namespace SuccessMessage

/-- Behind the quote of a message no name follows the dollar sign. -/
theorem seam_variable {v : Text} (hv : Shell.IsIdentifier v) (a z : Text) :
    pattern.Seam (a ++ ['"']) ('$' :: (v ++ z)) := by
  intro x u w y ha hb hu hw ht
  obtain ⟨i, ht⟩ := takes_pattern.mp ht
  obtain ⟨u, rfl, _⟩ := Text.last_cases ha.symm hu
  obtain ⟨e, w, rfl⟩ := List.exists_cons_of_ne_nil hw
  obtain ⟨rfl, hname⟩ : '$' = e ∧ v ++ z = w ++ y := by simpa using hb
  obtain ⟨t, hmessage, hinner⟩ := message_eq_quoted i (c := []) (by simp)
  have hecho : '"' ∉ "echo -e ".toList := by decide
  have heq : u ++ '"' :: ('$' :: w) =
      "echo -e ".toList ++ '"' :: ('$' :: '{' :: t ++ '"' :: []) := by
    rw [← hmessage, List.nil_append, ← plainClosing_eq, ← ht]
    simp
  rcases Text.first_cases hecho heq with ⟨_, htail⟩ | ⟨u', _, hrest⟩
  · exact hv.append_ne_brace (hname.trans (congrArg (· ++ y) (List.tail_eq_of_cons_eq htail)))
  · rcases Text.first_cases hinner hrest.symm with ⟨_, hnil⟩ | ⟨u'', _, hnil⟩
    · exact List.cons_ne_nil _ _ hnil
    · simp at hnil

/-- The pass goes on behind the variable as if nothing stood before it. -/
theorem annotate_variableWord {v : Text} (hv : Shell.IsIdentifier v) (a z : Text) :
    annotate (a ++ (Shell.variableWord v ++ z)) =
      annotate (a ++ ['"']) ++ (⟨'$' :: v ++ ['"'], 0⟩ ++ annotate z) := by
  rw [Shell.append_variableWord, annotate_append (seam_variable hv a _), ← List.cons_append]
  exact congrArg (_ ++ ·) (beginsWith_echoOption.edit_append not_takes_nil _ (by decide)
    hv.echoOption_not_infix z)

end SuccessMessage

/-! ## Printed response bodies -/

namespace ResponseLabel

/-- The text ends with the command that prints a response body, behind the count. -/
def Awaits (a : Text) : Prop :=
  ∃ d b, isBlank d = true ∧ (∀ c ∈ b, isBlank c = true) ∧
    d :: (counting ++ '\n' :: (b ++ "echo ".toList)) <:+ a

/-- Only in the command that prints the response body a name follows a quote and a dollar sign. -/
theorem seam_variable {v a : Text} (hv : Shell.IsIdentifier v) (ha : ¬ Awaits a) (z : Text) :
    pattern.Seam (a ++ ['"']) ('$' :: (v ++ z)) := by
  intro x u w y hx hb hu hw ht
  obtain ⟨i, b, b', hb₁, hb₂, ht⟩ := takes_pattern.mp ht
  obtain ⟨u, rfl, hxu⟩ := Text.last_cases hx.symm hu
  obtain ⟨e, w, rfl⟩ := List.exists_cons_of_ne_nil hw
  obtain ⟨rfl, hname⟩ : '$' = e ∧ v ++ z = w ++ y := by simpa using hb
  obtain ⟨t, hmessage, hinner⟩ := SuccessMessage.message_eq_quoted i (c := SuccessMessage.status)
    (by decide)
  have hcommand : bodyCommand = "echo ".toList ++ '"' :: ("$RESPONSE_BODY".toList ++
      '"' :: " | jq".toList) := by decide
  have heq : u ++ '"' :: ('$' :: w) = "echo -e ".toList ++ '"' :: ('$' :: '{' :: t ++
      '"' :: (('\n' :: (b ++ (counting ++ '\n' :: (b' ++ "echo ".toList)))) ++
        '"' :: ("$RESPONSE_BODY".toList ++ '"' :: " | jq".toList))) := by
    have h := ht
    rw [lead, printing, SuccessMessage.statusClosing_eq, hmessage, hcommand] at h
    simpa using h
  have hecho : '"' ∉ "echo -e ".toList := by decide
  have hcount : '"' ∉ '\n' :: (b ++ (counting ++ '\n' :: (b' ++ "echo ".toList))) := by
    have hword : '"' ∉ counting := by decide
    simp [hb₁.notMem (c := '"') (by decide), hb₂.notMem (c := '"') (by decide), hword]
  have hbody : '"' ∉ "$RESPONSE_BODY".toList := by decide
  have hfilter : '"' ∉ " | jq".toList := by decide
  -- the four quotes of a printed response body, one after the other
  rcases Text.first_cases hecho heq with ⟨_, htail⟩ | ⟨u₁, rfl, hrest₁⟩
  · exact hv.append_ne_brace (hname.trans (congrArg (· ++ y) (List.tail_eq_of_cons_eq htail)))
  rcases Text.first_cases hinner hrest₁.symm with ⟨_, htail⟩ | ⟨u₂, rfl, hrest₂⟩
  · exact absurd (List.head_eq_of_cons_eq htail) (by decide)
  rcases Text.first_cases hcount hrest₂.symm with ⟨rfl, _⟩ | ⟨u₃, _, hrest₃⟩
  · refine ha ?_
    obtain ⟨b, d, rfl⟩ := (List.eq_nil_or_concat b).resolve_left hb₁.1
    refine ⟨d, b', hb₁.2 d (by simp), hb₂.2, ?_⟩
    rw [← hxu]
    exact ⟨x ++ ("echo -e ".toList ++ '"' :: ('$' :: '{' :: t ++ '"' :: '\n' :: b)), by simp⟩
  rcases Text.first_cases hbody hrest₃.symm with ⟨_, htail⟩ | ⟨u₄, _, hrest₄⟩
  · exact absurd (List.head_eq_of_cons_eq htail) (by decide)
  · exact hfilter (hrest₄ ▸ by simp)

theorem annotate_variableWord (names : Names) {v a : Text} (hv : Shell.IsIdentifier v)
    (ha : ¬ Awaits a) (z : Text) :
    annotate names (a ++ (Shell.variableWord v ++ z)) =
      annotate names (a ++ ['"']) ++ (⟨'$' :: v ++ ['"'], 0⟩ ++ annotate names z) := by
  rw [Shell.append_variableWord, annotate_append (seam_variable hv ha _), ← List.cons_append]
  exact congrArg (_ ++ ·) (beginsWith_echoOption.edit_append not_takes_nil _ (by decide)
    hv.echoOption_not_infix z)

namespace Awaits

variable {a a' : Text}

/-- What makes a text wait for the response body has no quotes. -/
theorem of_suffix (h : Awaits a) (hsuffix : ∀ e, '"' ∉ e → e <:+ a → e <:+ a') : Awaits a' := by
  obtain ⟨d, b, hd, hb, hend⟩ := h
  refine ⟨d, b, hd, hb, hsuffix _ ?_ hend⟩
  have hcounting : '"' ∉ counting := by decide
  have hecho : '"' ∉ "echo ".toList := by decide
  have hquote : isBlank '"' = false := by decide
  simp only [List.mem_cons, List.mem_append, not_or]
  refine ⟨?_, hcounting, by decide, fun h => by simp [hb _ h] at hquote, hecho⟩
  rintro rfl
  simp [hd] at hquote

theorem append_left (h : Awaits a) (x : Text) : Awaits (x ++ a) :=
  h.of_suffix fun _ _ he => he.trans (List.suffix_append x a)

theorem behind_quote {p q : Text} (h : Awaits (p ++ '"' :: q)) : Awaits q :=
  h.of_suffix fun _ hquote => (Text.suffix_append_cons hquote).mp

theorem eq_append_blank (h : Awaits a) : ∃ x, a = x ++ [' '] := by
  obtain ⟨d, b, _, _, x, rfl⟩ := h
  exact ⟨x ++ d :: (counting ++ '\n' :: (b ++ "echo".toList)), by simp⟩

end Awaits

end ResponseLabel

/-! ## Response bodies behind the pass over messages -/

namespace SuccessMessage

open ResponseLabel (Awaits)

/-- A status before a quote does not make the text wait for the response body. -/
theorem StatusStep.awaits {s t : Text} (h : StatusStep (s ++ ['"']) t) :
    ∃ s', t = s' ++ ['"'] ∧ (Awaits s' → Awaits s) := by
  generalize hs : s ++ ['"'] = u at h
  obtain ⟨x, i, y⟩ := h
  rcases List.eq_nil_or_concat y with rfl | ⟨y, c, rfl⟩
  · -- the quote is that of the message, which stands behind a brace
    have hclosing : statusClosing = " PASSED (HTTP: $HTTP_CODE)$\x7bNC".toList ++ ['}', '"'] := by
      decide
    refine ⟨x ++ (opening ++ (i.text ++ (" PASSED (HTTP: $HTTP_CODE)$\x7bNC".toList ++ ['}']))),
      by simp [message, hclosing], fun h => ?_⟩
    obtain ⟨w, hw⟩ := h.eq_append_blank
    have hlast :
        (x ++ (opening ++ (i.text ++ " PASSED (HTTP: $HTTP_CODE)$\x7bNC".toList))) ++ ['}'] =
          w ++ [' '] := by
      rw [← hw]
      simp only [List.append_assoc]
    simpa using (List.append_inj' hlast rfl).2
  · have hlast : s ++ ['"'] = (x ++ (message i plainClosing ++ y)) ++ [c] := by simp [hs]
    obtain ⟨rfl, hc⟩ := List.append_inj' hlast rfl
    obtain rfl : '"' = c := by simpa using hc
    have hstep : StatusStep _ _ := .mk x i y
    exact ⟨x ++ (message i statusClosing ++ y), by simp,
      fun h => h.of_suffix fun _ hquote => (hstep.suffix_iff hquote).mp⟩

theorem awaits_of_steps {s t : Text} (h : Relation.ReflTransGen StatusStep (s ++ ['"']) t) :
    ∃ s', t = s' ++ ['"'] ∧ (Awaits s' → Awaits s) := by
  induction h with
  | refl => exact ⟨s, rfl, id⟩
  | tail _ hstep ih =>
    obtain ⟨s', rfl, hs'⟩ := ih
    obtain ⟨s'', rfl, hs''⟩ := hstep.awaits
    exact ⟨s'', rfl, hs' ∘ hs''⟩

/-- What the pass makes of the two sides of a variable does not depend on its name. -/
theorem exists_text_variableWord (a z : Text) : ∃ a', (Awaits a' → Awaits a) ∧
    ∀ v, Shell.IsIdentifier v → (annotate (a ++ (Shell.variableWord v ++ z))).text =
      a' ++ (Shell.variableWord v ++ (annotate z).text) := by
  obtain ⟨a', ha', hawaits⟩ := awaits_of_steps (steps_annotate (a ++ ['"'])).1
  refine ⟨a', hawaits, fun v hv => ?_⟩
  rw [annotate_variableWord hv, Shell.append_variableWord, Edited.text_append, ha']
  simp

end SuccessMessage

/-! ## Requests without a body -/

namespace TestCase

/-- A mark has no quotes, and a name no number sign. -/
theorem marked_variable {v : Text} (hv : Shell.IsIdentifier v) (p q : Text) :
    Marked (p ++ (Shell.variableWord v ++ q)) ↔ Marked p ∨ Marked q := by
  have hquote (i : Id) : '"' ∉ i.mark := i.notMem_mark (by decide) (by decide) (by decide)
  have hname (i : Id) : ¬ i.mark <:+: '$' :: v := by
    intro h
    have hmem : '#' ∈ '$' :: v := h.subset i.numberSign_mem_mark
    simp [hv.notMem (c := '#') (by decide)] at hmem
  have hsplit : p ++ (Shell.variableWord v ++ q) = p ++ '"' :: ('$' :: v ++ '"' :: q) := by
    simp [Shell.variableWord, Shell.doubleQuoted]
  simp only [marked_iff, hsplit, Text.infix_append_cons (hquote _), hname, false_or, exists_or]

/-- A title ends in front of the dollar sign, and the line goes on as with any other name. -/
theorem titled_variable {v p q : Text} : Titled (p ++ (Shell.variableWord v ++ q)) ↔
    (∃ i : Id, i.title <+: p ++ ['"']) ∧ ∃ y, '"' :: q = y ++ ['"'] := by
  rw [Shell.append_variableWord, titled_iff]
  refine and_congr_right fun _ => ?_
  constructor
  · rintro ⟨y, hy⟩
    obtain ⟨w, hw, _⟩ := Text.last_cases (u := '$' :: v) hy (List.cons_ne_nil _ _)
    exact ⟨w, hw⟩
  · rintro ⟨y, hy⟩
    exact ⟨'$' :: (v ++ y), by rw [hy]; simp⟩

end TestCase

namespace BodilessRequest

/-- The request as far as the slash of the address. -/
def Call.front (c : Call) : Text :=
  CurlCall.opening ++ (c.option ++ (CurlCall.urlOpening ++ (c.url.service ++ ['/'])))

theorem Call.text_eq_front (c : Call) : c.text = c.front ++ c.url.path := by
  simp [text, front, CurlCall.Url.text]

/-- No quote before the path stands before a dollar sign. -/
theorem Call.front_ne (c : Call) {p q : Text} (h : c.front = p ++ '"' :: q) :
    ∃ d q', q = d :: q' ∧ d ≠ '$' := by
  have hopening : CurlCall.opening = "RESPONSE=$(curl -s -w ".toList ++
      '"' :: ("\\n%\x7bhttp_code\x7d".toList ++ '"' :: [' ']) := by decide
  have hcurl : '"' ∉ "RESPONSE=$(curl -s -w ".toList := by decide
  have hcode : '"' ∉ "\\n%\x7bhttp_code\x7d".toList := by decide
  have hrest : '"' ∉ c.option ++ (CurlCall.urlOpening ++ (c.url.service ++ ['/'])) := by
    have hoption : '"' ∉ c.option := by
      have : ∀ w ∈ ["-X GET ".toList, []], '"' ∉ w := by decide
      exact this _ c.option_mem
    have hurl : '"' ∉ CurlCall.urlOpening := by decide
    have hservice : '"' ∉ c.url.service := fun hmem =>
      absurd (c.url.isUpper_of_mem _ hmem) (by decide)
    simp [hoption, hurl, hservice]
  rw [front, hopening] at h
  simp only [List.append_assoc, List.cons_append, List.nil_append] at h
  rcases Text.first_cases hcurl h.symm with ⟨_, rfl⟩ | ⟨p₁, _, h₁⟩
  · exact ⟨'\\', _, rfl, by decide⟩
  rcases Text.first_cases hcode h₁.symm with ⟨_, rfl⟩ | ⟨p₂, _, h₂⟩
  · exact ⟨' ', _, rfl, by decide⟩
  · have hmem : '"' ∈ ' ' :: (c.option ++ (CurlCall.urlOpening ++ (c.url.service ++ ['/']))) := by
      rw [h₂]
      simp
    exact absurd ((List.mem_cons.mp hmem).resolve_left (by decide)) hrest

/-- White space and the parenthesis are all that ends an address. -/
theorem inPath_variableWord {v : Text} (hv : Shell.IsIdentifier v) :
    ∀ x ∈ Shell.variableWord v, inPath x = true := by
  intro x hx
  have hname (hmem : x ∈ v) : inPath x = true := by
    have hparen : x ≠ ')' := by
      rintro rfl
      exact hv.notMem (by decide) hmem
    simp [inPath, hv.isBlank_of_mem hmem, hparen]
  simp only [Shell.variableWord, Shell.doubleQuoted, List.cons_append, List.mem_cons,
    List.mem_append, List.not_mem_nil, or_false] at hx
  rcases hx with rfl | rfl | hx | rfl
  · decide
  · decide
  · exact hname hx
  · decide

/-- A request ends before a variable, or has the whole of it in its path. -/
theorem Call.variable_cases {c : Call} {v e r z : Text} (hv : Shell.IsIdentifier v)
    (h : c.text ++ r = e ++ (Shell.variableWord v ++ z)) (hr : ∀ x ∈ r.head?, inPath x = false) :
    (∃ r', e = c.text ++ r' ∧ r = r' ++ (Shell.variableWord v ++ z)) ∨
      ∃ y, z = y ++ r ∧ ∀ v', Shell.IsIdentifier v' →
        ∃ c' : Call, c'.text = e ++ (Shell.variableWord v' ++ y) := by
  have hquote : c.front ++ (c.url.path ++ r) = e ++ '"' :: ('$' :: (v ++ '"' :: z)) := by
    rw [← List.append_assoc, ← c.text_eq_front, h]
    simp [Shell.variableWord, Shell.doubleQuoted]
  rcases Text.char_cases hquote with ⟨t, ht, hz⟩ | ⟨w, rfl, hw⟩
  · obtain ⟨d, t, rfl, hd⟩ := c.front_ne ht
    exact absurd (List.head_eq_of_cons_eq hz).symm hd
  have hpath : c.url.path ++ r = w ++ (Shell.variableWord v ++ z) := by
    rw [hw]
    simp [Shell.variableWord, Shell.doubleQuoted]
  rcases List.append_eq_append_iff.mp hpath with ⟨r', rfl, hr'⟩ | ⟨p, hp, hpr⟩
  · exact Or.inl ⟨r', by rw [c.text_eq_front, List.append_assoc], hr'⟩
  -- an address that reaches the variable goes on as far as its end
  obtain ⟨y, rfl, rfl⟩ : ∃ y, p = Shell.variableWord v ++ y ∧ z = y ++ r := by
    rcases List.append_eq_append_iff.mp hpr with hp | ⟨y, hy, rfl⟩
    · exact hp
    · obtain _ | ⟨d, y⟩ := y
      · exact ⟨[], by simp [hy], rfl⟩
      · have hd : inPath d = true := inPath_variableWord hv d (hy ▸ by simp)
        simp [hr d rfl] at hd
  refine Or.inr ⟨y, rfl, fun v' hv' => ?_⟩
  have hclass : ∀ x ∈ w ++ (Shell.variableWord v' ++ y), inPath x = true := by
    intro x hx
    simp only [List.mem_append] at hx
    rcases hx with hx | hx | hx
    · exact c.url.inPath_of_mem x (hp ▸ by simp [hx])
    · exact inPath_variableWord hv' x hx
    · exact c.url.inPath_of_mem x (hp ▸ by simp [hx])
  let c' : Call := { c with url := { c.url with
    path := w ++ (Shell.variableWord v' ++ y)
    path_ne_nil := by simp [Shell.variableWord, Shell.doubleQuoted]
    inPath_of_mem := hclass } }
  exact ⟨c', by rw [c'.text_eq_front, List.append_assoc]; rfl⟩

/-- How a title and a request open a text with a variable in it, whatever its name is. -/
inductive VariableCase (e z : Text) : Prop where
  /-- The request ends before the variable. -/
  | before (k : Text) (c : Call) (r : Text) (he : e = k ++ '\n' :: (c.text ++ r))
    (hk : '\n' ∉ k ∧ Titled k) (hr : ∀ x ∈ (r ++ ['"']).head?, inPath x = false)
  /-- The variable is in the title or in the address. -/
  | around (r : Text) (hr : ∀ x ∈ r.head?, inPath x = false)
    (hcase : ∀ v, Shell.IsIdentifier v → ∃ (k : Text) (c : Call),
      e ++ (Shell.variableWord v ++ z) = k ++ '\n' :: (c.text ++ r) ∧ '\n' ∉ k ∧ Titled k)

theorem newline_notMem_variableWord {v : Text} (hv : Shell.IsIdentifier v) :
    '\n' ∉ Shell.variableWord v := by
  simp [Shell.variableWord, Shell.doubleQuoted, hv.notMem (c := '\n') (by decide)]

theorem opensCase_variable_iff {v e z : Text} (hv : Shell.IsIdentifier v) :
    OpensCase (e ++ (Shell.variableWord v ++ z)) ↔ VariableCase e z := by
  constructor
  · intro h
    obtain ⟨k, c, r, heq, hk, htitle, hr⟩ := h.exists_call
    rcases Text.char_cases heq with ⟨t, rfl, ht⟩ | ⟨w, rfl, hw⟩
    · -- the title stands before the variable
      rcases Call.variable_cases hv ht hr with ⟨r', rfl, rfl⟩ | ⟨y, rfl, hcalls⟩
      · refine .before k c r' rfl ⟨hk, htitle⟩ fun x hx => hr x ?_
        cases r' <;> exact hx
      · refine .around r hr fun v' hv' => ?_
        obtain ⟨c', hc'⟩ := hcalls v' hv'
        exact ⟨k, c', by rw [hc']; simp, hk, htitle⟩
    · rcases Text.char_cases hw with ⟨t, ht, _⟩ | ⟨w', rfl, rfl⟩
      · exact absurd (ht ▸ by simp) (newline_notMem_variableWord hv)
      · simp only [List.mem_append, not_or] at hk
        refine .around r hr fun v' hv' => ⟨e ++ (Shell.variableWord v' ++ w'), c, by simp, ?_, ?_⟩
        · simp [hk.1, hk.2.2, newline_notMem_variableWord hv']
        · exact titled_variable.mpr (titled_variable.mp htitle)
  · intro h
    cases h with
    | before k c r he hk hr => exact ⟨k, c, r ++ (Shell.variableWord v ++ z), by simp [he], hk⟩
    | around r hr hcase =>
      obtain ⟨k, c, heq, hk⟩ := hcase v hv
      exact ⟨k, c, r, heq, hk⟩

/-- How many requests are logged around a variable does not depend on its name. -/
theorem exists_count_variableWord (names : Names) (e z : Text) : ∃ n, ∀ v, Shell.IsIdentifier v →
    (annotate names (e ++ (Shell.variableWord v ++ z))).count = n := by
  by_cases he : '\n' ∈ e
  · obtain ⟨l, e', rfl, hl⟩ := List.eq_append_cons_of_mem he
    simp only [List.append_assoc, List.cons_append]
    by_cases h : Marked l ∧ VariableCase e' z
    · obtain ⟨hmark, hcase⟩ := h
      cases hcase with
      | before k c r he hk hr =>
        subst he
        obtain ⟨n, hn⟩ := exists_count_variableWord names r z
        refine ⟨1 + n, fun v hv => ?_⟩
        have hhead : ∀ x ∈ (r ++ (Shell.variableWord v ++ z)).head?, inPath x = false := by
          cases r <;> exact hr
        have hrequest := annotate_request names c hl hmark hk.1 hk.2 hhead
        simp only [List.append_assoc, List.cons_append]
        rw [hrequest, Edited.count_append, hn v hv]
      | around r hr hcase =>
        refine ⟨1 + (annotate names r).count, fun v hv => ?_⟩
        obtain ⟨k, c, heq, hk, htitle⟩ := hcase v hv
        rw [heq, annotate_request names c hl hmark hk htitle hr, Edited.count_append]
    · obtain ⟨n, hn⟩ := exists_count_variableWord names e' z
      refine ⟨n, fun v hv => ?_⟩
      rw [annotate_line hl fun hm hs => h ⟨hm, (opensCase_variable_iff hv).mp hs⟩,
        Edited.count_append, hn v hv, Nat.zero_add]
  · have hline {v : Text} (hv : Shell.IsIdentifier v) : '\n' ∉ e ++ Shell.variableWord v := by
      simp [he, newline_notMem_variableWord hv]
    have hname : Shell.IsIdentifier ['v'] := by decide
    refine ⟨(annotate names (e ++ (Shell.variableWord ['v'] ++ z))).count, fun v hv => ?_⟩
    obtain ⟨y, n, hv_text, hname_text⟩ := annotate_first_line names z (hline hv) (hline hname)
      fun w => by
        rw [List.append_assoc, List.append_assoc, marked_variable hv, marked_variable hname]
    rw [← List.append_assoc, ← List.append_assoc, hv_text, hname_text]
termination_by e.length

end BodilessRequest

end CurlLog
