import CurlLog.Proofs.Script.SuccessMessage
import CurlLog.Script.ResponseLabel

/-!
# Printed response bodies as data

What the pass edits is a message with its status, a line that counts it (`lead`), and the command
that prints the response body (`printing`). Between them only white space may stand, so the start
of each of its lines is known (`after_newline`), and no two of them overlap (`seam_opening`,
`seam_printing`).
-/

namespace CurlLog.ResponseLabel

open Pattern TestCase SuccessMessage

/-- A text of white space. -/
def Blank (b : Text) : Prop :=
  b ≠ [] ∧ ∀ c ∈ b, isBlank c = true

/-- The line that counts a test case, without its end. -/
def counting : Text :=
  "PASSED=$((PASSED+1))".toList

/-- The count without the parenthesis that closes it. -/
def openCounting : Text :=
  "PASSED=$((PASSED+1)".toList

theorem counting_eq : counting = openCounting ++ [')'] := by
  decide

theorem counting_newline : "PASSED=$((PASSED+1))\n".toList = counting ++ ['\n'] := by
  decide

/-- The command that prints the response body. -/
def bodyCommand : Text :=
  "echo \"$RESPONSE_BODY\" | jq".toList

/-- A message with its status and the line that counts it. -/
def lead (i : Id) (b : Text) : Text :=
  message i statusClosing ++ '\n' :: (b ++ (counting ++ ['\n']))

/-- The command that prints the response body, with the white space before it. -/
def printing (b : Text) : Text :=
  b ++ bodyCommand

/-- The lines of a message, its count and the command. -/
theorem lead_append_printing (i : Id) (b b' : Text) : lead i b ++ printing b' =
    message i statusClosing ++ '\n' :: (b ++ (counting ++ '\n' :: (b' ++ bodyCommand))) := by
  simp only [lead, printing, List.append_assoc, List.cons_append, List.nil_append]

theorem Blank.notMem {b : Text} (h : Blank b) {c : Char} (hc : isBlank c = false) : c ∉ b := by
  intro hmem
  simp [h.2 c hmem] at hc

/-- A message that closes with `c` and the line that counts it. -/
def leadWith (c : Text) (i : Id) (b : Text) : Text :=
  message i c ++ '\n' :: (b ++ (counting ++ ['\n']))

theorem lead_eq (i : Id) (b : Text) : lead i b = leadWith statusClosing i b := rfl

theorem leadWith_append (c : Text) (i : Id) (b z : Text) :
    leadWith c i b ++ z = message i c ++ ('\n' :: (b ++ (counting ++ ['\n'])) ++ z) :=
  List.append_assoc _ _ _

/-- The shape of what the pass edits, where the message may close with any of the words. -/
def printedAfter (closings : List Text) : Pattern Part :=
  .ofPart .lead (.word opening :: caseId
      ++ [.oneOf closings, .word "\n".toList, .most isBlank,
        .word "PASSED=$((PASSED+1))\n".toList])
    ++ .ofPart .printing [.most isBlank, .word bodyCommand]

theorem pattern_eq : pattern = printedAfter [statusClosing] := rfl

section

variable {closings : List Text}

/-- The parts of a match. -/
theorem exists_of_fits_printedAfter {m : Match Part} (h : (printedAfter closings).Fits m) :
    ∃ c ∈ closings, ∃ (i : Id) (b b' : Text), Blank b ∧ Blank b' ∧
      m.part .lead = leadWith c i b ∧ m.part .printing = printing b' ∧
        m.text = leadWith c i b ++ printing b' := by
  obtain ⟨m₁, m₂, rfl, h₁, h₂⟩ := fits_append.mp h
  have hlead := h₁.spells_ofPart
  simp only [List.cons_append, Piece.spells_word_cons, Piece.spells_oneOf_cons, Piece.spells_append,
    spells_caseId, Piece.spells_most_cons, Piece.spells_nil] at hlead
  obtain ⟨_, hm₁, _, _, rfl, ⟨i, rfl⟩, c, _, rfl, hc, _, rfl, b, _, rfl, hb, _, rfl, rfl⟩ := hlead
  have hprinting := h₂.spells_ofPart
  simp only [Piece.spells_word_cons, Piece.spells_most_cons, Piece.spells_nil] at hprinting
  obtain ⟨b', _, hm₂, hb', _, rfl, rfl⟩ := hprinting
  have hm₁ : m₁.text = leadWith c i b := by
    rw [hm₁, counting_newline, List.append_nil]
    simp only [leadWith, message, List.append_assoc]
    rfl
  have hm₂ : m₂.text = printing b' := by
    rw [hm₂, List.append_nil]
    rfl
  refine ⟨c, hc, i, b, b', hb, hb', ?_, ?_, ?_⟩
  · rw [Match.part_append, h₁.part_ofPart, h₂.part_ofPart, ← hm₁]
    exact List.append_nil _
  · rw [Match.part_append, h₁.part_ofPart, h₂.part_ofPart, ← hm₂]
    rfl
  · rw [Match.text_append, hm₁, hm₂]

theorem takes_printedAfter {t : Text} : (printedAfter closings).Takes t ↔
    ∃ c ∈ closings, ∃ (i : Id) (b b' : Text), Blank b ∧ Blank b' ∧
      t = leadWith c i b ++ printing b' := by
  constructor
  · intro h
    obtain ⟨m, hm, rfl⟩ := takes_iff.mp h
    obtain ⟨c, hc, i, b, b', hb, hb', _, _, htext⟩ := exists_of_fits_printedAfter hm
    exact ⟨c, hc, i, b, b', hb, hb', htext⟩
  · rintro ⟨c, hc, i, b, b', hb, hb', rfl⟩
    refine takes_append.mpr ⟨_, _, rfl, takes_ofPart.mpr ?_, takes_ofPart.mpr ?_⟩
    · simp only [List.cons_append, Piece.spells_word_cons, Piece.spells_oneOf_cons,
        Piece.spells_append, spells_caseId, Piece.spells_most_cons, Piece.spells_nil]
      refine ⟨_, ?_, _, _, rfl, ⟨i, rfl⟩, c, _, rfl, hc, _, rfl, b, _, rfl, hb, [], rfl, rfl⟩
      rw [counting_newline, List.append_nil]
      simp only [leadWith, message, List.append_assoc]
      rfl
    · simp only [Piece.spells_word_cons, Piece.spells_most_cons, Piece.spells_nil]
      exact ⟨b', _, rfl, hb', [], rfl, rfl⟩

end

/-- The parts of a match. -/
theorem exists_of_fits {m : Match Part} (h : pattern.Fits m) :
    ∃ (i : Id) (b b' : Text), Blank b ∧ Blank b' ∧
      m.part .lead = lead i b ∧ m.part .printing = printing b' ∧
        m.text = lead i b ++ printing b' := by
  rw [pattern_eq] at h
  obtain ⟨c, hc, parts⟩ := exists_of_fits_printedAfter h
  obtain rfl := List.mem_singleton.mp hc
  exact parts

theorem takes_pattern {t : Text} : pattern.Takes t ↔
    ∃ (i : Id) (b b' : Text), Blank b ∧ Blank b' ∧ t = lead i b ++ printing b' := by
  simp only [pattern_eq, takes_printedAfter, List.mem_singleton, exists_eq_left, lead_eq]

theorem not_takes_nil : ¬ pattern.Takes [] := by
  intro h
  obtain ⟨i, b, b', _, _, h⟩ := takes_pattern.mp h
  exact absurd h (List.cons_ne_nil 'e' _).symm

/-! ## Where a text can be taken apart -/

theorem q_notMem_lead (i : Id) {b : Text} (hb : Blank b) : 'q' ∉ lead i b := by
  have hmessage : 'q' ∉ message i statusClosing :=
    notMem_message i (by decide) (by decide) (by decide)
  have hcounting : 'q' ∉ '\n' :: (b ++ (counting ++ ['\n'])) := by
    have hword : 'q' ∉ counting := by decide
    simp [hb.notMem (c := 'q') (by decide), hword]
  rw [lead, List.mem_append, not_or]
  exact ⟨hmessage, hcounting⟩

theorem quote_notMem {t : Text} (ht : pattern.Takes t) : '\'' ∉ t := by
  obtain ⟨i, b, b', hb, hb', rfl⟩ := takes_pattern.mp ht
  have hmessage : '\'' ∉ message i statusClosing :=
    notMem_message i (by decide) (by decide) (by decide)
  have hcounting : '\'' ∉ counting := by decide
  have hcommand : '\'' ∉ bodyCommand := by decide
  have hb := hb.notMem (c := '\'') (by decide)
  have hb' := hb'.notMem (c := '\'') (by decide)
  simp [lead, printing, hmessage, hcounting, hcommand, hb, hb']

/-- The last character of the whole is the only one of its kind. -/
theorem eq_append_q (i : Id) {b b' : Text} (hb : Blank b) (hb' : Blank b') :
    ∃ t, lead i b ++ printing b' = t ++ ['q'] ∧ 'q' ∉ t := by
  have hcommand : bodyCommand = "echo \"$RESPONSE_BODY\" | j".toList ++ ['q'] := by decide
  have hword : 'q' ∉ "echo \"$RESPONSE_BODY\" | j".toList := by decide
  refine ⟨lead i b ++ (b' ++ "echo \"$RESPONSE_BODY\" | j".toList), ?_, ?_⟩
  · rw [printing, hcommand, List.append_assoc, List.append_assoc]
  · rw [List.mem_append, List.mem_append, not_or, not_or]
    exact ⟨q_notMem_lead i hb, hb'.notMem (by decide), hword⟩

/-- A message does not begin inside what the pass edits. -/
theorem seam_opening_printedAfter {closings : List Text} (hc : ∀ c ∈ closings, '✓' ∉ c)
    (x z : Text) : (printedAfter closings).Seam x (opening ++ z) := by
  intro x' u v y _ hb hu hv ht
  obtain ⟨c, hmem, i, b, b', hblank, hblank', ht⟩ := takes_printedAfter.mp ht
  have hcommand : bodyCommand = "echo \"$RESPONSE_BODY\" | j".toList ++ ['q'] := by decide
  have hlast : u ++ v =
      (leadWith c i b ++ (b' ++ "echo \"$RESPONSE_BODY\" | j".toList)) ++ ['q'] := by
    rw [ht, printing, hcommand, List.append_assoc, List.append_assoc]
  obtain ⟨w, rfl, _⟩ := Text.last_cases hlast hv
  have hcheck : '✓' ∉ i.text ++ (c ++ ('\n' :: (b ++ (counting ++ ['\n'])) ++ printing b')) := by
    have hid : '✓' ∉ i.text := i.notMem_text (by decide)
    have hcounting : '✓' ∉ counting := by decide
    have hcommand : '✓' ∉ bodyCommand := by decide
    have hb := hblank.notMem (c := '✓') (by decide)
    have hb' := hblank'.notMem (c := '✓') (by decide)
    simp [printing, hid, hc c hmem, hcounting, hcommand, hb, hb']
  have heq : u ++ (w ++ ['q']) = opening ++ (i.text ++ (c ++
      ('\n' :: (b ++ (counting ++ ['\n'])) ++ printing b'))) := by
    rw [ht]
    simp only [leadWith, message, List.append_assoc]
  obtain ⟨v', hgreen⟩ := shared_opening hcheck heq hu hb
  have hmem : 'q' ∈ Shell.greenOpening := hgreen ▸ by simp
  exact absurd hmem (by decide)

theorem seam_opening (x z : Text) : pattern.Seam x (opening ++ z) :=
  seam_opening_printedAfter (by decide) x z

/-- What the pass edits does not go on behind the command that prints the response body. -/
theorem seam_printing (x b y : Text) : pattern.Seam (x ++ printing b) y := by
  intro x' u v z ha _ hu hv ht
  obtain ⟨i, c, c', hc, hc', ht⟩ := takes_pattern.mp ht
  obtain ⟨t, hq, hnot⟩ := eq_append_q i hc hc'
  have hcommand : bodyCommand = "echo \"$RESPONSE_BODY\" | j".toList ++ ['q'] := by decide
  rw [printing, hcommand, ← List.append_assoc, ← List.append_assoc] at ha
  obtain ⟨w, rfl, _⟩ := Text.last_cases ha.symm hu
  rw [List.append_assoc] at ht
  rcases Text.first_cases hnot (ht.trans hq) with ⟨_, hnil⟩ | ⟨w', _, hnil⟩
  · exact hv hnil
  · simp at hnil

theorem newline_notMem_message (i : Id) : '\n' ∉ message i statusClosing :=
  notMem_message i (by decide) (by decide) (by decide)

/-- A line inside white space ends before more of it, or before what follows. -/
theorem after_newline_of_blank {b k w v : Text} (hb : ∀ c ∈ b, isBlank c = true)
    (heq : b ++ k = w ++ '\n' :: v) :
    (∃ d v', v = d :: v' ∧ isBlank d = true) ∨ v = k ∨ ∃ w', k = w' ++ '\n' :: v := by
  rcases Text.char_cases heq with ⟨t, rfl, rfl⟩ | ⟨w', _, hk⟩
  · obtain _ | ⟨d, t⟩ := t
    · exact Or.inr (Or.inl rfl)
    · exact Or.inl ⟨d, t ++ k, rfl, hb d (by simp)⟩
  · exact Or.inr (Or.inr ⟨w', hk⟩)

/-- Each line of what the pass edits, after the first, begins in one of three ways. -/
theorem after_newline {i : Id} {b b' u v : Text} (hb : Blank b) (hb' : Blank b')
    (heq : lead i b ++ printing b' = u ++ '\n' :: v) :
    (∃ d v', v = d :: v' ∧ isBlank d = true) ∨ (∃ v', v = counting ++ '\n' :: v') ∨
      v = bodyCommand := by
  have hcounting : '\n' ∉ counting := by decide
  have hcommand : '\n' ∉ bodyCommand := by decide
  rw [lead_append_printing] at heq
  rcases Text.first_cases (newline_notMem_message i) heq.symm with ⟨_, rfl⟩ | ⟨w, _, hrest⟩
  · obtain ⟨d, t, rfl⟩ := List.exists_cons_of_ne_nil hb.1
    exact Or.inl ⟨d, _, rfl, hb.2 d (by simp)⟩
  rcases after_newline_of_blank hb.2 hrest with h | rfl | ⟨w', hrest⟩
  · exact Or.inl h
  · exact Or.inr (Or.inl ⟨_, rfl⟩)
  rcases Text.first_cases hcounting hrest.symm with ⟨_, rfl⟩ | ⟨w'', _, hrest⟩
  · obtain ⟨d, t, rfl⟩ := List.exists_cons_of_ne_nil hb'.1
    exact Or.inl ⟨d, _, rfl, hb'.2 d (by simp)⟩
  rcases after_newline_of_blank hb'.2 hrest with h | rfl | ⟨w₃, hrest⟩
  · exact Or.inl h
  · exact Or.inr (Or.inr rfl)
  · exact absurd (hrest ▸ by simp) hcommand

/-- In front of a line that begins in none of these ways a text can be taken apart. -/
theorem seam_line {x z : Text} (hblank : ∀ d ∈ z.head?, isBlank d = false)
    (hcounting : ∀ z', z ≠ counting ++ '\n' :: z') (hcommand : ∀ z', z ≠ bodyCommand ++ z') :
    pattern.Seam (x ++ ['\n']) z := by
  intro x' u v y ha hb hu hv ht
  obtain ⟨i, b, b', hb₁, hb₂, ht⟩ := takes_pattern.mp ht
  obtain ⟨w, rfl, _⟩ := Text.last_cases ha.symm hu
  rw [List.append_assoc] at ht
  rcases after_newline hb₁ hb₂ ht.symm with ⟨d, v', rfl, hd⟩ | ⟨v', rfl⟩ | rfl
  · simp [hblank d (by simp [hb])] at hd
  · exact hcounting (v' ++ y) (by simp [hb])
  · exact hcommand y hb

theorem beginsWith_echoOption : pattern.BeginsWith Shell.echoOption := by
  intro t ht
  obtain ⟨i, b, b', _, _, rfl⟩ := takes_pattern.mp ht
  rw [lead, message, List.append_assoc, List.append_assoc]
  exact echoOption_prefix_opening.trans (List.prefix_append _ _)

/-- The text begins with the command that prints the response body, apart from white space. -/
def Prints (s : Text) : Prop :=
  ∃ b y, (∀ c ∈ b, isBlank c = true) ∧ s = b ++ (bodyCommand ++ y)

theorem Prints.append {s : Text} (h : Prints s) (z : Text) : Prints (s ++ z) := by
  obtain ⟨b, y, hb, rfl⟩ := h
  exact ⟨b, y ++ z, hb, by simp⟩

/-- Each line of what the pass edits, before the last, ends in one of three ways. -/
theorem before_newline {i : Id} {b b' u v : Text} (hb : Blank b) (hb' : Blank b')
    (heq : lead i b ++ printing b' = u ++ '\n' :: v) :
    ['"'] <:+ u ∨ (∃ d, isBlank d = true ∧ [d] <:+ u) ∨ counting <:+ u ∧ Prints v := by
  have hcounting : '\n' ∉ counting := by decide
  have hcommand : '\n' ∉ bodyCommand := by decide
  have hblank (p : Text) {w : Text} (hw : ∀ c ∈ w, isBlank c = true) :
      ∃ d, isBlank d = true ∧ [d] <:+ p ++ '\n' :: w := by
    rcases List.eq_nil_or_concat w with rfl | ⟨w, d, rfl⟩
    · exact ⟨'\n', by decide, List.suffix_append _ _⟩
    · exact ⟨d, hw d (by simp), p ++ '\n' :: w, by simp⟩
  rw [lead_append_printing] at heq
  rcases Text.first_cases (newline_notMem_message i) heq.symm with ⟨rfl, _⟩ | ⟨w, rfl, hrest⟩
  · have hclosing : ['"'] <:+ statusClosing := by decide
    exact Or.inl (hclosing.trans ((List.suffix_append _ _).trans (List.suffix_append _ _)))
  rcases Text.char_cases hrest with ⟨t, rfl, _⟩ | ⟨w, rfl, hcount⟩
  · exact Or.inr (Or.inl (hblank _ fun c hc => hb.2 c (by simp [hc])))
  rcases Text.first_cases hcounting hcount.symm with ⟨rfl, rfl⟩ | ⟨w, rfl, hprint⟩
  · refine Or.inr (Or.inr ⟨?_, b', [], hb'.2, by simp⟩)
    exact ⟨message i statusClosing ++ '\n' :: b, by simp⟩
  rcases Text.char_cases hprint with ⟨t, rfl, _⟩ | ⟨w, rfl, hlast⟩
  · have h := hblank (message i statusClosing ++ '\n' :: (b ++ counting)) (w := w)
      fun c hc => hb'.2 c (by simp [hc])
    refine Or.inr (Or.inl ?_)
    simpa using h
  · exact absurd (hlast ▸ by simp) hcommand

/-- Behind a line that ends in none of these ways a text can be taken apart. -/
theorem seam_line_end {a z : Text} (hquote : ¬ ['"'] <:+ a)
    (hblank : ∀ d, isBlank d = true → ¬ [d] <:+ a) (hcounting : counting <:+ a → ¬ Prints z) :
    pattern.Seam (a ++ ['\n']) z := by
  intro x u v y ha hz hu _ ht
  obtain ⟨i, b, b', hb, hb', ht⟩ := takes_pattern.mp ht
  obtain ⟨u, rfl, rfl⟩ := Text.last_cases ha.symm hu
  rw [List.append_assoc] at ht
  have hsuffix {e : Text} (h : e <:+ u) : e <:+ x ++ u := h.trans (List.suffix_append _ _)
  rcases before_newline hb hb' ht.symm with h | ⟨d, hd, h⟩ | ⟨h, hprints⟩
  · exact hquote (hsuffix h)
  · exact hblank d hd (hsuffix h)
  · exact hcounting (hsuffix h) (hz ▸ hprints.append y)

/-! ## One printed response body -/

theorem find?_lead (i : Id) {b : Text} (hb : Blank b) : pattern.find? (lead i b) = none := by
  refine find?_eq_none_iff_takes.mpr fun before t rest hs ht => ?_
  obtain ⟨j, c, c', hc, hc', rfl⟩ := takes_pattern.mp ht
  obtain ⟨t, hq, _⟩ := eq_append_q j hc hc'
  refine q_notMem_lead i hb ?_
  rw [hs, hq]
  simp

variable {names : Names}

/-- What the pass edits first, and what it makes of it. -/
theorem exists_of_find? {s before rest : Text} {m : Match Part}
    (h : pattern.find? s = some (before, m, rest)) :
    ∃ (i : Id) (b b' : Text), Blank b ∧ Blank b' ∧
      s = before ++ (lead i b ++ (printing b' ++ rest)) ∧
        ∀ names, annotated names m = lead i b ++ (labelLine names ++ printing b') := by
  obtain ⟨i, b, b', hb, hb', hlead, hprinting, htext⟩ := exists_of_fits (fits_of_find? h)
  refine ⟨i, b, b', hb, hb', ?_, ?_⟩
  · rw [← text_of_find? h, htext]
    simp only [List.append_assoc]
  · intro names
    rw [annotated, hlead, hprinting, List.append_assoc]

/-- The parts can be read off the text. -/
theorem printed_inj {i j : Id} {b b' c c' r r' : Text} (hb : Blank b) (hb' : Blank b')
    (hc : Blank c) (hc' : Blank c')
    (h : lead i b ++ (printing b' ++ r) = lead j c ++ (printing c' ++ r')) :
    lead i b = lead j c ∧ b' = c' ∧ r = r' := by
  have hcounting (x : Text) : ∀ d ∈ (counting ++ x).head?, isBlank d = false := by
    intro d hd
    obtain rfl : 'P' = d := Option.some.inj hd
    decide
  have hcommand (x : Text) : ∀ d ∈ (bodyCommand ++ x).head?, isBlank d = false := by
    intro d hd
    obtain rfl : 'e' = d := Option.some.inj hd
    decide
  have hid (k : Id) : ' ' ∉ k.text := k.notMem_text (by decide)
  have hclosing : statusClosing =
      ' ' :: ("PASSED (HTTP: $HTTP_CODE)".toList ++ Shell.greenClosing) := by decide
  simp only [lead, message, hclosing, printing, List.append_assoc, List.cons_append,
    List.append_cancel_left_eq] at h
  obtain ⟨hids, h⟩ := Text.first_unique (hid j) (hid i) h
  simp only [List.append_cancel_left_eq, List.cons.injEq, true_and] at h
  obtain ⟨hbc, h⟩ := run_unique_of_head? h hb.2 hc.2 (hcounting _) (hcounting _)
  simp only [List.append_cancel_left_eq, List.nil_append, List.cons.injEq, true_and] at h
  obtain ⟨hbc', h⟩ := run_unique_of_head? h hb'.2 hc'.2 (hcommand _) (hcommand _)
  refine ⟨?_, hbc', List.append_cancel_left h⟩
  rw [lead, lead, message, message, hids, hbc]

theorem annotate_printed_self (i : Id) {b b' : Text} (hb : Blank b) (hb' : Blank b') :
    annotate names (lead i b ++ printing b') =
      ⟨lead i b ++ (labelLine names ++ printing b'), 1⟩ := by
  have htakes : pattern.Takes (lead i b ++ printing b') :=
    takes_pattern.mpr ⟨i, b, b', hb, hb', rfl⟩
  cases hfind : pattern.find? (lead i b ++ printing b') with
  | none => exact absurd htakes (find?_eq_none_iff_takes.mp hfind [] _ [] (by simp))
  | some found =>
    obtain ⟨before, m, rest⟩ := found
    have hlen := find?_length_le hfind htakes (b := []) (r := []) (by simp)
    obtain rfl : before = [] := List.length_eq_zero_iff.mp (Nat.le_zero.mp hlen)
    obtain ⟨j, c, c', hc, hc', hs, hannotated⟩ := exists_of_find? hfind
    rw [List.nil_append, ← List.append_nil (printing b')] at hs
    obtain ⟨hlead, rfl, rfl⟩ := printed_inj hb hb' hc hc' hs
    rw [annotate, edit_of_find?_eq_some not_takes_nil _ hfind, hannotated, hlead]
    ext1
    · simp [text_edit]
    · simp [count_edit, Cut.count]

/-! ## The pass from one printed response body to the next -/

theorem annotate_append {a b : Text} (h : pattern.Seam a b) :
    annotate names (a ++ b) = annotate names a ++ annotate names b :=
  edit_append not_takes_nil _ h

theorem annotate_of_find?_eq_none {s : Text} (h : pattern.find? s = none) :
    annotate names s = ⟨s, 0⟩ :=
  edit_of_find?_eq_none _ h

theorem seam_lead (x y : Text) (i : Id) (b : Text) : pattern.Seam x (lead i b ++ y) := by
  rw [lead, message, List.append_assoc, List.append_assoc]
  exact seam_opening x _

/-- A label is put before a printed response body, and the pass goes on behind it. -/
theorem annotate_printed (names : Names) (x y : Text) (i : Id) {b b' : Text} (hb : Blank b)
    (hb' : Blank b') : annotate names (x ++ (lead i b ++ (printing b' ++ y))) =
      annotate names x ++ (⟨lead i b ++ (labelLine names ++ printing b'), 1⟩ ++
        annotate names y) := by
  rw [annotate_append (seam_lead x _ i b), ← List.append_assoc,
    annotate_append (seam_printing (lead i b) b' y), annotate_printed_self i hb hb']

/-- The first printed response body gets its label, and what stands before it stays. -/
theorem annotate_first (names : Names) {x : Text} (hx : pattern.find? x = none) (y : Text) (i : Id)
    {b b' : Text} (hb : Blank b) (hb' : Blank b') :
    annotate names (x ++ (lead i b ++ (printing b' ++ y))) =
      ⟨x ++ (lead i b ++ (labelLine names ++ printing b')), 1⟩ ++ annotate names y := by
  rw [annotate_printed names x y i hb hb', annotate_of_find?_eq_none hx]
  ext1 <;> simp

theorem text_annotate_first (names : Names) {x : Text} (hx : pattern.find? x = none) (y : Text)
    (i : Id) {b b' : Text} (hb : Blank b) (hb' : Blank b') :
    (annotate names (x ++ (lead i b ++ (printing b' ++ y)))).text =
      (x ++ lead i b) ++ (labelLine names ++ (printing b' ++ (annotate names y).text)) := by
  rw [annotate_first names hx y i hb hb']
  simp

/-- Induction from one printed response body to the next. -/
theorem printed_induction {motive : Text → Prop} (absent : ∀ s, pattern.find? s = none → motive s)
    (first : ∀ x (i : Id) b b' y, Blank b → Blank b' → pattern.find? x = none → motive y →
      motive (x ++ (lead i b ++ (printing b' ++ y)))) (s : Text) : motive s := by
  induction s using find?_induction not_takes_nil with
  | absent s h => exact absent s h
  | first s x m y h ih =>
    obtain ⟨i, b, b', hb, hb', rfl, _⟩ := exists_of_find? h
    exact first x i b b' y hb hb' (find?_before_eq_none not_takes_nil h) ih

end CurlLog.ResponseLabel
