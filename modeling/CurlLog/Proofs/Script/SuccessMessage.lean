import CurlLog.Proofs.Pattern.Parts
import CurlLog.Proofs.Pattern.Seam
import CurlLog.Proofs.Script.Shell
import CurlLog.Proofs.Script.TestCase
import CurlLog.Proofs.Text.Lines
import CurlLog.Script.SuccessMessage
import Mathlib.Logic.Relation

/-!
# Success messages as data

A success message stands on one line and has one check mark, behind the opening that it shares with
every message in green. So two messages do not overlap, and a text can be taken apart before and
behind each (`seam_opening`, `seam_closing`).
-/

namespace CurlLog.SuccessMessage

open Pattern TestCase

/-- The word with which a message ends, before the status. -/
def passed : Text :=
  " PASSED".toList

/-- The status code, as it is added to a message. -/
def status : Text :=
  " (HTTP: $HTTP_CODE)".toList

theorem plainClosing_eq : plainClosing = passed ++ Shell.greenClosing := rfl

theorem statusClosing_eq : statusClosing = passed ++ (status ++ Shell.greenClosing) := by
  decide

/-- The message for a test case. -/
def message (i : Id) (closing : Text) : Text :=
  opening ++ (i.text ++ closing)

theorem takes_pattern {t : Text} : pattern.Takes t ↔ ∃ i : Id, t = message i plainClosing := by
  simp only [pattern, takes_append, takes_ofPart, spells_caseId, Piece.spells_word_cons,
    Piece.spells_nil]
  constructor
  · rintro ⟨_, _, rfl, ⟨_, _, rfl, ⟨_, rfl, rfl⟩, i, rfl⟩, _, rfl, rfl⟩
    exact ⟨i, by simp [message]⟩
  · rintro ⟨i, rfl⟩
    exact ⟨opening ++ i.text, plainClosing, by simp [message], ⟨opening, i.text, rfl,
      ⟨[], by simp, rfl⟩, i, rfl⟩, [], by simp, rfl⟩

theorem not_takes_nil : ¬ pattern.Takes [] := by
  intro h
  obtain ⟨i, h⟩ := takes_pattern.mp h
  exact absurd h (List.cons_ne_nil 'e' _).symm

theorem greenOpening_eq :
    Shell.greenOpening = "echo -e ".toList ++ '"' :: "$\x7bGREEN\x7d".toList := by
  decide

theorem greenClosing_eq : Shell.greenClosing = "$\x7bNC\x7d".toList ++ ['"'] := by
  decide

theorem opening_eq : opening = Shell.greenOpening ++ ['✓', ' '] := by
  decide

theorem echoOption_prefix_opening : Shell.echoOption <+: opening := by
  decide

/-- Every message is printed in colour. -/
theorem beginsWith_echoOption : pattern.BeginsWith Shell.echoOption := by
  intro t ht
  obtain ⟨i, rfl⟩ := takes_pattern.mp ht
  exact echoOption_prefix_opening.trans (List.prefix_append _ _)

theorem notMem_message (i : Id) {c : Text} {d : Char} (hid : isIdChar d = false)
    (hopening : d ∉ opening) (hc : d ∉ c) : d ∉ message i c := by
  simp only [message, List.mem_append, not_or]
  exact ⟨hopening, i.notMem_text hid, hc⟩

theorem newline_notMem_message (i : Id) : '\n' ∉ message i plainClosing :=
  notMem_message i (by decide) (by decide) (by decide)

theorem quote_notMem_message (i : Id) : '\'' ∉ message i plainClosing :=
  notMem_message i (by decide) (by decide) (by decide)

/-- How a text in green ends. -/
theorem message_eq (i : Id) (c : Text) :
    ∃ t, message i (c ++ Shell.greenClosing) = t ++ ['}', '"'] := by
  refine ⟨opening ++ (i.text ++ (c ++ "$\x7bNC".toList)), ?_⟩
  have hclosing : Shell.greenClosing = "$\x7bNC".toList ++ ['}', '"'] := by decide
  simp only [message, hclosing, List.append_assoc]

/-! ## Where a text can be taken apart -/

/-- A message stands on one line. -/
theorem seam_newline (x z : Text) : pattern.Seam (x ++ ['\n']) z := by
  refine .of_notMem_left (fun t ht => ?_) x z
  obtain ⟨i, rfl⟩ := takes_pattern.mp ht
  exact newline_notMem_message i

/--
A text that begins like a message and has no further check mark reaches into the front of another
message only as far as the opening that all messages in green share.
-/
theorem shared_opening {t u v y z : Text} (ht : '✓' ∉ t) (heq : u ++ v = opening ++ t) (hu : u ≠ [])
    (hv : opening ++ z = v ++ y) : ∃ v', Shell.greenOpening = v ++ v' := by
  rw [opening_eq, List.append_assoc] at heq hv
  rcases List.append_eq_append_iff.mp hv with ⟨w, rfl, hw⟩ | ⟨v', hgreen, _⟩
  · obtain _ | ⟨c, w⟩ := w
    · exact ⟨[], by simp⟩
    · obtain ⟨rfl, _⟩ : '✓' = c ∧ _ := by simpa using hw
      have hgreen : '✓' ∉ Shell.greenOpening := by decide
      rw [← List.append_assoc] at heq
      rcases Text.first_cases hgreen heq with ⟨hnil, _⟩ | ⟨w', _, htail⟩
      · simp [hu] at hnil
      · have htail : ' ' :: t = w' ++ '✓' :: w := htail
        have hmem : '✓' ∈ ' ' :: t := by
          rw [htail]
          simp
        simp [ht] at hmem
  · exact ⟨v', hgreen⟩

/-- A message does not begin inside another one, whatever the two say of their test cases. -/
theorem opening_not_inside {i : Id} {c : Text} (hc : '✓' ∉ c) {u v y z : Text}
    (heq : u ++ v = message i (c ++ Shell.greenClosing)) (hu : u ≠ []) (hv : v ≠ []) :
    opening ++ z ≠ v ++ y := by
  intro hb
  have hcheck : '✓' ∉ i.text ++ (c ++ Shell.greenClosing) := by
    have hid : '✓' ∉ i.text := i.notMem_text (by decide)
    have hclosing : '✓' ∉ Shell.greenClosing := by decide
    simp [hid, hc, hclosing]
  obtain ⟨v', hgreen⟩ := shared_opening hcheck heq hu hb
  -- the shared part would end like a message
  obtain ⟨t, hend⟩ := message_eq i c
  have hlast : u ++ v = (t ++ ['}']) ++ ['"'] := by
    rw [heq, hend, List.append_assoc]
    rfl
  obtain ⟨v₀, rfl, hu₀⟩ := Text.last_cases hlast hv
  rw [greenOpening_eq, List.append_assoc] at hgreen
  have hquote : '"' ∉ "echo -e ".toList := by decide
  rcases Text.first_cases hquote hgreen.symm with ⟨rfl, _⟩ | ⟨w, _, hrest⟩
  · obtain ⟨w, hw, _⟩ := Text.last_cases hu₀ (by decide)
    have hblank : "echo -e".toList ++ [' '] = w ++ ['}'] := hw
    simpa using (List.append_inj' hblank rfl).2
  · have hmem : '"' ∈ "$\x7bGREEN\x7d".toList := hrest ▸ by simp
    exact absurd hmem (by decide)

/-- What the pass edits does not lie across the front of a message. -/
theorem seam_opening (x z : Text) : pattern.Seam x (opening ++ z) := by
  intro x' u v y _ hb hu hv ht
  obtain ⟨i, ht⟩ := takes_pattern.mp ht
  exact opening_not_inside (by decide) ht hu hv hb

/-- A message in green has its text between two quotes, and it begins with a variable in braces. -/
theorem message_eq_quoted (i : Id) {c : Text} (hc : '"' ∉ c) :
    ∃ t, message i (passed ++ (c ++ Shell.greenClosing)) =
      "echo -e ".toList ++ '"' :: ('$' :: '{' :: t ++ '"' :: []) ∧ '"' ∉ '$' :: '{' :: t := by
  refine ⟨"GREEN\x7d✓ ".toList ++ (i.text ++ (passed ++ (c ++ "$\x7bNC\x7d".toList))), ?_, ?_⟩
  · have hopening : opening =
        "echo -e ".toList ++ '"' :: '$' :: '{' :: "GREEN\x7d✓ ".toList := by decide
    rw [message, hopening, greenClosing_eq]
    simp only [List.append_assoc, List.cons_append]
  · have hbegin : '"' ∉ '$' :: '{' :: "GREEN\x7d✓ ".toList := by decide
    have hid : '"' ∉ i.text := i.notMem_text (by decide)
    have hpassed : '"' ∉ passed := by decide
    have hend : '"' ∉ "$\x7bNC\x7d".toList := by decide
    rw [← List.cons_append, ← List.cons_append]
    simp only [List.mem_append, not_or]
    exact ⟨hbegin, hid, hpassed, hc, hend⟩

/-- No message goes on behind the end of a text in green. -/
theorem seam_closing (x z : Text) : pattern.Seam (x ++ Shell.greenClosing) z := by
  intro x' u v y ha _ hu hv ht
  obtain ⟨i, ht⟩ := takes_pattern.mp ht
  rw [greenClosing_eq, ← List.append_assoc] at ha
  obtain ⟨u₀, rfl, hu₀⟩ := Text.last_cases ha.symm hu
  -- the only quotes of a message are the one behind the option and the last character
  obtain ⟨t, hsplit, hinner⟩ := message_eq_quoted i (c := []) List.not_mem_nil
  rw [List.nil_append, ← plainClosing_eq] at hsplit
  have hquote : '"' ∉ "echo -e ".toList := by decide
  rw [hsplit, List.append_assoc] at ht
  rcases Text.first_cases hquote ht with ⟨rfl, _⟩ | ⟨w, _, hrest⟩
  · have hbrace : "$\x7bNC\x7d".toList = "$\x7bNC".toList ++ ['}'] := by decide
    rw [hbrace, ← List.append_assoc] at hu₀
    obtain ⟨w, hw, _⟩ := Text.last_cases hu₀ (by decide)
    have hblank : "echo -e".toList ++ [' '] = w ++ ['}'] := hw
    simpa using (List.append_inj' hblank rfl).2
  · rcases Text.first_cases hinner hrest.symm with ⟨_, hnil⟩ | ⟨w', _, hnil⟩
    · exact hv hnil
    · simp at hnil

/-! ## One message -/

/-- The identifier and what follows it can be read off a message. -/
theorem message_inj {i j : Id} {c c' : Text}
    (h : message i (passed ++ c) = message j (passed ++ c')) : i.text = j.text ∧ c = c' := by
  have hblank (k : Id) : ' ' ∉ k.text := k.notMem_text (by decide)
  rw [message, message, List.append_cancel_left_eq] at h
  obtain ⟨hid, htail⟩ := Text.first_unique (hblank j) (hblank i) h
  have htail : "PASSED".toList ++ c = "PASSED".toList ++ c' := htail
  exact ⟨hid, List.append_cancel_left htail⟩

/-- A message inside another one is the other one, or more of it. -/
theorem eq_of_message_infix {i j : Id} {c c' before rest : Text} (hc : '✓' ∉ c')
    (h : message j c' = before ++ message i c ++ rest) : message j c' = message i (c ++ rest) := by
  have hcheck : '✓' ∉ ' ' :: (j.text ++ c') := by
    have hid : '✓' ∉ j.text := j.notMem_text (by decide)
    simp [hid, hc]
  have hgreen : '✓' ∉ Shell.greenOpening := by decide
  have hfirst : (before ++ Shell.greenOpening) ++ '✓' :: (' ' :: (i.text ++ (c ++ rest))) =
      Shell.greenOpening ++ '✓' :: (' ' :: (j.text ++ c')) := by
    rw [message, message, opening_eq] at h
    simp only [List.append_assoc, List.cons_append, List.nil_append] at h ⊢
    exact h.symm
  rcases Text.first_cases hgreen hfirst with ⟨hnil, _⟩ | ⟨w, _, hrest⟩
  · obtain rfl : before = [] := by simpa using hnil
    simpa [message] using h
  · exact absurd (hrest ▸ by simp) hcheck

theorem find?_statusMessage (i : Id) : pattern.find? (message i statusClosing) = none := by
  refine find?_eq_none_iff_takes.mpr fun before t rest hs ht => ?_
  obtain ⟨j, rfl⟩ := takes_pattern.mp ht
  have h := eq_of_message_infix (by decide) hs
  rw [plainClosing_eq, statusClosing_eq, List.append_assoc] at h
  -- the word is followed by a blank in one of them and by a dollar sign in the other
  exact absurd (List.head_eq_of_cons_eq (message_inj h).2) (by decide)

/-- The identifier is what stands between the two ends of a match. -/
theorem exists_id_of_fits {m : Match Part} (h : pattern.Fits m) :
    ∃ i : Id, m.part .caseId = i.text ∧ m.text = message i plainClosing := by
  obtain ⟨m₁, m₂, rfl, h₁, h₂⟩ := fits_append.mp h
  obtain ⟨m₁, m₃, rfl, h₁, h₃⟩ := fits_append.mp h₁
  obtain ⟨i, hi⟩ := spells_caseId.mp h₃.spells_ofPart
  obtain ⟨_, hopening, rfl⟩ := Piece.spells_word_cons.mp h₁.spells_ofPart
  obtain ⟨_, hclosing, rfl⟩ := Piece.spells_word_cons.mp h₂.spells_ofPart
  refine ⟨i, ?_, by simp [message, hi, hopening, hclosing]⟩
  rw [Match.part_append, Match.part_append, h₁.part_ofPart, h₂.part_ofPart, h₃.part_ofPart, ← hi]
  exact List.append_nil _

/-- What the pass edits first, and what it makes of it. -/
theorem exists_message_of_find? {s before rest : Text} {m : Match Part}
    (h : pattern.find? s = some (before, m, rest)) :
    ∃ i : Id, s = before ++ (message i plainClosing ++ rest) ∧
      withStatus m = message i statusClosing := by
  obtain ⟨i, hpart, htext⟩ := exists_id_of_fits (fits_of_find? h)
  refine ⟨i, ?_, ?_⟩
  · rw [← text_of_find? h, htext, List.append_assoc]
  · rw [withStatus, hpart, message, List.append_assoc]

theorem annotate_plainMessage (i : Id) :
    annotate (message i plainClosing) = ⟨message i statusClosing, 1⟩ := by
  have htakes : pattern.Takes (message i plainClosing) := takes_pattern.mpr ⟨i, rfl⟩
  cases hfind : pattern.find? (message i plainClosing) with
  | none => exact absurd htakes (find?_eq_none_iff_takes.mp hfind [] _ [] (by simp))
  | some found =>
    obtain ⟨before, m, rest⟩ := found
    obtain ⟨j, hwhole, hstatus⟩ := exists_message_of_find? hfind
    have h := eq_of_message_infix (by decide) (hwhole.trans (List.append_assoc _ _ _).symm)
    rw [plainClosing_eq, List.append_assoc] at h
    obtain ⟨heq, hrest⟩ := message_inj h
    obtain rfl : rest = [] := by simpa using hrest
    obtain rfl : before = [] := by simpa [message, heq] using hwhole
    have hmessage : message j statusClosing = message i statusClosing := by
      rw [message, message, heq]
    rw [annotate, edit_of_find?_eq_some not_takes_nil _ hfind, hstatus, hmessage]
    ext1
    · simp [text_edit]
    · simp [count_edit, Cut.count]

/-! ## The pass message by message -/

theorem annotate_append {a b : Text} (h : pattern.Seam a b) :
    annotate (a ++ b) = annotate a ++ annotate b :=
  edit_append not_takes_nil _ h

theorem seam_before_message (x y : Text) (i : Id) (c : Text) :
    pattern.Seam x (message i c ++ y) := by
  rw [message, List.append_assoc]
  exact seam_opening x _

theorem seam_behind_message (i : Id) (c y : Text) :
    pattern.Seam (message i (passed ++ (c ++ Shell.greenClosing))) y := by
  have h := seam_closing (opening ++ (i.text ++ (passed ++ c))) y
  simpa only [message, List.append_assoc] using h

/-- The pass goes over what stands before a message, the message and what follows it. -/
theorem annotate_around (x y : Text) (i : Id) (c : Text) :
    annotate (x ++ (message i (passed ++ (c ++ Shell.greenClosing)) ++ y)) =
      annotate x ++ (annotate (message i (passed ++ (c ++ Shell.greenClosing))) ++ annotate y) := by
  rw [annotate_append (seam_before_message x y i _), annotate_append (seam_behind_message i c y)]

/-- A message gets its status, and the pass counts it. -/
theorem annotate_plain (x y : Text) (i : Id) :
    annotate (x ++ (message i plainClosing ++ y)) =
      annotate x ++ (⟨message i statusClosing, 1⟩ ++ annotate y) := by
  rw [← annotate_plainMessage]
  exact annotate_around x y i []

/-- A message with its status is left alone. -/
theorem annotate_status (x y : Text) (i : Id) :
    annotate (x ++ (message i statusClosing ++ y)) =
      annotate x ++ (⟨message i statusClosing, 0⟩ ++ annotate y) := by
  have hnone : annotate (message i statusClosing) = ⟨message i statusClosing, 0⟩ :=
    edit_of_find?_eq_none _ (find?_statusMessage i)
  rw [← hnone, statusClosing_eq]
  exact annotate_around x y i status

/-- A message gets its status. -/
inductive StatusStep : Text → Text → Prop where
  | mk (x : Text) (i : Id) (y : Text) :
    StatusStep (x ++ (message i plainClosing ++ y)) (x ++ (message i statusClosing ++ y))

theorem StatusStep.append_left {s t : Text} (h : StatusStep s t) (x : Text) :
    StatusStep (x ++ s) (x ++ t) := by
  obtain ⟨y, i, z⟩ := h
  simpa only [List.append_assoc] using StatusStep.mk (x ++ y) i z

/-- Both messages end with a quote, so a text without quotes at the end stays there. -/
theorem StatusStep.suffix_iff {s t : Text} (h : StatusStep s t) {e : Text} (he : '"' ∉ e) :
    e <:+ t ↔ e <:+ s := by
  obtain ⟨x, i, y⟩ := h
  have hend (p z : Text) : e <:+ x ++ (message i (p ++ Shell.greenClosing) ++ z) ↔ e <:+ z := by
    have hsplit : x ++ (message i (p ++ Shell.greenClosing) ++ z) =
        (x ++ (opening ++ (i.text ++ (p ++ "$\x7bNC\x7d".toList)))) ++ '"' :: z := by
      rw [message, greenClosing_eq]
      simp only [List.append_assoc, List.cons_append, List.nil_append]
    rw [hsplit]
    exact Text.suffix_append_cons he
  rw [statusClosing_eq, plainClosing_eq, ← List.append_assoc passed, hend, hend]

/-- A message begins behind every character that is not the first one of a message. -/
theorem StatusStep.eq_cons {d : Char} (hd : d ≠ 'e') {s t : Text} (h : StatusStep (d :: s) t) :
    ∃ t', t = d :: t' := by
  generalize hs : d :: s = u at h
  obtain ⟨x, i, y⟩ := h
  obtain _ | ⟨c, x⟩ := x
  · exact absurd (List.head_eq_of_cons_eq hs) hd
  · obtain rfl : d = c := List.head_eq_of_cons_eq hs
    exact ⟨_, rfl⟩

/-- Whether a message already has its status does not matter for what the pass makes of a text. -/
theorem text_annotate_of_step {s t : Text} (h : StatusStep s t) :
    (annotate s).text = (annotate t).text := by
  obtain ⟨x, i, y⟩ := h
  rw [annotate_plain, annotate_status]
  rfl

/-- The pass gives each message its status, and leaves none without. -/
theorem steps_annotate (s : Text) :
    Relation.ReflTransGen StatusStep s (annotate s).text ∧
      pattern.find? (annotate s).text = none := by
  rw [annotate, text_edit]
  fun_induction cut pattern s with
  | case1 s h => exact ⟨.refl, h⟩
  | case2 s before m rest h hm => exact absurd (hm ▸ (fits_of_find? h).takes) not_takes_nil
  | case3 s before m rest h hm c ih =>
    obtain ⟨i, rfl, hstatus⟩ := exists_message_of_find? h
    rw [Cut.replace_cons, hstatus]
    constructor
    · have hrest := ih.1.lift (fun t => before ++ (message i plainClosing ++ t))
        fun _ _ hstep => (hstep.append_left _).append_left _
      have hstep : StatusStep _ _ := .mk before i ((cut pattern rest).replace withStatus)
      rw [List.append_assoc]
      exact hrest.tail hstep
    · have hback := seam_behind_message i status ((cut pattern rest).replace withStatus)
      rw [← statusClosing_eq] at hback
      rw [List.append_assoc, find?_append_eq_none_iff (seam_before_message before _ i _),
        find?_append_eq_none_iff hback]
      exact ⟨find?_before_eq_none not_takes_nil h, find?_statusMessage i, ih.2⟩

theorem suffix_iff_of_steps {s t e : Text} (h : Relation.ReflTransGen StatusStep s t)
    (he : '"' ∉ e) : e <:+ t ↔ e <:+ s := by
  induction h with
  | refl => rfl
  | tail _ hstep ih => rw [hstep.suffix_iff he, ih]

end CurlLog.SuccessMessage
