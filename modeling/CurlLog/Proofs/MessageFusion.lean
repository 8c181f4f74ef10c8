import CurlLog.Proofs.EveryMessage
import CurlLog.Proofs.Script.ResponseLabel
import CurlLog.Proofs.Text.Insertion

/-!
# Status codes and labels at once

The pass that adds labels looks only for messages with their status code, and the pass before it
makes such messages. The two together are one edit of the text as it was (`fused`): it inserts the
status code into each message that has none, and a label behind each message, with or without the
code, that a count and the printing of the response body follow. Both kinds of places are found by
a pattern at every place of the text.

Both sides go from message to message. No pattern lies across the front of a message
(`seam_adjacency`), so what they do to a text in front of a message and to the rest stands side by
side (`composed_append`, `fused_append`). A text with one message at its front is left
(`composed_eq_fused_of_front`), and a text without any, which neither side changes.
-/

namespace CurlLog.ResponseLabel

open Pattern TestCase SuccessMessage

/-! ## The insertions -/

/-- The two ways in which a message can close. -/
def closings : List Text :=
  [plainClosing, statusClosing]

/-- The shape of a message with or without its status, a count and the printing of the body. -/
def adjacency : Pattern Part :=
  printedAfter closings

/-- The status code for a message without one at the front of the text. -/
def statusInsertions (s : Text) : List Insertion :=
  (SuccessMessage.pattern.match? s).toList.map fun (m, _) =>
    ⟨(opening ++ m.part .caseId ++ passed).length, status⟩

/-- The label for a printed response body, if its message is at the front of the text. -/
def labelInsertions (names : Names) (s : Text) : List Insertion :=
  (adjacency.match? s).toList.map fun (m, _) => ⟨(m.part .lead).length, labelLine names⟩

theorem labelInsertions_of_none {names : Names} {s : Text} (h : adjacency.match? s = none) :
    labelInsertions names s = [] := by
  rw [labelInsertions, h]
  rfl

theorem labelInsertions_of_some {names : Names} {s rest : Text} {m : Match Part}
    (h : adjacency.match? s = some (m, rest)) :
    labelInsertions names s = [⟨(m.part .lead).length, labelLine names⟩] := by
  rw [labelInsertions, h]
  rfl

/-- All that is inserted because of the message at the front of the text. -/
def insertions (names : Names) (s : Text) : List Insertion :=
  statusInsertions s ++ labelInsertions names s

/-- The text with all status codes and all labels, and the number of places that get a label. -/
def fused (names : Names) (s : Text) : Edited :=
  ⟨Text.insertAll (Text.insertionsIn (insertions names) s) s, adjacency.occurrences s⟩

/-- The text after both passes, and the number of labels. -/
def composed (names : Names) (s : Text) : Edited :=
  annotate names (SuccessMessage.annotate s).text

/-! ## Closings -/

theorem plainClosing_mem_closings : plainClosing ∈ closings := by
  simp [closings]

theorem statusClosing_mem_closings : statusClosing ∈ closings := by
  simp [closings]

/-- A closing is the word, perhaps the status code, and the end of a text in green. -/
theorem exists_of_mem_closings {c : Text} (hc : c ∈ closings) :
    ∃ e, (e = [] ∨ e = status) ∧ c = passed ++ (e ++ Shell.greenClosing) := by
  rcases List.mem_cons.mp hc with rfl | hc
  · exact ⟨[], Or.inl rfl, plainClosing_eq⟩
  · obtain rfl := List.mem_singleton.mp hc
    exact ⟨status, Or.inr rfl, statusClosing_eq⟩

/-- Identifier, closing and what follows can be read off a text with a message at its front. -/
theorem closing_unique {i j : Id} {c c' y y' : Text} (hc : c ∈ closings) (hc' : c' ∈ closings)
    (h : message i c ++ y = message j c' ++ y') : i.text = j.text ∧ c = c' ∧ y = y' := by
  obtain ⟨e, he, rfl⟩ := exists_of_mem_closings hc
  obtain ⟨e', he', rfl⟩ := exists_of_mem_closings hc'
  have hmessage (k : Id) (w z : Text) :
      message k (passed ++ w) ++ z = message k (passed ++ (w ++ z)) := by
    simp only [message, List.append_assoc]
  rw [hmessage, hmessage] at h
  obtain ⟨hid, htail⟩ := message_inj h
  -- a blank begins the status code, and a dollar sign the end of a text in green
  rcases he with rfl | rfl <;> rcases he' with rfl | rfl
  · exact ⟨hid, rfl, List.append_cancel_left htail⟩
  · exact absurd (List.head_eq_of_cons_eq htail) (by decide)
  · exact absurd (List.head_eq_of_cons_eq htail) (by decide)
  · exact ⟨hid, rfl, List.append_cancel_left htail⟩

theorem message_ne_nil (i : Id) (c : Text) : message i c ≠ [] :=
  List.cons_ne_nil 'e' _

theorem exists_cons_message (i : Id) (c y : Text) : ∃ d s, message i c ++ y = d :: s :=
  List.exists_cons_of_ne_nil (List.append_ne_nil_of_left_ne_nil (message_ne_nil i c) y)

theorem message_congr {i j : Id} (h : i.text = j.text) (c : Text) : message i c = message j c := by
  rw [message, message, h]

/-! ## Where the insertions are found -/

theorem takes_adjacency {t : Text} : adjacency.Takes t ↔
    ∃ c ∈ closings, ∃ (i : Id) (b b' : Text), Blank b ∧ Blank b' ∧
      t = leadWith c i b ++ printing b' :=
  takes_printedAfter

theorem not_takes_nil_adjacency : ¬ adjacency.Takes [] := by
  intro h
  obtain ⟨c, _, i, b, b', _, _, h⟩ := takes_adjacency.mp h
  exact absurd h (List.cons_ne_nil 'e' _).symm

theorem seam_adjacency (x y : Text) (i : Id) (c : Text) : adjacency.Seam x (message i c ++ y) := by
  rw [message, List.append_assoc]
  exact seam_opening_printedAfter (by decide) x _

/-- There is a message without status code exactly where the first pass finds one. -/
theorem match?_plainMessage (i : Id) (y : Text) :
    ∃ m, SuccessMessage.pattern.match? (message i plainClosing ++ y) = some (m, y) ∧
      m.part .caseId = i.text := by
  have hsome := match?_ne_none_iff_takes.mpr
    ⟨_, y, rfl, SuccessMessage.takes_pattern.mpr ⟨i, rfl⟩⟩
  obtain ⟨⟨m, rest⟩, hm⟩ := Option.ne_none_iff_exists'.mp hsome
  obtain ⟨hfits, heq⟩ := match?_sound hm
  obtain ⟨j, hpart, htext⟩ := exists_id_of_fits hfits
  rw [htext] at heq
  obtain ⟨hid, _, rfl⟩ := closing_unique plainClosing_mem_closings plainClosing_mem_closings heq
  exact ⟨m, hm, hpart.trans hid.symm⟩

theorem match?_statusMessage (i : Id) (y : Text) :
    SuccessMessage.pattern.match? (message i statusClosing ++ y) = none := by
  refine match?_eq_none_iff_takes.mpr fun t rest heq ht => ?_
  obtain ⟨j, rfl⟩ := SuccessMessage.takes_pattern.mp ht
  obtain ⟨_, hclosing, _⟩ :=
    closing_unique statusClosing_mem_closings plainClosing_mem_closings heq
  exact absurd hclosing (by decide)

/-- With what is inserted into it, a message has its status code. -/
theorem statusInsertions_message (i : Id) {c : Text} (hc : c ∈ closings) :
    ∃ es, (∀ y, statusInsertions (message i c ++ y) = es) ∧
      (∀ e ∈ es, e.place < (message i c).length) ∧
        Text.insertAll es (message i c) = message i statusClosing := by
  rcases List.mem_cons.mp hc with rfl | hc
  · refine ⟨[⟨(opening ++ i.text ++ passed).length, status⟩], fun y => ?_, ?_, ?_⟩
    · obtain ⟨m, hm, hpart⟩ := match?_plainMessage i y
      rw [statusInsertions, hm, ← hpart]
      rfl
    · have hclosing : passed.length < plainClosing.length := by decide
      simp only [List.mem_singleton, forall_eq, message, List.length_append]
      omega
    · have hsplit : message i plainClosing =
          (opening ++ i.text ++ passed) ++ Shell.greenClosing := by
        simp only [message, plainClosing_eq, List.append_assoc]
      have hplaced := Text.insertAll_last [] status (a := opening ++ i.text ++ passed)
        (b := Shell.greenClosing) (by decide) fun e he => absurd he List.not_mem_nil
      rw [List.nil_append, Text.insertAll_nil] at hplaced
      rw [hsplit, hplaced, message, statusClosing_eq]
      simp only [List.append_assoc]
  · obtain rfl := List.mem_singleton.mp hc
    refine ⟨[], fun y => ?_, by simp, Text.insertAll_nil _⟩
    rw [statusInsertions, match?_statusMessage]
    rfl

/-- Either no count and no printing follow a message, or they are read off in one way. -/
theorem adjacency_cases (i : Id) {c : Text} (hc : c ∈ closings) (y : Text) :
    (adjacency.match? (message i c ++ y) = none ∧
      ∀ b b' rest, Blank b → Blank b' →
        message i c ++ y ≠ leadWith c i b ++ (printing b' ++ rest)) ∨
    ∃ m b b' rest, adjacency.match? (message i c ++ y) = some (m, rest) ∧ Blank b ∧ Blank b' ∧
      m.part .lead = leadWith c i b ∧
        message i c ++ y = leadWith c i b ++ (printing b' ++ rest) := by
  cases hmatch : adjacency.match? (message i c ++ y) with
  | none =>
    refine Or.inl ⟨rfl, fun b b' rest hb hb' heq => ?_⟩
    refine match?_eq_none_iff_takes.mp hmatch (leadWith c i b ++ printing b') rest ?_ ?_
    · rw [heq, List.append_assoc]
    · exact takes_adjacency.mpr ⟨c, hc, i, b, b', hb, hb', rfl⟩
  | some found =>
    obtain ⟨m, rest⟩ := found
    obtain ⟨hfits, heq⟩ := match?_sound hmatch
    obtain ⟨c', hc', j, b, b', hb, hb', hlead, _, htext⟩ := exists_of_fits_printedAfter hfits
    rw [htext, List.append_assoc, leadWith_append] at heq
    obtain ⟨hid, rfl, rfl⟩ := closing_unique hc hc' heq
    have hsame : leadWith c j b = leadWith c i b := by
      rw [leadWith, leadWith, message_congr hid]
    exact Or.inr ⟨m, b, b', rest, rfl, hb, hb', hlead.trans hsame, (leadWith_append ..).symm⟩

/-- What is inserted for a message is inserted before a character of the text. -/
theorem place_lt_of_mem_insertions {names : Names} {s : Text} {e : Insertion}
    (he : e ∈ insertions names s) : e.place < s.length := by
  rw [insertions, List.mem_append, statusInsertions, labelInsertions] at he
  simp only [List.mem_map, Option.mem_toList, Prod.exists] at he
  rcases he with ⟨m, rest, hm, rfl⟩ | ⟨m, rest, hm, rfl⟩
  · obtain ⟨hfits, rfl⟩ := match?_sound hm
    obtain ⟨i, hpart, htext⟩ := exists_id_of_fits hfits
    have hclosing : passed.length < plainClosing.length := by decide
    simp only [hpart, htext, message, List.length_append]
    omega
  · obtain ⟨hfits, rfl⟩ := match?_sound hm
    obtain ⟨c, _, i, b, b', _, _, hlead, _, htext⟩ := exists_of_fits_printedAfter hfits
    have hcommand : 0 < bodyCommand.length := by decide
    simp only [hlead, htext, printing, List.length_append]
    omega

/-- In front of a message nothing that is inserted depends on what follows. -/
theorem insertions_append {names : Names} {u y : Text} (hu : u ≠ []) (i : Id) (c : Text) :
    insertions names (u ++ (message i c ++ y)) = insertions names u := by
  rw [insertions, insertions, statusInsertions, labelInsertions, statusInsertions, labelInsertions,
    (seam_before_message u y i c).match?_append hu, (seam_adjacency u y i c).match?_append hu]
  cases SuccessMessage.pattern.match? u <;> cases adjacency.match? u <;> rfl

/-! ## From message to message -/

/-- The edit at once goes on in front of each message. -/
theorem fused_append (names : Names) (x y : Text) (i : Id) (c : Text) :
    fused names (x ++ (message i c ++ y)) = fused names x ++ fused names (message i c ++ y) := by
  ext1
  · refine Text.insertAll_insertionsIn_append (fun s e => place_lt_of_mem_insertions) ?_
    exact fun _ u _ hu => insertions_append hu i c
  · exact occurrences_append not_takes_nil_adjacency (seam_adjacency x y i c)

/-- The first pass gives each message its status code, and goes on behind it. -/
theorem text_annotate_message (i : Id) {c : Text} (hc : c ∈ closings) (y : Text) :
    (SuccessMessage.annotate (message i c ++ y)).text =
      message i statusClosing ++ (SuccessMessage.annotate y).text := by
  have hnil : SuccessMessage.annotate [] = ⟨[], 0⟩ := by decide
  rcases List.mem_cons.mp hc with rfl | hc
  · have h := SuccessMessage.annotate_plain [] y i
    rw [List.nil_append, hnil] at h
    rw [h]
    rfl
  · obtain rfl := List.mem_singleton.mp hc
    have h := SuccessMessage.annotate_status [] y i
    rw [List.nil_append, hnil] at h
    rw [h]
    rfl

/-- The two passes go on in front of each message. -/
theorem composed_append (names : Names) (x y : Text) (i : Id) {c : Text} (hc : c ∈ closings) :
    composed names (x ++ (message i c ++ y)) =
      composed names x ++ composed names (message i c ++ y) := by
  have hsplit : (SuccessMessage.annotate (x ++ (message i c ++ y))).text =
      (SuccessMessage.annotate x).text ++ (SuccessMessage.annotate (message i c ++ y)).text :=
    congrArg Edited.text (SuccessMessage.annotate_append (seam_before_message x y i c))
  rw [composed, composed, composed, hsplit]
  refine annotate_append ?_
  rw [text_annotate_message i hc, message, List.append_assoc]
  exact seam_opening _ _

/-! ## Texts with at most one message, at the front -/

/-- No message stands anywhere in the text. -/
def NoMessage (s : Text) : Prop :=
  ∀ x i c y, c ∈ closings → s ≠ x ++ (message i c ++ y)

theorem NoMessage.of_append {a b : Text} (h : NoMessage (a ++ b)) : NoMessage b :=
  fun x i c y hc hb => h (a ++ x) i c y hc (by rw [hb, List.append_assoc])

theorem NoMessage.find?_eq_none {s : Text} (h : NoMessage s) :
    SuccessMessage.pattern.find? s = none := by
  refine find?_eq_none_iff_takes.mpr fun before t rest hs ht => ?_
  obtain ⟨i, rfl⟩ := SuccessMessage.takes_pattern.mp ht
  exact h before i plainClosing rest plainClosing_mem_closings (by rw [hs, List.append_assoc])

/-- A printed response body has a message at its front. -/
theorem NoMessage.find?_printedAfter {s : Text} (h : NoMessage s) {cs : List Text}
    (hcs : ∀ c ∈ cs, c ∈ closings) : (printedAfter cs).find? s = none := by
  refine find?_eq_none_iff_takes.mpr fun before t rest hs ht => ?_
  obtain ⟨c, hc, i, b, b', _, _, rfl⟩ := takes_printedAfter.mp ht
  refine h before i c ('\n' :: (b ++ (counting ++ ['\n'])) ++ (printing b' ++ rest)) (hcs c hc) ?_
  rw [hs, List.append_assoc, List.append_assoc, leadWith_append]

theorem NoMessage.find?_adjacency_eq_none {s : Text} (h : NoMessage s) : adjacency.find? s = none :=
  h.find?_printedAfter fun _ hc => hc

theorem NoMessage.annotate_eq {s : Text} (h : NoMessage s) (names : Names) :
    annotate names s = ⟨s, 0⟩ := by
  have hstatus : ∀ c ∈ [statusClosing], c ∈ closings := by simp [closings]
  exact annotate_of_find?_eq_none (h.find?_printedAfter hstatus)

theorem NoMessage.text_annotate {s : Text} (h : NoMessage s) :
    (SuccessMessage.annotate s).text = s := by
  rw [SuccessMessage.annotate, edit_of_find?_eq_none _ h.find?_eq_none]

theorem NoMessage.insertions_eq_nil {s : Text} (h : NoMessage s) (names : Names) :
    insertions names s = [] := by
  have hplain := find?_eq_none_iff.mp h.find?_eq_none [] s rfl
  have hprinted := find?_eq_none_iff.mp h.find?_adjacency_eq_none [] s rfl
  rw [insertions, statusInsertions, labelInsertions, hplain, hprinted]
  rfl

/-- A text without messages is left alone. -/
theorem composed_eq_fused_of_noMessage {s : Text} (h : NoMessage s) (names : Names) :
    composed names s = fused names s := by
  have hnone : Text.insertionsIn (insertions names) s = [] := by
    cases s with
    | nil => rfl
    | cons d s =>
      have htail (x r : Text) (hr : s = x ++ r) : insertions names r = [] := by
        have hnone : NoMessage r := NoMessage.of_append (a := d :: x) (by simpa [hr] using h)
        exact hnone.insertions_eq_nil names
      rw [Text.insertionsIn_of_tail htail, h.insertions_eq_nil]
  have hcount : adjacency.occurrences s = 0 :=
    occurrences_eq_zero_iff.mpr h.find?_adjacency_eq_none
  rw [composed, h.text_annotate, h.annotate_eq, fused, hnone, hcount, Text.insertAll_nil]

/-- Only at the front of the text there is a message. -/
structure OnlyInFront (i : Id) (c y : Text) : Prop where
  closing : c ∈ closings
  /-- No message begins inside the one at the front or behind it. -/
  only : ∀ x j c' y', c' ∈ closings → message i c ++ y = x ++ (message j c' ++ y') → x = []

namespace OnlyInFront

variable {i : Id} {c y : Text}

/-- Behind the first character of the text no message begins. -/
theorem noMessage_of_append (h : OnlyInFront i c y) {d : Char} {a b : Text}
    (heq : message i c ++ y = d :: (a ++ b)) : NoMessage b := by
  intro x j c' y' hc' hb
  have hfront := h.only (d :: (a ++ x)) j c' y' hc' (by rw [heq, hb]; simp)
  exact absurd hfront (List.cons_ne_nil d _)

theorem noMessage (h : OnlyInFront i c y) : NoMessage y :=
  h.noMessage_of_append (List.cons_append ..)

theorem insertions_of_tail (h : OnlyInFront i c y) (names : Names) :
    Text.insertionsIn (insertions names) (message i c ++ y) =
      insertions names (message i c ++ y) := by
  obtain ⟨d, s, hs⟩ := exists_cons_message i c y
  rw [hs]
  refine Text.insertionsIn_of_tail fun x r hr => NoMessage.insertions_eq_nil ?_ names
  exact h.noMessage_of_append (by rw [hs, hr])

theorem occurrences_eq (h : OnlyInFront i c y) :
    adjacency.occurrences (message i c ++ y) =
      if (adjacency.match? (message i c ++ y)).isSome then 1 else 0 := by
  obtain ⟨d, s, hs⟩ := exists_cons_message i c y
  have htail : NoMessage s := h.noMessage_of_append (a := []) hs
  rw [hs, occurrences_cons, occurrences_eq_zero_iff.mpr htail.find?_adjacency_eq_none, Nat.zero_add]

end OnlyInFront

/-- With the status code in the message at the front, no message comes about further down. -/
theorem eq_nil_of_statusMessage {i j : Id} {c x y z : Text} (hy : NoMessage y) (hc : c ∈ closings)
    (heq : message i statusClosing ++ y = x ++ (message j c ++ z)) : x = [] := by
  rcases List.append_eq_append_iff.mp heq with ⟨x', rfl, hz⟩ | ⟨v, hmessage, hz⟩
  · exact absurd hz (hy x' j c z hc)
  · by_cases hx : x = []
    · exact hx
    by_cases hv : v = []
    · exact absurd (by simpa [hv] using hz.symm) (hy [] j c z hc)
    have hcheck : '✓' ∉ passed ++ status := by decide
    have hend : x ++ v = message i ((passed ++ status) ++ Shell.greenClosing) := by
      rw [List.append_assoc, ← statusClosing_eq, hmessage]
    rw [message, List.append_assoc] at hz
    exact absurd hz (opening_not_inside hcheck hend hx hv)

section

variable {i : Id} {c y : Text} {names : Names}

/-- Without a count and a printing behind the message there is nothing to label. -/
theorem OnlyInFront.annotate_statusMessage (h : OnlyInFront i c y)
    (hapart : ∀ b b' rest, Blank b → Blank b' →
      message i c ++ y ≠ leadWith c i b ++ (printing b' ++ rest)) :
    annotate names (message i statusClosing ++ y) = ⟨message i statusClosing ++ y, 0⟩ := by
  refine annotate_of_find?_eq_none (find?_eq_none_iff_takes.mpr fun before t rest hs ht => ?_)
  obtain ⟨j, b, b', hb, hb', rfl⟩ := takes_pattern.mp ht
  have hfront : message i statusClosing ++ y = before ++ (message j statusClosing ++
      ('\n' :: (b ++ (counting ++ ['\n'])) ++ (printing b' ++ rest))) := by
    rw [hs, lead]
    simp only [List.append_assoc]
  obtain rfl := eq_nil_of_statusMessage h.noMessage statusClosing_mem_closings hfront
  obtain ⟨_, _, rfl⟩ :=
    closing_unique statusClosing_mem_closings statusClosing_mem_closings hfront
  refine hapart b b' rest hb hb' ?_
  rw [leadWith]
  simp only [List.append_assoc]

/-- In front of the last insertion, those of the message are made as if it stood alone. -/
theorem insertAll_leadWith {es : List Insertion} (hplace : ∀ e ∈ es, e.place < (message i c).length)
    (hmessage : Text.insertAll es (message i c) = message i statusClosing) (new b b' rest : Text) :
    Text.insertAll (es ++ [⟨(leadWith c i b).length, new⟩])
        (leadWith c i b ++ (printing b' ++ rest)) =
      lead i b ++ (new ++ (printing b' ++ rest)) := by
  have hinside : ∀ e ∈ es, e.place < (leadWith c i b).length := by
    intro e he
    have := hplace e he
    rw [leadWith, List.length_append]
    omega
  have hprinting : printing b' ++ rest ≠ [] := by
    have hcommand : bodyCommand ≠ [] := List.cons_ne_nil 'e' _
    simp [printing, hcommand]
  rw [Text.insertAll_last es new hprinting hinside, leadWith, Text.insertAll_inside _ hplace,
    hmessage, lead]

/-- A text with one message, at its front, is edited alike by the two passes and at once. -/
theorem OnlyInFront.composed_eq_fused (h : OnlyInFront i c y) :
    composed names (message i c ++ y) = fused names (message i c ++ y) := by
  obtain ⟨es, hes, hplace, hmessage⟩ := statusInsertions_message i h.closing
  rw [composed, text_annotate_message i h.closing, h.noMessage.text_annotate, fused,
    h.insertions_of_tail, h.occurrences_eq, insertions, hes]
  rcases adjacency_cases i h.closing y with
    ⟨hnone, hapart⟩ | ⟨m, b, b', rest, hm, hb, hb', hlead, heq⟩
  · rw [h.annotate_statusMessage hapart, labelInsertions_of_none hnone, hnone, List.append_nil,
      Text.insertAll_inside y hplace, hmessage]
    rfl
  · obtain rfl : y = '\n' :: (b ++ (counting ++ ['\n'])) ++ (printing b' ++ rest) := by
      rw [leadWith, List.append_assoc] at heq
      exact List.append_cancel_left heq
    have hrest : NoMessage rest := by
      refine NoMessage.of_append (a := '\n' :: (b ++ (counting ++ ['\n'])) ++ printing b') ?_
      simpa only [List.append_assoc] using h.noMessage
    have hnil : annotate names [] = ⟨[], 0⟩ := rfl
    have hprinted := annotate_printed names [] rest i hb hb'
    rw [hrest.annotate_eq, hnil, Edited.nil_append, List.nil_append, lead,
      List.append_assoc] at hprinted
    rw [hprinted, labelInsertions_of_some hm, hm, heq, hlead, insertAll_leadWith hplace hmessage]
    ext1
    · simp [lead]
    · rfl

end

/-! ## The whole text -/

theorem composed_eq_fused (names : Names) (s : Text) : composed names s = fused names s := by
  -- a text is shortened at any message that is not at its front
  induction hlen : s.length using Nat.strongRecOn generalizing s with
  | ind n ih =>
    by_cases hinside : ∃ x i c y, x ≠ [] ∧ c ∈ closings ∧ s = x ++ (message i c ++ y)
    · obtain ⟨x, i, c, y, hx, hc, rfl⟩ := hinside
      have hbefore := List.length_pos_iff.mpr hx
      have hmessage := List.length_pos_iff.mpr (message_ne_nil i c)
      simp only [List.length_append] at hlen
      rw [composed_append names x y i hc, fused_append, ih _ (by omega) x rfl,
        ih _ (by simp only [List.length_append]; omega) (message i c ++ y) rfl]
    · have honly (x : Text) (i : Id) (c y : Text) (hc : c ∈ closings)
          (hs : s = x ++ (message i c ++ y)) : x = [] :=
        Classical.byContradiction fun hx => hinside ⟨x, i, c, y, hx, hc, hs⟩
      by_cases hfront : ∃ i c y, c ∈ closings ∧ s = message i c ++ y
      · obtain ⟨i, c, y, hc, rfl⟩ := hfront
        exact OnlyInFront.composed_eq_fused ⟨hc, honly⟩
      · refine composed_eq_fused_of_noMessage (fun x i c y hc hs => ?_) names
        obtain rfl := honly x i c y hc hs
        exact hfront ⟨i, c, y, hc, hs⟩

/--
The two passes in a row are the one edit that inserts the status code into every message without
it, and a label into every place where a count and the printing of the response body follow a
message, with or without the code. Their counts are those of all such places.
-/
theorem passes_eq_fused (names : Names) (s : Text) :
    (annotate names (SuccessMessage.annotate s).text).text =
        Text.insertAll (Text.insertionsIn (insertions names) s) s ∧
      (SuccessMessage.annotate s).count = SuccessMessage.pattern.occurrences s ∧
        (annotate names (SuccessMessage.annotate s).text).count = adjacency.occurrences s := by
  have h := composed_eq_fused names s
  exact ⟨congrArg Edited.text h, count_annotate s, congrArg Edited.count h⟩

end CurlLog.ResponseLabel
