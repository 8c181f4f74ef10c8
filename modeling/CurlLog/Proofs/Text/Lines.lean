import CurlLog.Text.Basic

/-!
# Lines and words

Most of what the passes look for stands on one line, or begins at the start of a line.

* A word without the character `d` lies before or behind each `d` of a text (`word_cases`,
  `infix_append_cons`).
* The first `d` of a text cuts it in one way (`first_cases`).
* A text that ends where a line ends (`WholeLines`) shares no word of one line with what follows
  it (`WholeLines.infix_append`).
-/

namespace CurlLog.Text

/-! ## Cutting at a character -/

/-- A `d` of two texts in a row is in the first or in the second. -/
theorem char_cases {d : Char} {p q u v : Text} (heq : p ++ q = u ++ d :: v) :
    (∃ t, p = u ++ d :: t ∧ v = t ++ q) ∨ ∃ w, u = p ++ w ∧ q = w ++ d :: v := by
  rcases List.append_eq_append_iff.mp heq with ⟨w, rfl, hw⟩ | ⟨t, rfl, ht⟩
  · exact Or.inr ⟨w, rfl, hw⟩
  · obtain _ | ⟨c, t⟩ := t
    · exact Or.inr ⟨[], by simp, by simpa using ht.symm⟩
    · obtain ⟨rfl, rfl⟩ : d = c ∧ v = t ++ q := by simpa using ht
      exact Or.inl ⟨t, rfl, rfl⟩

/-- What stands before a `d` has the characters before it. -/
theorem mem_of_append_cons {d e : Char} {p q u v : Text} (hp : d ∉ p) (hne : e ≠ d)
    (heq : p ++ e :: q = u ++ d :: v) : e ∈ u := by
  rcases char_cases heq with ⟨t, rfl, _⟩ | ⟨w, rfl, hw⟩
  · simp at hp
  · obtain _ | ⟨c, w⟩ := w
    · exact absurd (List.head_eq_of_cons_eq hw) hne
    · obtain rfl : e = c := List.head_eq_of_cons_eq hw
      simp

/-- A text is cut at its first `d`, or at one behind it. -/
theorem first_cases {d : Char} {p q u v : Text} (hp : d ∉ p) (heq : u ++ d :: v = p ++ d :: q) :
    (u = p ∧ v = q) ∨ ∃ w, u = p ++ d :: w ∧ q = w ++ d :: v := by
  rcases char_cases heq.symm with ⟨t, rfl, _⟩ | ⟨w, rfl, hw⟩
  · simp at hp
  · obtain _ | ⟨c, w⟩ := w
    · exact Or.inl (by simpa using hw.symm)
    · obtain ⟨rfl, rfl⟩ : d = c ∧ q = w ++ d :: v := by simpa using hw
      exact Or.inr ⟨w, rfl, rfl⟩

/-- The place of the first `d` is the only one with no `d` before it. -/
theorem first_unique {d : Char} {p q u v : Text} (hp : d ∉ p) (hu : d ∉ u)
    (heq : u ++ d :: v = p ++ d :: q) : u = p ∧ v = q := by
  rcases first_cases hp heq with h | ⟨w, rfl, _⟩
  · exact h
  · simp at hu

/-- The place of the last `d` is the only one with no `d` behind it. -/
theorem last_unique {d : Char} {p q u v : Text} (hq : d ∉ q) (hv : d ∉ v)
    (heq : p ++ d :: q = u ++ d :: v) : p = u ∧ q = v := by
  rcases char_cases heq with ⟨t, rfl, rfl⟩ | ⟨w, rfl, hw⟩
  · simp at hv
  · obtain _ | ⟨c, w⟩ := w
    · simpa using hw
    · obtain ⟨_, rfl⟩ : d = c ∧ q = w ++ d :: v := by simpa using hw
      simp at hq

/-- A word without `d` lies in front of a `d` or behind it. -/
theorem word_cases {d : Char} {p q x w z : Text} (hw : d ∉ w)
    (heq : p ++ d :: q = x ++ (w ++ z)) (hne : w ≠ []) :
    (∃ z', p = x ++ (w ++ z') ∧ z = z' ++ d :: q) ∨
      ∃ x', x = p ++ d :: x' ∧ q = x' ++ (w ++ z) := by
  rcases List.append_eq_append_iff.mp heq with ⟨x', rfl, hq⟩ | ⟨u, rfl, hu⟩
  · obtain _ | ⟨c, x'⟩ := x'
    · obtain ⟨e, w, rfl⟩ := List.exists_cons_of_ne_nil hne
      obtain ⟨rfl, _⟩ : d = e ∧ _ := by simpa using hq
      simp at hw
    · obtain ⟨rfl, rfl⟩ : d = c ∧ q = x' ++ (w ++ z) := by simpa using hq
      exact Or.inr ⟨x', rfl, rfl⟩
  · rcases List.append_eq_append_iff.mp hu with ⟨z', rfl, hz⟩ | ⟨v, rfl, hv⟩
    · exact Or.inl ⟨z', rfl, hz⟩
    · obtain _ | ⟨c, v⟩ := v
      · exact Or.inl ⟨[], by simp, by simpa using hv.symm⟩
      · obtain ⟨rfl, _⟩ : d = c ∧ q = v ++ z := by simpa using hv
        simp at hw

/-- The end of a text has the last character of the text. -/
theorem last_cases {d : Char} {u v t : Text} (heq : u ++ v = t ++ [d]) (hv : v ≠ []) :
    ∃ w, v = w ++ [d] ∧ u ++ w = t := by
  rcases List.eq_nil_or_concat v with rfl | ⟨w, c, rfl⟩
  · exact absurd rfl hv
  · rw [List.concat_eq_append, ← List.append_assoc] at heq
    obtain ⟨rfl, hlast⟩ := List.append_inj' heq rfl
    obtain rfl : c = d := by simpa using hlast
    exact ⟨w, by simp, rfl⟩

/-- A word without `d` is found on one side of a `d`. -/
theorem infix_append_cons {d : Char} {p q w : Text} (hw : d ∉ w) :
    w <:+: p ++ d :: q ↔ w <:+: p ∨ w <:+: q := by
  constructor
  · rintro ⟨x, z, h⟩
    by_cases hne : w = []
    · exact Or.inl (hne ▸ List.nil_infix)
    rcases word_cases hw (by rw [← h, List.append_assoc]) hne with ⟨z', rfl, _⟩ | ⟨x', _, rfl⟩
    · exact Or.inl ⟨x, z', by simp⟩
    · exact Or.inr ⟨x', z, by simp⟩
  · rintro (h | h)
    · exact h.trans (List.infix_append [] p _)
    · exact h.trans ⟨p ++ [d], [], by simp⟩

theorem eq_of_suffix_concat {c d : Char} {s : Text} (h : [d] <:+ s ++ [c]) : d = c := by
  obtain ⟨w, hw⟩ := h
  simpa using (List.append_inj' hw rfl).2

/-- A word without `d` at the front of a text ends before the first `d`. -/
theorem prefix_append_cons {d : Char} {w p q : Text} (hw : d ∉ w) :
    w <+: p ++ d :: q ↔ w <+: p := by
  constructor
  · rintro ⟨z, hz⟩
    rcases char_cases hz with ⟨t, rfl, _⟩ | ⟨t, rfl, _⟩
    · simp at hw
    · exact List.prefix_append _ _
  · exact fun h => h.trans (List.prefix_append _ _)

/-- The end of a text is the end of its second part, if that is long enough. -/
theorem suffix_append_iff {w p q : Text} (h : w.length ≤ q.length) : w <:+ p ++ q ↔ w <:+ q :=
  ⟨fun hw => List.suffix_of_suffix_length_le hw (List.suffix_append p q) h,
    fun hw => hw.trans (List.suffix_append p q)⟩

/-- A word without `d` at the end of a text begins behind the last `d`. -/
theorem suffix_append_cons {d : Char} {w p q : Text} (hw : d ∉ w) :
    w <:+ p ++ d :: q ↔ w <:+ q := by
  constructor
  · rintro ⟨z, hz⟩
    rcases char_cases hz with ⟨t, _, rfl⟩ | ⟨t, _, rfl⟩
    · exact List.suffix_append _ _
    · simp at hw
  · exact fun h => h.trans ((List.suffix_cons d q).trans (List.suffix_append p _))

/-- A word ends before the end of a text exactly if it is in the text without its last character. -/
theorem infix_dropLast_iff {w s : Text} (hw : w ≠ []) :
    w <:+: s.dropLast ↔ ∃ x y, s = x ++ (w ++ y) ∧ y ≠ [] := by
  constructor
  · rintro ⟨x, y, h⟩
    have hs : s ≠ [] := by
      rintro rfl
      simp [hw] at h
    have hlast := List.dropLast_concat_getLast hs
    rw [← h] at hlast
    exact ⟨x, y ++ [s.getLast hs], hlast.symm.trans (by simp), by simp⟩
  · rintro ⟨x, y, rfl, hy⟩
    refine ⟨x, y.dropLast, ?_⟩
    rw [List.append_assoc, List.dropLast_append_of_ne_nil (by simp [hw]),
      List.dropLast_append_of_ne_nil hy]

theorem occurs_iff_infix {w s : Text} : occurs w s = true ↔ w <:+: s := by
  rw [occurs_iff]
  constructor
  · rintro ⟨p, q, rfl⟩
    exact ⟨p, q, rfl⟩
  · rintro ⟨p, q, rfl⟩
    exact ⟨p, q, rfl⟩

/-! ## Whole lines -/

/-- The text is made up of lines that all have their end. -/
def WholeLines (s : Text) : Prop :=
  s = [] ∨ ∃ t, s = t ++ ['\n']

theorem wholeLines_nil : WholeLines [] := Or.inl rfl

theorem wholeLines_append_newline (t : Text) : WholeLines (t ++ ['\n']) := Or.inr ⟨t, rfl⟩

theorem WholeLines.append {s t : Text} (hs : WholeLines s) (ht : WholeLines t) :
    WholeLines (s ++ t) := by
  rcases ht with rfl | ⟨t, rfl⟩
  · simpa using hs
  · exact Or.inr ⟨s ++ t, by simp⟩

theorem WholeLines.of_append {s t : Text} (h : WholeLines (s ++ t)) : WholeLines t := by
  rcases List.eq_nil_or_concat t with rfl | ⟨t, c, rfl⟩
  · exact wholeLines_nil
  · rcases h with h | ⟨u, h⟩
    · simp at h
    · obtain rfl : c = '\n' := by
        have h : (s ++ t) ++ [c] = u ++ ['\n'] := by simpa using h
        simpa using (List.append_inj' h rfl).2
      simpa using wholeLines_append_newline t

/-- A text is some whole lines and what stands behind the last line end. -/
theorem exists_wholeLines (s : Text) : ∃ x l, s = x ++ l ∧ WholeLines x ∧ '\n' ∉ l := by
  induction s with
  | nil => exact ⟨[], [], rfl, wholeLines_nil, List.not_mem_nil⟩
  | cons c s ih =>
    obtain ⟨x, l, rfl, hx, hl⟩ := ih
    rcases hx with rfl | ⟨t, rfl⟩
    · by_cases hc : c = '\n'
      · exact ⟨['\n'], l, by simp [hc], wholeLines_append_newline [], hl⟩
      · exact ⟨[], c :: l, rfl, wholeLines_nil, by simp [Ne.symm hc, hl]⟩
    · exact ⟨c :: (t ++ ['\n']), l, rfl, wholeLines_append_newline (c :: t), hl⟩

/-- What stands behind the last line end is one text only. -/
theorem WholeLines.last_line_unique {x x' l l' : Text} (hx : WholeLines x) (hx' : WholeLines x')
    (hl : '\n' ∉ l) (hl' : '\n' ∉ l') (heq : x ++ l = x' ++ l') : l = l' := by
  rcases hx with rfl | ⟨t, rfl⟩ <;> rcases hx' with rfl | ⟨t', rfl⟩
  · exact heq
  · obtain rfl : l = t' ++ ['\n'] ++ l' := heq
    simp at hl
  · obtain rfl : t ++ ['\n'] ++ l = l' := heq
    simp at hl'
  · rw [List.append_assoc, List.append_assoc] at heq
    exact (last_unique hl hl' heq).2

/-- A word without a line end is found on one side of the end of a line. -/
theorem WholeLines.infix_append {p q w : Text} (hp : WholeLines p) (hw : '\n' ∉ w) :
    w <:+: p ++ q ↔ w <:+: p ∨ w <:+: q := by
  have hnil (s : Text) : w <:+: [] ∨ w <:+: s ↔ w <:+: s :=
    or_iff_right_of_imp fun h => h.trans (List.nil_infix)
  rcases hp with rfl | ⟨p, rfl⟩
  · exact (hnil q).symm
  · rw [List.append_assoc, List.singleton_append, infix_append_cons hw, infix_append_cons hw,
      or_assoc, hnil]

end CurlLog.Text
