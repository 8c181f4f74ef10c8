import CurlLog.Proofs.Pattern.Seam

/-!
# Replacing a word

`Text.replaceAll` goes from one occurrence of a word to the next, each the first one behind the end
of the one before. `replaceAll_induction` is the induction along these occurrences: it does not
depend on what is put in their place, so two replacements in one text can be followed side by side.

* A word that stands only at the end of a text is replaced there and nowhere else
  (`replaceAll_append_iff`).
* A replacement keeps all that stands between the occurrences (`exists_pieces`).
* A replacement can be taken back if the new word can be told from the text around it
  (`replaceAll_replaceAll`).
-/

namespace CurlLog.Text

open Pattern

variable {w : Text}

/-- The pattern of a word takes the word. -/
theorem takes_word {t : Text} : (ofPart () [.word w]).Takes t ↔ t = w := by
  rw [takes_ofPart, Piece.spells_word_cons]
  simp

theorem not_takes_nil_word (hw : w ≠ []) : ¬ (ofPart () [.word w]).Takes [] :=
  fun h => hw (takes_word.mp h).symm

/-- No occurrence of the word begins before the end of `a`. -/
def FirstBehind (w a b : Text) : Prop :=
  ∀ a' b', a ++ (w ++ b) = a' ++ (w ++ b') → a.length ≤ a'.length

/-- A text without the word stays as it is. -/
theorem replaceAll_of_not_mem {s : Text} (h : ¬ w <:+: s) (new : Text) :
    replaceAll w new s = s := by
  have hnone : (ofPart () [Piece.word w]).find? s = none := by
    refine find?_eq_none_iff_takes.mpr fun before t rest hs ht => h ?_
    obtain rfl := takes_word.mp ht
    exact ⟨before, rest, hs.symm⟩
  rw [replaceAll, edit_of_find?_eq_none _ hnone]

/-- The first occurrence is replaced, and the search goes on behind it. -/
theorem replaceAll_first (hw : w ≠ []) {a b : Text} (h : FirstBehind w a b) (new : Text) :
    replaceAll w new (a ++ (w ++ b)) = a ++ (new ++ replaceAll w new b) := by
  cases hfind : (ofPart () [Piece.word w]).find? (a ++ (w ++ b)) with
  | none => exact absurd (takes_word.mpr rfl) (find?_eq_none_iff_takes.mp hfind a w b (by simp))
  | some found =>
    obtain ⟨before, m, rest⟩ := found
    have htext := text_of_find? hfind
    rw [takes_word.mp (fits_of_find? hfind).takes, List.append_assoc] at htext
    have hle := find?_length_le hfind (takes_word.mpr rfl) rfl
    obtain ⟨rfl, hrest⟩ := List.append_inj htext (Nat.le_antisymm hle (h _ _ htext.symm))
    obtain rfl := List.append_cancel_left hrest
    rw [replaceAll, edit_of_find?_eq_some (not_takes_nil_word hw) _ hfind, Edited.text_append,
      List.append_assoc]
    rfl

/-- Induction along the occurrences that are replaced. -/
theorem replaceAll_induction (hw : w ≠ []) {motive : Text → Prop}
    (absent : ∀ s, ¬ w <:+: s → motive s)
    (first : ∀ a b, FirstBehind w a b → motive b → motive (a ++ (w ++ b))) (s : Text) :
    motive s := by
  induction s using find?_induction (not_takes_nil_word hw) with
  | absent s h =>
    refine absent s fun ⟨a, b, hs⟩ => ?_
    exact find?_eq_none_iff_takes.mp h a w b hs.symm (takes_word.mpr rfl)
  | first s before m rest h ih =>
    have htext := text_of_find? h
    rw [takes_word.mp (fits_of_find? h).takes, List.append_assoc] at htext
    rw [← htext] at h ⊢
    exact first before rest (fun a' b' heq => find?_length_le h (takes_word.mpr rfl) heq) ih

/-! ## At the end of a text -/

/-- The word stands nowhere in the text but at its end. -/
def LastOnly (w s : Text) : Prop :=
  ∀ x y, s = x ++ (w ++ y) → y = []

/-- So it is not in the text without the last character. -/
theorem lastOnly_iff (hw : w ≠ []) {s : Text} : LastOnly w s ↔ occurs w s.dropLast = false := by
  rw [← Bool.not_eq_true, occurs_iff_infix, infix_dropLast_iff hw]
  constructor
  · rintro h ⟨x, y, hs, hy⟩
    exact hy (h x y hs)
  · intro h x y hs
    exact Classical.byContradiction fun hy => h ⟨x, y, hs, hy⟩

/-- A word stands only at the end if the text does not have its first character before. -/
theorem lastOnly_append {d : Char} {pre : Text} (hpre : d ∉ pre) :
    LastOnly (d :: w) (pre ++ d :: w) := by
  intro x y h
  rcases first_cases hpre h.symm with ⟨_, hrest⟩ | ⟨v, _, hrest⟩
  · simpa using hrest
  · have hrest : w = v ++ d :: (w ++ y) := hrest
    have hlen := congrArg List.length hrest
    simp only [List.length_append, List.length_cons] at hlen
    exact List.length_eq_zero_iff.mp (by omega)

/-- What stands only at the end is replaced there. -/
theorem replaceAll_of_lastOnly (hw : w ≠ []) {pre : Text} (h : LastOnly w (pre ++ w)) (new : Text) :
    replaceAll w new (pre ++ w) = pre ++ new := by
  have hfirst : FirstBehind w pre [] := by
    intro a' b' heq
    have hb : b' = [] := h a' b' (by simpa using heq)
    have hlen := congrArg List.length heq
    simp only [hb, List.length_append, List.length_nil] at hlen
    omega
  have hnone : ¬ w <:+: [] := by simpa using hw
  have hreplace := replaceAll_first hw hfirst new
  rw [replaceAll_of_not_mem hnone] at hreplace
  simpa using hreplace

/-- At the end of a text that does not have its first character before, a word is replaced once. -/
theorem replaceAll_append {d : Char} {pre : Text} (new : Text) (hpre : d ∉ pre) :
    replaceAll (d :: w) new (pre ++ d :: w) = pre ++ new :=
  replaceAll_of_lastOnly (List.cons_ne_nil _ _) (lastOnly_append hpre) new

/-- A word is replaced at the end of a text, and only there, exactly if it stands only there. -/
theorem replaceAll_append_iff {d e : Char} (hne : d ≠ e) {new pre : Text} :
    replaceAll (d :: w) (e :: new) (pre ++ d :: w) = pre ++ e :: new ↔
      LastOnly (d :: w) (pre ++ d :: w) := by
  have hword : d :: w ≠ [] := List.cons_ne_nil _ _
  refine ⟨?_, fun h => replaceAll_of_lastOnly hword h _⟩
  intro heq
  generalize hs : pre ++ d :: w = s at heq ⊢
  induction s using replaceAll_induction hword with
  | absent s hnone => exact absurd ⟨pre, [], by simp [hs]⟩ hnone
  | first a b hfirst _ =>
    rw [replaceAll_first hword hfirst] at heq
    obtain ⟨p, rfl⟩ : a <+: pre :=
      List.prefix_of_prefix_length_le (List.prefix_append a _) (hs ▸ List.prefix_append pre _)
        (hfirst pre [] (by simpa using hs.symm))
    rw [List.append_assoc, List.append_cancel_left_eq] at heq hs
    -- before the end the new text would not go on with the old character
    obtain rfl : p = [] := by
      cases p with
      | nil => rfl
      | cons c p =>
        have hd : c = d := List.head_eq_of_cons_eq hs
        have he : e = c := List.head_eq_of_cons_eq heq
        exact absurd (he.trans hd).symm hne
    obtain rfl : b = [] := by simpa using hs
    intro x y hxy
    have hlen := congrArg List.length hxy
    have hfrom := hfirst x y hxy
    simp only [List.length_append, List.length_cons, List.length_nil] at hlen
    exact List.length_eq_zero_iff.mp (by omega)

/-! ## What a replacement keeps -/

/-- A word in a text is in what is replaced there, or stays. -/
theorem infix_replaceAll {d : Char} (hd : d ∉ w) {n s : Text} (new : Text) (h : w <:+: s) :
    w <:+: n ∨ w <:+: replaceAll (d :: (n ++ [d])) new s := by
  have hne : d :: (n ++ [d]) ≠ [] := List.cons_ne_nil _ _
  induction s using replaceAll_induction hne with
  | absent s hs =>
    rw [replaceAll_of_not_mem hs]
    exact Or.inr h
  | first a b hfirst ih =>
    rw [replaceAll_first hne hfirst]
    have hsplit : a ++ (d :: (n ++ [d]) ++ b) = a ++ d :: (n ++ d :: b) := by simp
    rw [hsplit, infix_append_cons hd, infix_append_cons hd] at h
    rcases h with ha | hn | hb
    · exact Or.inr (ha.trans (List.prefix_append _ _).isInfix)
    · exact Or.inl hn
    · cases ih hb with
      | inl hn => exact Or.inl hn
      | inr hrest => exact Or.inr (hrest.trans ⟨a ++ new, [], by simp⟩)

/-- A replacement keeps the pieces between the occurrences that it replaces. -/
theorem exists_pieces (hw : w ≠ []) (new s : Text) : ∃ pieces : List Text, pieces ≠ [] ∧
    s = w.intercalate pieces ∧ replaceAll w new s = new.intercalate pieces ∧
      (w <:+: s → 1 < pieces.length) := by
  induction s using replaceAll_induction hw with
  | absent s hnone =>
    refine ⟨[s], by simp, by simp, ?_, fun h => absurd h hnone⟩
    rw [replaceAll_of_not_mem hnone, List.intercalate_singleton]
  | first a b hfirst ih =>
    obtain ⟨pieces, hne, hb, hreplace, _⟩ := ih
    obtain ⟨p, pieces, rfl⟩ := List.exists_cons_of_ne_nil hne
    refine ⟨a :: p :: pieces, by simp, ?_, ?_, fun _ => by simp⟩
    · rw [List.intercalate_cons_cons, ← hb, List.append_assoc]
    · rw [replaceAll_first hw hfirst, hreplace, List.intercalate_cons_cons, List.append_assoc]

/-! ## Taking a replacement back -/

/-- Each occurrence that is replaced lies in the text or behind one that has been replaced. -/
theorem firstBehind_quoted {d : Char} {n a : Text} (hd : d ∉ n) (hn : n ≠ []) (ha : ¬ n <:+: a)
    (b : Text) : FirstBehind (d :: (n ++ [d])) a b := by
  intro a' b' heq
  have heq : a ++ d :: (n ++ d :: b) = (a' ++ [d]) ++ (n ++ d :: b') := by
    simpa using heq
  rcases word_cases hd heq hn with ⟨z, rfl, _⟩ | ⟨x, hx, _⟩
  · exact absurd ⟨a' ++ [d], z, by simp⟩ ha
  · have hlen := congrArg List.length hx
    simp only [List.length_append, List.length_cons, List.length_nil] at hlen
    omega

/-- A word between two `d` takes the place of another one, and that one comes back. -/
theorem replaceAll_replaceAll {d : Char} {n s : Text} (hw : w ≠ []) (hd : d ∉ n) (hn : n ≠ [])
    (hs : ¬ n <:+: s) :
    replaceAll (d :: (n ++ [d])) w (replaceAll w (d :: (n ++ [d])) s) = s := by
  have hnew : n <:+: d :: (n ++ [d]) := ⟨[d], [d], rfl⟩
  induction s using replaceAll_induction hw with
  | absent s h =>
    rw [replaceAll_of_not_mem h, replaceAll_of_not_mem fun h => hs (hnew.trans h)]
  | first a b h ih =>
    have ha : ¬ n <:+: a := fun hn => hs (hn.trans (List.prefix_append a _).isInfix)
    have hb : ¬ n <:+: b := fun hn => hs (hn.trans ⟨a ++ w, [], by simp⟩)
    rw [replaceAll_first hw h,
      replaceAll_first (List.cons_ne_nil _ _) (firstBehind_quoted hd hn ha _), ih hb]

end CurlLog.Text
