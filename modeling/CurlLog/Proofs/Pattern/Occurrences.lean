import CurlLog.Proofs.Pattern.Seam

/-!
# All places where a pattern matches

A cut goes on behind each match, so it passes over a match that begins inside another one.
`Pattern.occurrences` counts the places where a pattern matches at all. At a seam the places of the
two sides are counted one after the other (`occurrences_append`), and if no match begins inside
another one, a cut finds them all (`count_cut_eq_occurrences`).
-/

namespace CurlLog

theorem Text.mem_suffixes {r s : Text} : r ∈ suffixes s ↔ ∃ before, s = before ++ r := by
  induction s with
  | nil => simp [suffixes, eq_comm]
  | cons c s ih =>
    rw [suffixes, List.mem_cons, ih]
    constructor
    · rintro (rfl | ⟨before, rfl⟩)
      · exact ⟨[], rfl⟩
      · exact ⟨c :: before, rfl⟩
    · rintro ⟨_ | ⟨d, before⟩, h⟩
      · exact Or.inl h.symm
      · exact Or.inr ⟨before, (List.cons.inj h).2⟩

namespace Pattern

variable {α : Type}

/-- The number of places of the text at which the pattern matches. -/
def occurrences (p : Pattern α) (s : Text) : Nat :=
  (Text.suffixes s).countP fun r => (p.match? r).isSome

theorem occurrences_cons (p : Pattern α) (c : Char) (s : Text) :
    p.occurrences (c :: s) = p.occurrences s + if (p.match? (c :: s)).isSome then 1 else 0 := by
  rw [occurrences, Text.suffixes, List.countP_cons]
  rfl

/-- A pattern that matches nowhere is not found. -/
theorem occurrences_eq_zero_iff {p : Pattern α} {s : Text} :
    p.occurrences s = 0 ↔ p.find? s = none := by
  simp only [occurrences, List.countP_eq_zero, Text.mem_suffixes, find?_eq_none_iff,
    Option.not_isSome_iff_eq_none]
  exact ⟨fun h before rest hs => h rest ⟨before, hs⟩, fun h rest ⟨before, hs⟩ => h before rest hs⟩

theorem occurrences_nil {p : Pattern α} (hp : ¬ p.Takes []) : p.occurrences [] = 0 := by
  refine occurrences_eq_zero_iff.mpr (find?_eq_none_iff_takes.mpr fun before t rest hs => ?_)
  obtain rfl : t = [] := by simp_all
  exact hp

/-- At a seam the places of a text are those of its two sides. -/
theorem occurrences_append {p : Pattern α} (hp : ¬ p.Takes []) {a b : Text} (h : p.Seam a b) :
    p.occurrences (a ++ b) = p.occurrences a + p.occurrences b := by
  induction a with
  | nil => rw [List.nil_append, occurrences_nil hp, Nat.zero_add]
  | cons c a ih =>
    have hmatch : (p.match? (c :: a ++ b)).isSome = (p.match? (c :: a)).isSome := by
      rw [h.match?_append (List.cons_ne_nil c a), Option.isSome_map]
    rw [List.cons_append] at hmatch ⊢
    rw [occurrences_cons, occurrences_cons, hmatch, ih (Seam.of_suffix (x := [c]) h)]
    omega

/-! ## Matches that do not overlap -/

/-- No text of the pattern begins inside another one. -/
def Apart (p : Pattern α) : Prop :=
  ∀ x t y, p.Takes t → p.Seam x (t ++ y)

/-- From the inside of a text of the pattern on, it matches only where that text has ended. -/
theorem Apart.occurrences_inside {p : Pattern α} (h : p.Apart) {x t : Text} (hx : x ≠ [])
    (ht : p.Takes (x ++ t)) (rest : Text) : p.occurrences (t ++ rest) = p.occurrences rest := by
  induction t generalizing x with
  | nil => rfl
  | cons c t ih =>
    have hnone : p.match? (c :: (t ++ rest)) = none := by
      refine match?_eq_none_iff_takes.mpr fun u y hu htakes => ?_
      exact h x u y htakes [] x (c :: t) rest rfl hu.symm hx (List.cons_ne_nil c t) ht
    have ht' : p.Takes ((x ++ [c]) ++ t) := by simpa using ht
    rw [List.cons_append, occurrences_cons, hnone, ih (by simp) ht']
    rfl

theorem Apart.occurrences_of_match? {p : Pattern α} (h : p.Apart) (hp : ¬ p.Takes [])
    {s rest : Text} {m : Match α} (hm : p.match? s = some (m, rest)) :
    p.occurrences s = p.occurrences rest + 1 := by
  obtain ⟨hfits, rfl⟩ := match?_sound hm
  have htakes := hfits.takes
  obtain ⟨c, t, ht⟩ := List.exists_cons_of_ne_nil fun hnil => hp (hnil ▸ htakes)
  rw [ht] at htakes hm ⊢
  rw [List.cons_append] at hm ⊢
  rw [occurrences_cons, hm, h.occurrences_inside (List.cons_ne_nil c []) htakes]
  rfl

/-- If matches do not overlap, a cut finds all of them. -/
theorem Apart.count_cut_eq_occurrences {p : Pattern α} (h : p.Apart) (hp : ¬ p.Takes [])
    (s : Text) : (p.cut s).count = p.occurrences s := by
  fun_induction cut p s with
  | case1 s hs => exact (occurrences_eq_zero_iff.mpr hs).symm
  | case2 s before m rest hs hm => exact absurd hm (text_ne_nil_of_find? hp hs)
  | case3 s before m rest hs hm c ih =>
    have hbefore : p.occurrences before = 0 :=
      occurrences_eq_zero_iff.mpr (find?_before_eq_none hp hs)
    obtain ⟨hmatch, rfl⟩ := find?_sound hs
    have hseam := h before m.text rest (fits_of_match? hmatch).takes
    rw [List.append_assoc, occurrences_append hp hseam, hbefore, h.occurrences_of_match? hp hmatch,
      ← ih, Nat.zero_add]
    rfl

theorem Apart.count_edit_eq_occurrences {p : Pattern α} (h : p.Apart) (hp : ¬ p.Takes [])
    (f : Match α → Text) (s : Text) : (p.edit f s).count = p.occurrences s := by
  rw [count_edit, h.count_cut_eq_occurrences hp]

end Pattern

end CurlLog
