import CurlLog.Proofs.Pattern.Seam

/-!
# Patterns linked by gaps

A pattern that begins with a fixed mark and goes on after a gap of any characters can be found
without going back: the first mark is as good as any later one, because whatever follows a later
mark follows the first one too (`find?_chain`).

What this needs of the mark is that it is read in one way only (`Rigid`) and that two marks never
overlap, since they begin with a character that does not come again in them (`LedBy`).
-/

namespace CurlLog.Pattern

variable {α : Type}

/-- Every text of the pattern begins with `d`, and `d` comes nowhere else in it. -/
def LedBy (d : Char) (p : Pattern α) : Prop :=
  ∀ t, p.Takes t → ∃ u, t = d :: u ∧ d ∉ u

/-- Of two marks, the one that begins first ends first. -/
theorem LedBy.ends_first {d : Char} {p : Pattern α} (h : p.LedBy d) {b b' t t' r r' : Text}
    (ht : p.Takes t) (ht' : p.Takes t') (heq : b ++ (t ++ r) = b' ++ (t' ++ r'))
    (hlen : b.length < b'.length) : ∃ x, r = x ++ t' ++ r' := by
  obtain ⟨y, rfl, hy⟩ : ∃ y, b' = b ++ y ∧ t ++ r = y ++ (t' ++ r') := by
    rcases List.append_eq_append_iff.mp heq with ⟨y, rfl, hy⟩ | ⟨y, rfl, _⟩
    · exact ⟨y, rfl, hy⟩
    · simp only [List.length_append] at hlen
      omega
  rcases List.append_eq_append_iff.mp hy with ⟨x, _, hr⟩ | ⟨z, rfl, hz⟩
  · exact ⟨x, by simp [hr]⟩
  · obtain ⟨u, rfl, _⟩ := h t' ht'
    obtain ⟨v, hv, hnot⟩ := h (y ++ z) ht
    obtain _ | ⟨c, y⟩ := y
    · simp at hlen
    obtain _ | ⟨e, z⟩ := z
    · exact ⟨[], by simpa using hz.symm⟩
    · -- the second mark would begin inside the first one, behind its first character
      obtain ⟨rfl, _⟩ : d = e ∧ _ := by simpa using hz
      simp only [List.cons_append, List.cons.injEq] at hv
      exact absurd (hv.2 ▸ by simp) hnot

/-- What a later mark leaves is left by an earlier one too. -/
theorem LedBy.rest_suffix {d : Char} {p : Pattern α} (hled : p.LedBy d) (hrigid : p.Rigid)
    {b b' r r' : Text} {m m' : Match α} (hm : p.Fits m) (hm' : p.Fits m')
    (heq : b ++ (m.text ++ r) = b' ++ (m'.text ++ r')) (hlen : b.length ≤ b'.length) :
    ∃ x, r = x ++ r' := by
  rcases Nat.lt_or_eq_of_le hlen with hlt | hlen
  · obtain ⟨x, rfl⟩ := hled.ends_first hm.takes hm'.takes heq hlt
    exact ⟨x ++ m'.text, rfl⟩
  · obtain ⟨_, htail⟩ := List.append_inj heq hlen
    obtain rfl := hrigid m m' r r' hm hm' htail
    exact ⟨[], List.append_cancel_left htail⟩

/-- What follows any mark of the text follows the mark that is found. -/
theorem LedBy.find?_suffix {d : Char} {p : Pattern α} (hled : p.LedBy d) (hrigid : p.Rigid)
    {s before r : Text} {m : Match α} (h : p.find? s = some (before, m, r)) {x t r' : Text}
    (ht : p.Takes t) (hs : s = x ++ (t ++ r')) : ∃ w, r = w ++ r' := by
  obtain ⟨m', hm', rfl⟩ := takes_iff.mp ht
  refine hled.rest_suffix hrigid (fits_of_find? h) hm' ?_ (find?_length_le h ht hs)
  rw [← hs, ← text_of_find? h, List.append_assoc]

/-- A later part of the text holds no match if the whole holds none. -/
theorem find?_suffix_eq_none {p : Pattern α} {x r : Text} (h : p.find? (x ++ r) = none) :
    p.find? r = none := by
  rw [find?_eq_none_iff] at h ⊢
  exact fun b s hr => h (x ++ b) s (by simp [hr])

/-- At the front of a text, the mark is read off first and the rest is looked for behind it. -/
theorem match?_chain {p : Pattern α} (hrigid : p.Rigid) (a : α) (q : Pattern α) (s : Text) :
    match? (p ++ (a, .least fun _ => true) :: q) s =
      (p.match? s).bind fun (m, s₁) =>
        (q.find? s₁).map fun (gap, m', rest) => (m ++ (a, gap) :: m', rest) := by
  rw [match?_append_of_rigid hrigid]
  congr 1
  funext ⟨m, s₁⟩
  simp only [match?_gap, Option.map_map]
  rfl

/--
A mark, a gap and what comes after the gap: the first mark is taken, and then the first place
after it where the rest matches.
-/
theorem find?_chain {d : Char} {p : Pattern α} (hled : p.LedBy d) (hrigid : p.Rigid) (a : α)
    (q : Pattern α) (s : Text) :
    find? (p ++ (a, .least fun _ => true) :: q) s =
      (p.find? s).bind fun (before, m, s₁) =>
        (q.find? s₁).map fun (gap, m', rest) => (before, m ++ (a, gap) :: m', rest) := by
  cases hp : p.find? s with
  | none =>
    refine find?_eq_none_iff.mpr fun b r hs => ?_
    rw [match?_chain hrigid, find?_eq_none_iff.mp hp b r hs]
    rfl
  | some first =>
    obtain ⟨before, m, s₁⟩ := first
    obtain ⟨hs, hm, hfirst⟩ := find?_eq_some_iff.mp hp
    have hbefore {b r : Text} (hr : s = b ++ r) (hlen : b.length < before.length) :
        match? (p ++ (a, .least fun _ => true) :: q) r = none := by
      rw [match?_chain hrigid, hfirst b r hr hlen]
      rfl
    cases hq : q.find? s₁ with
    | none =>
      simp only [Option.bind_some, hq, Option.map_none]
      refine find?_eq_none_iff.mpr fun b r hr => ?_
      rcases Nat.lt_or_ge b.length before.length with hlen | hlen
      · exact hbefore hr hlen
      · rw [match?_chain hrigid]
        cases hm' : p.match? r with
        | none => rfl
        | some later =>
          obtain ⟨m', s'⟩ := later
          obtain ⟨hfit', rfl⟩ := match?_sound hm'
          obtain ⟨x, rfl⟩ := hled.rest_suffix hrigid (fits_of_match? hm) hfit'
            (by rw [← hr, hs, List.append_assoc]) hlen
          simp [find?_suffix_eq_none hq]
    | some second =>
      obtain ⟨gap, m', rest⟩ := second
      have hs₁ := text_of_find? hq
      simp only [Option.bind_some, hq, Option.map_some]
      refine find?_eq_some_iff.mpr ⟨?_, ?_, fun b r => hbefore⟩
      · simp [hs, ← hs₁]
      · rw [match?_chain hrigid]
        have htext : Match.text (m ++ (a, gap) :: m') ++ rest = m.text ++ s₁ := by
          simp [← hs₁]
        rw [htext, hm]
        simp only [Option.bind_some, hq]
        rfl

end CurlLog.Pattern
