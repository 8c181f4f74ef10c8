import CurlLog.Pattern.Everywhere

/-!
# Cutting a text at the matches of a pattern

`Pattern.cut` finds the matches from left to right, each after the end of the one before it, and
keeps what stands between them. To edit a text is to put a new text in the place of each match
(`Cut.replace`, `Pattern.edit`); with its own text in each place the text is as it was
(`replace_text_cut`).

The loop ends because a match takes at least one character: the rest of the text gets shorter. A
match that takes none ends the search.

`Pattern.cut` looks for each match anew. `Pattern.scan` does the same in one run over the answers
of the pattern at all places (`scan_eq_cut`), and it is what an edit uses.
-/

namespace CurlLog

/-- A text taken apart at the matches of a pattern. -/
structure Cut (α : Type) where
  /-- The matches in order, each with what stands between it and the one before. -/
  found : List (Text × Match α)
  /-- What follows the last match. -/
  rest : Text

/-- A text after an edit, and how many places the edit changed. -/
structure Edited where
  text : Text
  count : Nat
deriving DecidableEq, Repr

variable {α : Type}

namespace Cut

/-- The matches in order. -/
def taken (c : Cut α) : List (Match α) :=
  c.found.map (·.2)

/-- The number of matches. -/
def count (c : Cut α) : Nat :=
  c.found.length

/-- The text with a new text in the place of each match. -/
def replace (f : Match α → Text) (c : Cut α) : Text :=
  (c.found.flatMap fun (before, m) => before ++ f m) ++ c.rest

/-- The same with more text in front. -/
def prepend (t : Text) : Cut α → Cut α
  | ⟨[], rest⟩ => ⟨[], t ++ rest⟩
  | ⟨(before, m) :: found, rest⟩ => ⟨(t ++ before, m) :: found, rest⟩

@[simp] theorem replace_nil (f : Match α → Text) (rest : Text) : replace f ⟨[], rest⟩ = rest := rfl

@[simp] theorem replace_cons (f : Match α → Text) (before : Text) (m : Match α)
    (found : List (Text × Match α)) (rest : Text) :
    replace f ⟨(before, m) :: found, rest⟩ = before ++ f m ++ replace f ⟨found, rest⟩ := by
  simp [replace]

/-- Only what is put in the place of the matches matters. -/
theorem replace_congr {f g : Match α → Text} {c : Cut α} (h : ∀ m ∈ c.taken, f m = g m) :
    c.replace f = c.replace g := by
  obtain ⟨found, rest⟩ := c
  induction found with
  | nil => rfl
  | cons e found ih =>
    have he : f e.2 = g e.2 := h e.2 (by simp [taken])
    have ht : replace f ⟨found, rest⟩ = replace g ⟨found, rest⟩ :=
      ih fun m hm => h m (List.mem_cons_of_mem _ hm)
    rw [replace_cons, replace_cons, he, ht]

@[simp] theorem prepend_nil (c : Cut α) : c.prepend [] = c := by
  obtain ⟨_ | ⟨⟨before, m⟩, found⟩, rest⟩ := c <;> rfl

@[simp] theorem prepend_prepend (t u : Text) (c : Cut α) :
    (c.prepend u).prepend t = c.prepend (t ++ u) := by
  obtain ⟨_ | ⟨⟨before, m⟩, found⟩, rest⟩ := c <;> simp [prepend]

end Cut

namespace Pattern

/-! ## One match after the other -/

/-- Takes the text apart at the matches of the pattern, from left to right. -/
def cut (p : Pattern α) (s : Text) : Cut α :=
  match _h : p.find? s with
  | none => ⟨[], s⟩
  | some (before, m, rest) =>
    if _hm : m.text = [] then ⟨[], s⟩
    else
      let c := p.cut rest
      ⟨(before, m) :: c.found, c.rest⟩
termination_by s.length
decreasing_by
  have hlen := List.length_pos_iff.mpr _hm
  simp only [← text_of_find? _h, List.length_append]
  omega

/-- Without a match the text stays in one piece. -/
theorem cut_of_find?_eq_none {p : Pattern α} {s : Text} (h : p.find? s = none) :
    p.cut s = ⟨[], s⟩ := by
  rw [cut]
  split
  · rfl
  · simp_all

/-- The first match is cut out, and the search goes on after it. -/
theorem cut_of_find?_eq_some {p : Pattern α} {s before rest : Text} {m : Match α}
    (h : p.find? s = some (before, m, rest)) (hm : m.text ≠ []) :
    p.cut s = ⟨(before, m) :: (p.cut rest).found, (p.cut rest).rest⟩ := by
  rw [cut]
  split
  · simp_all
  · next b m' r h' =>
    obtain ⟨rfl, rfl, rfl⟩ : before = b ∧ m = m' ∧ rest = r := by simpa [h] using h'
    simp [hm]

/-- A match that takes nothing ends the search. -/
theorem cut_of_find?_eq_some_nil {p : Pattern α} {s before rest : Text} {m : Match α}
    (h : p.find? s = some (before, m, rest)) (hm : m.text = []) : p.cut s = ⟨[], s⟩ := by
  rw [cut]
  split
  · rfl
  · next b m' r h' =>
    obtain ⟨rfl, rfl, rfl⟩ : before = b ∧ m = m' ∧ rest = r := by simpa [h] using h'
    simp [hm]

@[simp] theorem cut_nil (p : Pattern α) : p.cut [] = ⟨[], []⟩ := by
  cases h : p.find? [] with
  | none => exact cut_of_find?_eq_none h
  | some found =>
    obtain ⟨before, m, rest⟩ := found
    have ht := text_of_find? h
    simp only [List.append_eq_nil_iff] at ht
    exact cut_of_find?_eq_some_nil h ht.1.2

/-- With its own text in the place of each match, a text is as it was. -/
theorem replace_text_cut (p : Pattern α) (s : Text) : (p.cut s).replace Match.text = s := by
  fun_induction cut p s with
  | case1 s h => rfl
  | case2 s before m rest h hm => rfl
  | case3 s before m rest h hm c ih =>
    rw [Cut.replace_cons, show Cut.replace Match.text ⟨c.found, c.rest⟩ = rest from ih]
    exact text_of_find? h

/-- Each match that is cut out fits the pattern. -/
theorem fits_of_mem_cut {p : Pattern α} {s : Text} {m : Match α} (h : m ∈ (p.cut s).taken) :
    p.Fits m := by
  fun_induction cut p s with
  | case1 s hs => simp [Cut.taken] at h
  | case2 s before m' rest hs hm => simp [Cut.taken] at h
  | case3 s before m' rest hs hm c ih =>
    rcases List.mem_cons.mp h with rfl | h
    · exact fits_of_find? hs
    · exact ih h

/-- Where the pattern does not match, a character more stands before what comes next. -/
theorem cut_cons_of_match?_eq_none {p : Pattern α} {c : Char} {s : Text}
    (h : p.match? (c :: s) = none) : p.cut (c :: s) = (p.cut s).prepend [c] := by
  have hf : p.find? (c :: s) = (p.find? s).map fun (before, x) => (c :: before, x) := by
    rw [find?, Piece.takeLeast_cons_of_none h]
    rfl
  cases hs : p.find? s with
  | none =>
    rw [hs] at hf
    rw [cut_of_find?_eq_none hs, cut_of_find?_eq_none hf]
    rfl
  | some found =>
    obtain ⟨before, m, rest⟩ := found
    rw [hs] at hf
    by_cases hm : m.text = []
    · rw [cut_of_find?_eq_some_nil hs hm, cut_of_find?_eq_some_nil hf hm]
      rfl
    · rw [cut_of_find?_eq_some hs hm, cut_of_find?_eq_some hf hm]
      rfl

/-! ## In one run -/

/--
Goes through a text with the answers of a pattern at its places. Given are what has been cut out,
last first, the characters since then, last first, and how many characters of a match are still
to be passed over.
-/
def scanFrom (found : List (Text × Match α)) (before : Text) :
    (skip : Nat) → Text → List (Option (Match α × Text)) → Cut α
  | skip + 1, _ :: s, _ :: answers => scanFrom found before skip s answers
  | 0, c :: s, none :: answers => scanFrom found (c :: before) 0 s answers
  | 0, c :: s, some (m, _) :: answers =>
    if m.text = [] then ⟨found.reverse, before.reverse ++ c :: s⟩
    else scanFrom ((before.reverse, m) :: found) [] (m.text.length - 1) s answers
  | _, s, _ => ⟨found.reverse, before.reverse ++ s⟩

/-- The text taken apart at the matches of the pattern, in one run over it. -/
def scan (p : Pattern α) (s : Text) : Cut α :=
  scanFrom [] [] 0 s (p.everywhere s)

theorem scanFrom_eq (p : Pattern α) (found : List (Text × Match α)) (before s : Text) (skip : Nat)
    (h : skip ≤ s.length) :
    scanFrom found before skip s ((Text.suffixes s).map p.match?) =
      (let c := (p.cut (s.drop skip)).prepend before.reverse
       ⟨found.reverse ++ c.found, c.rest⟩) := by
  induction s generalizing found before skip with
  | nil =>
    obtain rfl : skip = 0 := by simpa using h
    cases hm : p.match? [] <;> simp [scanFrom, Cut.prepend]
  | cons c s ih =>
    rw [Text.suffixes, List.map_cons]
    cases skip with
    | succ skip =>
      rw [scanFrom, ih _ _ _ (by simpa using h)]
      rfl
    | zero =>
      cases hm : p.match? (c :: s) with
      | none =>
        rw [scanFrom, ih _ _ _ (by simp), List.drop_zero, List.drop_zero,
          cut_cons_of_match?_eq_none hm]
        simp
      | some answer =>
        obtain ⟨m, rest⟩ := answer
        have hf : p.find? (c :: s) = some ([], m, rest) := Piece.takeLeast_of_some hm
        rw [scanFrom]
        split
        · next ht =>
          rw [List.drop_zero, cut_of_find?_eq_some_nil hf ht]
          simp [Cut.prepend]
        · next ht =>
          have htext := text_of_match? hm
          obtain ⟨d, t, ht'⟩ := List.exists_cons_of_ne_nil ht
          rw [ht', List.cons_append, List.cons.injEq] at htext
          obtain ⟨rfl, rfl⟩ := htext
          have hlen : m.text.length - 1 = t.length := by simp [ht']
          rw [ih _ _ _ (by simp [hlen]), hlen, List.drop_left, List.drop_zero,
            cut_of_find?_eq_some hf ht, List.reverse_nil, Cut.prepend_nil]
          simp [Cut.prepend]

/-- Both ways of cutting agree. -/
theorem scan_eq_cut (p : Pattern α) (s : Text) : p.scan s = p.cut s := by
  rw [scan, everywhere_eq, scanFrom_eq p [] [] s 0 (Nat.zero_le _)]
  simp

/-! ## Edits -/

/-- Puts a new text in the place of each match, and counts the matches. -/
def edit (p : Pattern α) (f : Match α → Text) (s : Text) : Edited :=
  let c := p.scan s
  ⟨c.replace f, c.count⟩

theorem text_edit (p : Pattern α) (f : Match α → Text) (s : Text) :
    (p.edit f s).text = (p.cut s).replace f := by
  rw [← scan_eq_cut]
  rfl

theorem count_edit (p : Pattern α) (f : Match α → Text) (s : Text) :
    (p.edit f s).count = (p.cut s).count := by
  rw [← scan_eq_cut]
  rfl

/-- Two texts have as many matches exactly if an edit counts as many places in them. -/
theorem count_edit_eq_iff {p : Pattern α} (f : Match α → Text) {s t : Text} :
    (p.edit f s).count = (p.edit f t).count ↔ (p.cut s).count = (p.cut t).count := by
  rw [count_edit, count_edit]

/-- An edit that changes no place leaves the text alone. -/
theorem text_edit_of_count_eq_zero {p : Pattern α} {f : Match α → Text} {s : Text}
    (h : (p.edit f s).count = 0) : (p.edit f s).text = s := by
  rw [count_edit] at h
  rw [text_edit]
  have hfound : (p.cut s).found = [] := List.length_eq_zero_iff.mp h
  refine (Cut.replace_congr ?_).trans (replace_text_cut p s)
  simp [Cut.taken, hfound]

end Pattern

namespace Text

/-- Puts `new` in the place of each occurrence of `old`, from left to right. -/
def replaceAll (old new s : Text) : Text :=
  ((Pattern.ofPart () [.word old]).edit (fun _ => new) s).text

end Text

end CurlLog
