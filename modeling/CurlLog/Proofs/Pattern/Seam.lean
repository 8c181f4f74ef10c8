import CurlLog.Proofs.Pattern.Takes
import CurlLog.Proofs.Text.Lines
import Mathlib.Algebra.GroupWithZero.Nat

/-!
# Seams

A place in a text is a seam of a pattern if no text that the pattern takes lies across it. At a
seam a text can be taken apart: the matches are those of the two sides (`cut_append`), and so is
every edit (`edit_append`).

That no text lies across a place is a statement about the language of the pattern alone. The
order in which the alternatives are tried does not come into it: `match?_append_of_within` shows
that alternatives that fail on the longer text do not change which one is chosen.
-/

namespace CurlLog

namespace Piece

variable {γ : Type}

/-- More text behind makes no difference to what follows a piece. -/
structure Unmoved (piece : Piece) (next : Text → Option γ) (s more : Text) (φ : γ → γ) : Prop where
  /-- `next` answers alike on what is left. -/
  within : ∀ t rest, s = t ++ rest → piece.Fits t → next (rest ++ more) = (next rest).map φ
  /-- It refuses after every text that reaches into what is behind. -/
  across : ∀ t rest, s ++ more = t ++ rest → piece.Fits t → s.length < t.length → next rest = none

section

variable {next : Text → Option γ} {s more : Text} {φ : γ → γ}

/-- A character that the piece can take first can be left out. -/
theorem Unmoved.tail {piece : Piece} {c : Char} (h : piece.Unmoved next (c :: s) more φ)
    (hc : ∀ t, piece.Fits t → piece.Fits (c :: t)) : piece.Unmoved next s more φ where
  within t rest hs ht := h.within (c :: t) rest (by simp [hs]) (hc t ht)
  across t rest hs ht hlen :=
    h.across (c :: t) rest (by simp [← hs]) (hc t ht) (by simpa using hlen)

theorem Fits.cons_most {inClass : Char → Bool} {c : Char} (hc : inClass c = true) (t : Text)
    (ht : (most inClass).Fits t) : (most inClass).Fits (c :: t) :=
  ⟨List.cons_ne_nil c t, by simpa [hc] using ht.2⟩

theorem Fits.cons_least {inClass : Char → Bool} {c : Char} (hc : inClass c = true) (t : Text)
    (ht : (least inClass).Fits t) : (least inClass).Fits (c :: t) := by
  simpa [Fits, hc] using ht

theorem after?_bind_append {words : List Text} {w : Text}
    (h : (oneOf words).Unmoved next s more φ) (hw : w ∈ words) :
    ((Text.after? w (s ++ more)).bind fun rest => (next rest).map (w, ·)) =
      ((Text.after? w s).bind fun rest => (next rest).map (w, ·)).map fun (t, g) => (t, φ g) := by
  cases hs : Text.after? w s with
  | some rest =>
    obtain rfl := Text.after?_eq_some_iff.mp hs
    rw [List.append_assoc, Text.after?_append, Option.bind_some, Option.bind_some,
      h.within w rest rfl hw]
    simp [Option.map_map, Function.comp_def]
  | none =>
    simp only [Option.bind_none, Option.map_none, Option.bind_eq_none_iff, Option.map_eq_none_iff]
    intro rest hrest
    have heq := Text.after?_eq_some_iff.mp hrest
    rcases List.append_eq_append_iff.mp heq with ⟨x, rfl, rfl⟩ | ⟨x, rfl, rfl⟩
    · obtain _ | ⟨c, x⟩ := x
      · simp [Text.after?_eq_some_iff.mpr (List.append_nil s).symm] at hs
      · exact h.across _ rest heq hw (by simp)
    · simp at hs

theorem takeOneOf_append {words : List Text} (h : (oneOf words).Unmoved next s more φ) :
    takeOneOf words next (s ++ more) = (takeOneOf words next s).map fun (t, g) => (t, φ g) := by
  have hword (w : Text) (hw : w ∈ words) := after?_bind_append h hw
  simp only [takeOneOf]
  clear h
  induction words with
  | nil => rfl
  | cons w words ih =>
    rw [List.findSome?_cons, List.findSome?_cons, hword w (by simp),
      ih fun w hw => hword w (by simp [hw])]
    cases (Text.after? w s).bind fun rest => (next rest).map (w, ·) <;> rfl

theorem takeMost_append {inClass : Char → Bool} (h : (most inClass).Unmoved next s more φ) :
    takeMost inClass next (s ++ more) =
      (takeMost inClass next s).map fun (t, g) => (t, φ g) := by
  induction s with
  | nil =>
    refine takeMost_eq_none_iff.mpr fun t rest hs ht => h.across t rest hs ht ?_
    exact List.length_pos_iff.mpr ht.1
  | cons c s ih =>
    by_cases hc : inClass c = true
    · simp only [List.cons_append, takeMost_cons hc]
      rw [ih (h.tail (Fits.cons_most hc))]
      cases takeMost inClass next s with
      | some found => rfl
      | none =>
        rw [Option.map_none, h.within [c] s rfl ⟨by simp, by simp [hc]⟩]
        simp [Option.map_map, Function.comp_def]
    · simp only [List.cons_append, takeMost_cons_of_not (by simpa using hc)]
      rfl

theorem takeLeast_append {inClass : Char → Bool} (h : (least inClass).Unmoved next s more φ) :
    takeLeast inClass next (s ++ more) =
      (takeLeast inClass next s).map fun (t, g) => (t, φ g) := by
  induction s with
  | nil =>
    have hnil : next more = (next []).map φ := h.within [] [] rfl (by simp [Fits])
    rw [List.nil_append, takeLeast_nil, Option.map_map]
    cases hn : next [] with
    | some g =>
      rw [takeLeast_of_some (g := φ g) (by rw [hnil, hn]; rfl)]
      rfl
    | none =>
      refine takeLeast_eq_none_iff.mpr fun t rest hs ht => ?_
      obtain _ | ⟨d, t⟩ := t
      · obtain rfl : more = rest := hs
        rw [hnil, hn]
        rfl
      · exact h.across _ rest hs ht (by simp)
  | cons c s ih =>
    have here : next (c :: s ++ more) = (next (c :: s)).map φ :=
      h.within [] (c :: s) rfl (by simp [Fits])
    cases hn : next (c :: s) with
    | some g =>
      rw [takeLeast_of_some hn, takeLeast_of_some (g := φ g) (by rw [here, hn]; rfl)]
      rfl
    | none =>
      rw [hn] at here
      rw [List.cons_append] at here ⊢
      rw [takeLeast_cons_of_none hn, takeLeast_cons_of_none here]
      by_cases hc : inClass c = true
      · simp [hc, ih (h.tail (Fits.cons_least hc)), Option.map_map, Function.comp_def]
      · simp [hc]

/--
More text behind does not change what a piece takes, if it makes no difference to what follows
the piece.
-/
theorem take_append {piece : Piece} (h : piece.Unmoved next s more φ) :
    piece.take next (s ++ more) = (piece.take next s).map fun (t, g) => (t, φ g) := by
  cases piece with
  | oneOf words => exact takeOneOf_append h
  | most inClass => exact takeMost_append h
  | least inClass => exact takeLeast_append h

end

end Piece

variable {α : Type}

namespace Pattern

/-- A match goes by the text that the pattern can reach, and not by what stands behind that. -/
theorem match?_append_of_within {p : Pattern α} {s more : Text}
    (h : ∀ t rest, s ++ more = t ++ rest → p.Takes t → t.length ≤ s.length) :
    p.match? (s ++ more) = (p.match? s).map fun (m, rest) => (m, rest ++ more) := by
  induction p generalizing s with
  | nil => rfl
  | cons e p ih =>
    obtain ⟨a, piece⟩ := e
    have hlong : ∀ t rest, s ++ more = t ++ rest → piece.Fits t → ∀ u rest', rest = u ++ rest' →
        Takes p u → (t ++ u).length ≤ s.length := by
      intro t rest hs ht u rest' hr hu
      exact h (t ++ u) rest' (by simp [hs, hr]) ⟨t, u, rfl, ht, hu⟩
    simp only [match?]
    have hnext : piece.Unmoved (match? p) s more fun (m, rest) => (m, rest ++ more) := by
      refine ⟨?_, fun t rest hs ht hlen => ?_⟩
      · rintro t rest rfl ht
        refine ih fun u rest' hr hu => ?_
        have := hlong t (rest ++ more) (by simp) ht u rest' hr hu
        simpa using this
      · refine match?_eq_none_iff_takes.mpr fun u rest' hr hu => ?_
        have := hlong t rest hs ht u rest' hr hu
        simp only [List.length_append] at this
        omega
    rw [Piece.take_append hnext]
    simp [Option.map_map, Function.comp_def]

/-- No text that the pattern takes lies across the place between `a` and `b`. -/
def Seam (p : Pattern α) (a b : Text) : Prop :=
  ∀ x u v y, a = x ++ u → b = v ++ y → u ≠ [] → v ≠ [] → ¬ p.Takes (u ++ v)

theorem Seam.of_suffix {p : Pattern α} {x a b : Text} (h : p.Seam (x ++ a) b) : p.Seam a b :=
  fun y u v z ha hb => h (x ++ y) u v z (by simp [ha]) hb

/-- Behind a character that no text of the pattern has there is a seam. -/
theorem Seam.of_notMem_left {p : Pattern α} {d : Char} (h : ∀ t, p.Takes t → d ∉ t) (a b : Text) :
    p.Seam (a ++ [d]) b := by
  intro x u v y ha _ hu _ ht
  obtain ⟨u, rfl, _⟩ := Text.last_cases ha.symm hu
  exact h _ ht (by simp)

/-- In front of a character that no text of the pattern has there is a seam. -/
theorem Seam.of_notMem_right {p : Pattern α} {d : Char} (h : ∀ t, p.Takes t → d ∉ t) (a b : Text) :
    p.Seam a (d :: b) := by
  intro x u v y _ hb _ hv ht
  obtain _ | ⟨c, v⟩ := v
  · exact hv rfl
  · obtain rfl : d = c := (List.cons.inj hb).1
    exact h _ ht (by simp)

/-- In front of a seam the pattern matches as if nothing stood behind it. -/
theorem Seam.match?_append {p : Pattern α} {a b : Text} (h : p.Seam a b) (ha : a ≠ []) :
    p.match? (a ++ b) = (p.match? a).map fun (m, rest) => (m, rest ++ b) := by
  refine match?_append_of_within fun t rest heq ht => Nat.not_lt.mp fun hlen => ?_
  rcases List.append_eq_append_iff.mp heq with ⟨v, rfl, hb⟩ | ⟨v, rfl, _⟩
  · refine h [] a v rest rfl hb ha ?_ ht
    rintro rfl
    simp at hlen
  · simp only [List.length_append] at hlen
    omega

end Pattern

/-! ## Cuts and edits side by side -/

namespace Cut

/-- The cuts of two texts that stand side by side. -/
def join (c d : Cut α) : Cut α :=
  ⟨c.found ++ (d.prepend c.rest).found, (d.prepend c.rest).rest⟩

@[simp] theorem nil_join (rest : Text) (d : Cut α) : join ⟨[], rest⟩ d = d.prepend rest := rfl

@[simp] theorem cons_join (e : Text × Match α) (found : List (Text × Match α)) (rest : Text)
    (d : Cut α) :
    join ⟨e :: found, rest⟩ d = ⟨e :: (join ⟨found, rest⟩ d).found, (join ⟨found, rest⟩ d).rest⟩ :=
  rfl

theorem prepend_join (t : Text) (c d : Cut α) : (c.prepend t).join d = (c.join d).prepend t := by
  obtain ⟨_ | ⟨⟨before, m⟩, found⟩, rest⟩ := c
  · exact (prepend_prepend t rest d).symm
  · simp [prepend, join]

@[simp] theorem replace_prepend (f : Match α → Text) (t : Text) (c : Cut α) :
    (c.prepend t).replace f = t ++ c.replace f := by
  obtain ⟨_ | ⟨⟨before, m⟩, found⟩, rest⟩ := c <;> simp [prepend]

@[simp] theorem count_prepend (t : Text) (c : Cut α) : (c.prepend t).count = c.count := by
  obtain ⟨_ | ⟨⟨before, m⟩, found⟩, rest⟩ := c <;> rfl

theorem replace_join (f : Match α → Text) (c d : Cut α) :
    (c.join d).replace f = c.replace f ++ d.replace f := by
  obtain ⟨found, rest⟩ := c
  induction found with
  | nil => simp
  | cons e found ih =>
    rw [cons_join, replace_cons, replace_cons, ih]
    simp

theorem count_join (c d : Cut α) : (c.join d).count = c.count + d.count := by
  rw [← count_prepend c.rest d]
  simp [count, join]

end Cut

namespace Edited

/-- Two edited texts that stand side by side. -/
def append (x y : Edited) : Edited :=
  ⟨x.text ++ y.text, x.count + y.count⟩

instance : Append Edited := ⟨append⟩

@[simp] theorem text_append (x y : Edited) : (x ++ y).text = x.text ++ y.text := rfl

@[simp] theorem count_append (x y : Edited) : (x ++ y).count = x.count + y.count := rfl

@[ext] theorem ext {x y : Edited} (ht : x.text = y.text) (hc : x.count = y.count) : x = y := by
  cases x
  cases y
  exact congr (congrArg mk ht) hc

theorem nil_append (x : Edited) : (⟨[], 0⟩ ++ x : Edited) = x :=
  ext rfl (Nat.zero_add _)

/-- Edited texts in a row. -/
def join (xs : List Edited) : Edited :=
  ⟨(xs.map (·.text)).flatten, (xs.map (·.count)).sum⟩

theorem join_nil : join [] = ⟨[], 0⟩ := rfl

theorem join_cons (x : Edited) (xs : List Edited) : join (x :: xs) = x ++ join xs := rfl

end Edited

namespace Pattern

/-- At a seam a text is taken apart into its two sides. -/
theorem cut_append {p : Pattern α} (hp : ¬ p.Takes []) {a b : Text} (h : p.Seam a b) :
    p.cut (a ++ b) = (p.cut a).join (p.cut b) := by
  match a with
  | [] => simp
  | c :: a =>
    have hm := h.match?_append (by simp)
    cases hc : p.match? (c :: a) with
    | none =>
      rw [hc, Option.map_none, List.cons_append] at hm
      rw [List.cons_append, cut_cons_of_match?_eq_none hm, cut_cons_of_match?_eq_none hc,
        Cut.prepend_join, cut_append hp (Seam.of_suffix (x := [c]) h)]
    | some found =>
      obtain ⟨m, rest⟩ := found
      have htext : m.text ++ rest = c :: a := text_of_match? hc
      have hne : m.text ≠ [] := fun h0 => hp (h0 ▸ (fits_of_match? hc).takes)
      have hlen : rest.length < (c :: a).length := by
        rw [← htext, List.length_append]
        have := List.length_pos_iff.mpr hne
        omega
      rw [hc, Option.map_some] at hm
      rw [cut_of_find?_eq_some (Piece.takeLeast_of_some hc) hne,
        cut_of_find?_eq_some (Piece.takeLeast_of_some hm) hne,
        cut_append hp (Seam.of_suffix (x := m.text) (htext ▸ h)), Cut.cons_join]
termination_by a.length
decreasing_by
  · exact Nat.lt_succ_self _
  · exact hlen

/-- At a seam an edit goes over the two sides. -/
theorem edit_append {p : Pattern α} (hp : ¬ p.Takes []) (f : Match α → Text) {a b : Text}
    (h : p.Seam a b) : p.edit f (a ++ b) = p.edit f a ++ p.edit f b := by
  ext1
  · simp [text_edit, cut_append hp h, Cut.replace_join]
  · simp [count_edit, cut_append hp h, Cut.count_join]

/-- Where the pattern is not found an edit changes nothing. -/
theorem edit_of_find?_eq_none {p : Pattern α} (f : Match α → Text) {s : Text}
    (h : p.find? s = none) : p.edit f s = ⟨s, 0⟩ := by
  ext1
  · simp [text_edit, cut_of_find?_eq_none h]
  · simp [count_edit, cut_of_find?_eq_none h, Cut.count]

/-- The first match is replaced, and the edit goes on after it. -/
theorem edit_of_find?_eq_some {p : Pattern α} (hp : ¬ p.Takes []) (f : Match α → Text)
    {s before rest : Text} {m : Match α} (h : p.find? s = some (before, m, rest)) :
    p.edit f s = ⟨before ++ f m, 1⟩ ++ p.edit f rest := by
  have hne := text_ne_nil_of_find? hp h
  ext1
  · simp [text_edit, cut_of_find?_eq_some h hne]
  · simp [count_edit, cut_of_find?_eq_some h hne, Cut.count, Nat.add_comm]

theorem count_edit_eq_zero_iff {p : Pattern α} (hp : ¬ p.Takes []) {f : Match α → Text} {s : Text} :
    (p.edit f s).count = 0 ↔ p.find? s = none := by
  cases h : p.find? s with
  | none => simp [edit_of_find?_eq_none f h]
  | some found =>
    obtain ⟨before, m, rest⟩ := found
    simp [edit_of_find?_eq_some hp f h]

/-- An edit goes over both sides of a character that no text of the pattern has. -/
theorem edit_of_notMem {p : Pattern α} (hp : ¬ p.Takes []) (f : Match α → Text) {d : Char}
    (h : ∀ t, p.Takes t → d ∉ t) (a b : Text) :
    p.edit f (a ++ d :: b) = p.edit f a ++ (⟨[d], 0⟩ ++ p.edit f b) := by
  have hnone : p.find? [d] = none := by
    refine find?_eq_none_iff_takes.mpr fun before t rest heq ht => ?_
    have hne : t ≠ [] := fun h0 => hp (h0 ▸ ht)
    obtain ⟨c, t, rfl⟩ := List.exists_cons_of_ne_nil hne
    have hmem : c ∈ [d] := heq ▸ by simp
    exact h _ ht (by simp [List.mem_singleton.mp hmem])
  have hback : p.Seam [d] b := .of_notMem_left h [] b
  rw [edit_append hp f (.of_notMem_right h a b), ← List.singleton_append, edit_append hp f hback,
    edit_of_find?_eq_none f hnone]

/-- If each text is replaced by one with the same first character, the first character stays. -/
theorem head?_edit {p : Pattern α} (hp : ¬ p.Takes []) {f : Match α → Text} {s : Text}
    (h : ∀ before m rest, p.find? s = some (before, m, rest) →
      ∃ d t u, s = before ++ d :: t ∧ f m = d :: u) : (p.edit f s).text.head? = s.head? := by
  cases hfind : p.find? s with
  | none => rw [edit_of_find?_eq_none f hfind]
  | some found =>
    obtain ⟨before, m, rest⟩ := found
    obtain ⟨d, t, u, rfl, hf⟩ := h before m rest hfind
    rw [edit_of_find?_eq_some hp f hfind, hf]
    cases before <;> simp

/-- The pattern is nowhere in a text with a seam if it is in neither side. -/
theorem find?_append_eq_none_iff {p : Pattern α} {a b : Text} (h : p.Seam a b) :
    p.find? (a ++ b) = none ↔ p.find? a = none ∧ p.find? b = none := by
  simp only [find?_eq_none_iff_takes]
  constructor
  · intro hn
    exact ⟨fun before t rest ha => hn before t (rest ++ b) (by simp [ha]),
      fun before t rest hb => hn (a ++ before) t rest (by simp [hb])⟩
  · rintro ⟨ha, hb⟩ before t rest heq ht
    rw [List.append_assoc] at heq
    rcases List.append_eq_append_iff.mp heq with ⟨x, rfl, hb'⟩ | ⟨u, ha', heq'⟩
    · exact hb x t rest (by simpa using hb') ht
    · rcases List.append_eq_append_iff.mp heq' with ⟨x, hu, _⟩ | ⟨v, ht', hb'⟩
      · exact ha before t x (by simp [ha', hu]) ht
      · by_cases hv : v = []
        · exact ha before t [] (by simp [ha', ht', hv]) ht
        · by_cases hu : u = []
          · exact hb [] t rest (by simp [hb', ht', hu]) ht
          · exact h before u v rest ha' hb' hu hv (ht' ▸ ht)

/-! ## Patterns whose texts begin alike -/

/-- Every text of the pattern begins with the word. -/
def BeginsWith (p : Pattern α) (w : Text) : Prop :=
  ∀ t, p.Takes t → w <+: t

theorem BeginsWith.find?_eq_none {p : Pattern α} {w s : Text} (h : p.BeginsWith w)
    (hs : ¬ w <:+: s) : p.find? s = none := by
  refine find?_eq_none_iff_takes.mpr fun before t rest heq ht => hs ?_
  obtain ⟨z, rfl⟩ := h t ht
  exact ⟨before, z ++ rest, by rw [heq]; simp⟩

/-- Behind a character that is not in the word there is a seam if the word is not before it. -/
theorem BeginsWith.seam {p : Pattern α} {w : Text} (h : p.BeginsWith w) {d : Char} (hd : d ∉ w)
    {a : Text} (ha : ¬ w <:+: a ++ [d]) (b : Text) : p.Seam (a ++ [d]) b := by
  intro x u v y hx _ hu _ ht
  obtain ⟨u, rfl, hxu⟩ := Text.last_cases hx.symm hu
  obtain ⟨z, hz⟩ := h _ ht
  rw [List.append_assoc] at hz
  rcases Text.char_cases hz with ⟨t, ht, _⟩ | ⟨t, rfl, _⟩
  · simp [ht] at hd
  · exact ha ⟨x, t ++ [d], by rw [← hxu]; simp⟩

/-- An edit starts again behind such a character. -/
theorem BeginsWith.edit_append {p : Pattern α} {w : Text} (h : p.BeginsWith w) (hp : ¬ p.Takes [])
    (f : Match α → Text) {d : Char} (hd : d ∉ w) {a : Text} (ha : ¬ w <:+: a ++ [d]) (b : Text) :
    p.edit f (a ++ d :: b) = ⟨a ++ [d], 0⟩ ++ p.edit f b := by
  rw [List.append_cons, Pattern.edit_append hp f (h.seam hd ha b),
    edit_of_find?_eq_none f (h.find?_eq_none ha)]

/-- Of a text between two others only the text itself is edited. -/
theorem BeginsWith.edit_between {p : Pattern α} {w : Text} (h : p.BeginsWith w) (hp : ¬ p.Takes [])
    (f : Match α → Text) {d : Char} (hd : d ∉ w) {a q r : Text} (ha : ¬ w <:+: a ++ [d])
    (hseam : p.Seam q r) (hr : ¬ w <:+: r) :
    p.edit f (a ++ d :: (q ++ r)) =
      ⟨a ++ d :: ((p.edit f q).text ++ r), (p.edit f q).count⟩ := by
  rw [h.edit_append hp f hd ha, Pattern.edit_append hp f hseam,
    edit_of_find?_eq_none f (h.find?_eq_none hr)]
  ext1 <;> simp

/-! ## Texts in a row -/

/-- There is a seam behind each of the texts. -/
def Seams (p : Pattern α) : List Text → Prop
  | [] => True
  | t :: ts => p.Seam t ts.flatten ∧ Seams p ts

/-- An edit goes over texts in a row one by one. -/
theorem edit_flatten {p : Pattern α} (hp : ¬ p.Takes []) (f : Match α → Text) {ts : List Text}
    (h : p.Seams ts) : p.edit f ts.flatten = Edited.join (ts.map (p.edit f)) := by
  induction ts with
  | nil =>
    rw [List.flatten_nil, List.map_nil, Edited.join_nil]
    ext1
    · simp [text_edit]
    · simp [count_edit, Cut.count]
  | cons t ts ih =>
    rw [List.flatten_cons, edit_append hp f h.1, ih h.2, List.map_cons, Edited.join_cons]

theorem edit_join {β : Type} {p : Pattern α} (hp : ¬ p.Takes []) (f : Match α → Text)
    {g : β → Edited} {xs : List β} (h : p.Seams (xs.map fun x => (g x).text)) :
    p.edit f (Edited.join (xs.map g)).text = Edited.join (xs.map fun x => p.edit f (g x).text) := by
  have htext : (Edited.join (xs.map g)).text = (xs.map fun x => (g x).text).flatten := by
    rw [Edited.join, List.map_map]
    rfl
  rw [htext, edit_flatten hp f h, List.map_map]
  rfl

end Pattern

end CurlLog
