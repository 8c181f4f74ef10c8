import CurlLog.Pattern.Cut

/-!
# The texts that a pattern takes, and which of them it prefers

A pattern that matches has taken one text out of a language, and the order of the alternatives
says which one. This file keeps the two apart.

* `Pattern.Takes` is the language. A pattern matches somewhere exactly if one of its texts stands
  there (`match?_eq_none_iff_takes`).
* `takeMost_longest`, `takeLeast_shortest` and `find?_first` are the preferences: what was tried
  before the answer did not lead to a match.
* `find?_induction` goes through a text from one match to the next.
* `match?_append_sound` reads a match of two patterns in a row as two matches.
-/

namespace CurlLog

namespace Piece

variable {γ : Type}

/-- The texts that pieces take, one after the other. -/
def Spells : List Piece → Text → Prop
  | [], t => t = []
  | piece :: pieces, t => ∃ u v, t = u ++ v ∧ piece.Fits u ∧ Spells pieces v

@[simp] theorem spells_nil {t : Text} : Spells [] t ↔ t = [] := Iff.rfl

theorem spells_cons {piece : Piece} {pieces : List Piece} {t : Text} :
    Spells (piece :: pieces) t ↔ ∃ u v, t = u ++ v ∧ piece.Fits u ∧ Spells pieces v := Iff.rfl

@[simp] theorem fits_word {w t : Text} : (word w).Fits t ↔ t = w := by
  simp [word, Fits]

@[simp] theorem spells_word_cons {w : Text} {pieces : List Piece} {t : Text} :
    Spells (word w :: pieces) t ↔ ∃ v, t = w ++ v ∧ Spells pieces v := by
  simp only [spells_cons, fits_word]
  constructor
  · rintro ⟨_, v, rfl, rfl, hv⟩
    exact ⟨v, rfl, hv⟩
  · rintro ⟨v, rfl, hv⟩
    exact ⟨w, v, rfl, rfl, hv⟩

theorem spells_oneOf_cons {words : List Text} {pieces : List Piece} {t : Text} :
    Spells (oneOf words :: pieces) t ↔ ∃ w v, t = w ++ v ∧ w ∈ words ∧ Spells pieces v := Iff.rfl

theorem spells_most_cons {inClass : Char → Bool} {pieces : List Piece} {t : Text} :
    Spells (most inClass :: pieces) t ↔
      ∃ u v, t = u ++ v ∧ (u ≠ [] ∧ ∀ c ∈ u, inClass c = true) ∧ Spells pieces v := Iff.rfl

theorem spells_least_cons {inClass : Char → Bool} {pieces : List Piece} {t : Text} :
    Spells (least inClass :: pieces) t ↔
      ∃ u v, t = u ++ v ∧ (∀ c ∈ u, inClass c = true) ∧ Spells pieces v := Iff.rfl

theorem spells_append {p q : List Piece} {t : Text} :
    Spells (p ++ q) t ↔ ∃ u v, t = u ++ v ∧ Spells p u ∧ Spells q v := by
  induction p generalizing t with
  | nil =>
    constructor
    · exact fun h => ⟨[], t, rfl, rfl, h⟩
    · rintro ⟨_, v, rfl, rfl, hv⟩
      exact hv
  | cons piece p ih =>
    simp only [List.cons_append, spells_cons, ih]
    constructor
    · rintro ⟨u, _, rfl, hu, v, w, rfl, hv, hw⟩
      exact ⟨u ++ v, w, by simp, ⟨u, v, rfl, hu, hv⟩, hw⟩
    · rintro ⟨_, w, rfl, ⟨u, v, rfl, hu, hv⟩, hw⟩
      exact ⟨u, v ++ w, by simp, hu, v, w, rfl, hv, hw⟩

/-! ## Which text a piece prefers -/

/-- After every longer run of the class, `next` refuses. -/
theorem takeMost_longest {inClass : Char → Bool} {next : Text → Option γ} {s t : Text} {g : γ}
    (h : takeMost inClass next s = some (t, g)) {t' rest : Text} (hs : s = t' ++ rest)
    (ht' : ∀ c ∈ t', inClass c = true) (hlen : t.length < t'.length) : next rest = none := by
  induction s generalizing t t' with
  | nil => simp at h
  | cons c s ih =>
    obtain _ | ⟨d, t'⟩ := t'
    · simp at hlen
    obtain ⟨rfl, rfl⟩ : c = d ∧ s = t' ++ rest := by simpa using hs
    have hc : inClass c = true := ht' c (by simp)
    have hall : ∀ x ∈ t', inClass x = true := fun x hx => ht' x (by simp [hx])
    rw [takeMost_cons hc] at h
    cases hm : takeMost inClass next (t' ++ rest) with
    | none =>
      have hnone := take_eq_none_iff.mp (show (most inClass).take next (t' ++ rest) = none from hm)
      simp only [hm, Option.map_eq_some_iff, Prod.mk.injEq] at h
      obtain ⟨_, _, rfl, _⟩ := h
      have hne : t' ≠ [] := by
        rintro rfl
        simp at hlen
      exact hnone t' rest rfl ⟨hne, hall⟩
    | some found =>
      simp only [hm, Option.some.injEq, Prod.mk.injEq] at h
      obtain ⟨rfl, rfl⟩ := h
      exact ih hm rfl hall (by simpa using hlen)

/-- After every shorter run of the class, `next` refuses. -/
theorem takeLeast_shortest {inClass : Char → Bool} {next : Text → Option γ} {s t : Text} {g : γ}
    (h : takeLeast inClass next s = some (t, g)) {t' rest : Text} (hs : s = t' ++ rest)
    (hlen : t'.length < t.length) : next rest = none := by
  induction s generalizing t t' with
  | nil =>
    simp only [takeLeast_nil, Option.map_eq_some_iff, Prod.mk.injEq] at h
    obtain ⟨_, _, rfl, _⟩ := h
    simp at hlen
  | cons c s ih =>
    cases hn : next (c :: s) with
    | some g' =>
      rw [takeLeast_of_some hn] at h
      simp only [Option.some.injEq, Prod.mk.injEq] at h
      simp [← h.1] at hlen
    | none =>
      rw [takeLeast_cons_of_none hn] at h
      by_cases hc : inClass c = true
      · simp only [hc, if_true, Option.map_eq_some_iff, Prod.exists, Prod.mk.injEq] at h
        obtain ⟨u, _, hu, rfl, rfl⟩ := h
        obtain _ | ⟨d, t'⟩ := t'
        · obtain rfl : c :: s = rest := hs
          exact hn
        · obtain ⟨rfl, rfl⟩ : c = d ∧ s = t' ++ rest := by simpa using hs
          exact ih hu rfl (by simpa using hlen)
      · simp [hc] at h

end Piece

namespace Pattern

variable {α : Type}

@[simp] theorem map_snd_ofPart (a : α) (pieces : List Piece) :
    (ofPart a pieces).map Prod.snd = pieces := by
  simp [ofPart, Function.comp_def]

/-- The texts that a pattern can take as a whole. -/
def Takes (p : Pattern α) (t : Text) : Prop :=
  Piece.Spells (p.map Prod.snd) t

theorem takes_iff {p : Pattern α} {t : Text} : p.Takes t ↔ ∃ m, p.Fits m ∧ m.text = t := by
  induction p generalizing t with
  | nil =>
    constructor
    · rintro rfl
      exact ⟨[], .nil, rfl⟩
    · rintro ⟨m, hm, rfl⟩
      cases hm
      rfl
  | cons e p ih =>
    obtain ⟨a, piece⟩ := e
    constructor
    · rintro ⟨u, v, rfl, hu, hv⟩
      obtain ⟨m, hm, rfl⟩ := ih.mp hv
      exact ⟨(a, u) :: m, .cons hu hm, rfl⟩
    · rintro ⟨m, hm, rfl⟩
      cases hm with
      | cons hu hm => exact ⟨_, _, rfl, hu, ih.mpr ⟨_, hm, rfl⟩⟩

theorem Fits.takes {p : Pattern α} {m : Match α} (h : p.Fits m) : p.Takes m.text :=
  takes_iff.mpr ⟨m, h, rfl⟩

@[simp] theorem takes_ofPart {a : α} {pieces : List Piece} {t : Text} :
    Takes (ofPart a pieces) t ↔ Piece.Spells pieces t := by
  rw [Takes, map_snd_ofPart]

theorem takes_append {p q : Pattern α} {t : Text} :
    Takes (p ++ q) t ↔ ∃ u v, t = u ++ v ∧ p.Takes u ∧ q.Takes v := by
  simp only [Takes, List.map_append, Piece.spells_append]

theorem match?_eq_none_iff_takes {p : Pattern α} {s : Text} :
    p.match? s = none ↔ ∀ t rest, s = t ++ rest → ¬ p.Takes t := by
  rw [match?_eq_none_iff]
  constructor
  · intro h t rest hs ht
    obtain ⟨m, hm, rfl⟩ := takes_iff.mp ht
    exact h m rest hs hm
  · exact fun h m rest hs hm => h m.text rest hs hm.takes

theorem match?_ne_none_iff_takes {p : Pattern α} {s : Text} :
    p.match? s ≠ none ↔ ∃ t rest, s = t ++ rest ∧ p.Takes t := by
  rw [Ne, match?_eq_none_iff_takes]
  simp

theorem find?_eq_none_iff_takes {p : Pattern α} {s : Text} :
    p.find? s = none ↔ ∀ before t rest, s = before ++ t ++ rest → ¬ p.Takes t := by
  rw [find?_eq_none_iff]
  constructor
  · intro h before t rest hs
    exact match?_eq_none_iff_takes.mp (h before (t ++ rest) (by simp [hs])) t rest rfl
  · rintro h before rest rfl
    exact match?_eq_none_iff_takes.mpr fun t more hs => h before t more (by simp [hs])

/-- A match has the parts of its pattern, in the same order. -/
theorem Fits.map_fst {p : Pattern α} {m : Match α} (h : p.Fits m) :
    m.map Prod.fst = p.map Prod.fst := by
  induction h with
  | nil => rfl
  | cons _ _ ih => simp [ih]

/-! ## Which match a pattern prefers -/

/-- Before the place where the pattern is found it matches nowhere. -/
theorem find?_first {p : Pattern α} {s before : Text} {m : Match α} {rest : Text}
    (h : p.find? s = some (before, m, rest)) {b r : Text} (hs : s = b ++ r)
    (hlen : b.length < before.length) : p.match? r = none :=
  Piece.takeLeast_shortest h hs hlen

/-- A text of the pattern does not stand before the place where the pattern is found. -/
theorem find?_length_le {p : Pattern α} {s before : Text} {m : Match α} {rest : Text}
    (h : p.find? s = some (before, m, rest)) {b t r : Text} (ht : p.Takes t)
    (hs : s = b ++ (t ++ r)) : before.length ≤ b.length := by
  refine Nat.not_lt.mp fun hlt => ?_
  exact match?_eq_none_iff_takes.mp (find?_first h hs hlt) t r rfl ht

/-- What stands before the first match has no match of its own. -/
theorem find?_before_eq_none {p : Pattern α} (hp : ¬ p.Takes []) {s before : Text} {m : Match α}
    {rest : Text} (h : p.find? s = some (before, m, rest)) : p.find? before = none := by
  refine find?_eq_none_iff_takes.mpr fun b t r hb ht => ?_
  have hs : s = b ++ (t ++ (r ++ m.text ++ rest)) := by
    rw [← text_of_find? h, hb]
    simp
  have hlen := find?_length_le h ht hs
  obtain rfl : t = [] := by
    rw [hb, List.length_append, List.length_append] at hlen
    exact List.length_eq_zero_iff.mp (by omega)
  exact hp ht

/-- A pattern that does not take the empty text is found only where there is something. -/
theorem text_ne_nil_of_find? {p : Pattern α} (hp : ¬ p.Takes []) {s before : Text} {m : Match α}
    {rest : Text} (h : p.find? s = some (before, m, rest)) : m.text ≠ [] :=
  fun hnil => hp (hnil ▸ (fits_of_find? h).takes)

/-- Induction from one match to the next. -/
theorem find?_induction {p : Pattern α} (hp : ¬ p.Takes []) {motive : Text → Prop}
    (absent : ∀ s, p.find? s = none → motive s)
    (first : ∀ s before m rest, p.find? s = some (before, m, rest) → motive rest → motive s)
    (s : Text) : motive s := by
  induction s using cut.induct p with
  | case1 s h => exact absent s h
  | case2 s before m rest h hm => exact absurd hm (text_ne_nil_of_find? hp h)
  | case3 s before m rest h _ ih => exact first s before m rest h ih

/-- The pattern is found at the first place where it matches. -/
theorem find?_eq_some_iff {p : Pattern α} {s before : Text} {m : Match α} {rest : Text} :
    p.find? s = some (before, m, rest) ↔
      s = before ++ m.text ++ rest ∧ p.match? (m.text ++ rest) = some (m, rest) ∧
        ∀ b r, s = b ++ r → b.length < before.length → p.match? r = none := by
  constructor
  · intro h
    obtain ⟨hm, hs⟩ := find?_sound h
    exact ⟨hs, hm, fun b r => find?_first h⟩
  · rintro ⟨hs, hm, hfirst⟩
    cases hf : p.find? s with
    | none =>
      have := find?_eq_none_iff.mp hf before (m.text ++ rest) (by simp [hs])
      simp [hm] at this
    | some found =>
      obtain ⟨b, m', r⟩ := found
      obtain ⟨hm', hs'⟩ := find?_sound hf
      have hge : ¬ b.length < before.length := fun hlt => by
        simpa [hm'] using hfirst b (m'.text ++ r) (by simp [hs']) hlt
      have hle : ¬ before.length < b.length := fun hlt => by
        simpa [hm] using find?_first hf (b := before) (r := m.text ++ rest) (by simp [hs]) hlt
      have heq : b ++ (m'.text ++ r) = before ++ (m.text ++ rest) := by
        rw [← List.append_assoc, ← List.append_assoc, ← hs, ← hs']
      obtain ⟨rfl, htail⟩ := List.append_inj heq (by omega)
      rw [htail, hm] at hm'
      simp only [Option.some.injEq, Prod.mk.injEq] at hm'
      rw [hm'.1, hm'.2]

/-- Where a gap of any characters may stand, the rest of the pattern is looked for. -/
theorem match?_gap (a : α) (p : Pattern α) (s : Text) :
    match? ((a, .least fun _ => true) :: p) s =
      (p.find? s).map fun (gap, m, rest) => ((a, gap) :: m, rest) := rfl

/-! ## Two patterns in a row -/

/-- A match of two patterns in a row: the first takes a text of its own, and the second answers. -/
theorem match?_append_sound {p q : Pattern α} {s : Text} {m : Match α} {rest : Text}
    (h : match? (p ++ q) s = some (m, rest)) :
    ∃ m₁ s₁ m₂, p.Fits m₁ ∧ s = m₁.text ++ s₁ ∧ q.match? s₁ = some (m₂, rest) ∧ m = m₁ ++ m₂ := by
  induction p generalizing s m with
  | nil => exact ⟨[], s, m, .nil, rfl, h, rfl⟩
  | cons e p ih =>
    simp only [List.cons_append, match?, Option.map_eq_some_iff, Prod.exists, Prod.mk.injEq] at h
    obtain ⟨t, m', rest', ht, rfl, rfl⟩ := h
    obtain ⟨s', rfl, hf, hm⟩ := Piece.take_sound ht
    obtain ⟨m₁, s₁, m₂, hm₁, rfl, hm₂, rfl⟩ := ih hm
    exact ⟨(e.1, t) :: m₁, s₁, m₂, .cons hf hm₁, by simp, hm₂, rfl⟩

/-- At each place at most one text fits, piece by piece. -/
def Rigid (p : Pattern α) : Prop :=
  ∀ m m' rest rest', p.Fits m → p.Fits m' → m.text ++ rest = m'.text ++ rest' → m = m'

theorem rigid_nil : Rigid ([] : Pattern α) := by
  intro m m' _ _ hm hm' _
  cases hm
  cases hm'
  rfl

theorem Rigid.word {p : Pattern α} (h : p.Rigid) (a : α) (w : Text) :
    Rigid ((a, Piece.word w) :: p) := by
  intro m m' rest rest' hm hm' heq
  cases hm with
  | cons ht hm =>
  cases hm' with
  | cons ht' hm' =>
  obtain rfl := Piece.fits_word.mp ht
  obtain rfl := Piece.fits_word.mp ht'
  simp only [Match.text_cons, List.append_assoc, List.append_cancel_left_eq] at heq
  rw [h _ _ _ _ hm hm' heq]

/-- A run of a class that no character of the class follows has one length only. -/
theorem run_unique_of_head? {inClass : Char → Bool} {t t' s s' : Text} (h : t ++ s = t' ++ s')
    (ht : ∀ c ∈ t, inClass c = true) (ht' : ∀ c ∈ t', inClass c = true)
    (hs : ∀ c ∈ s.head?, inClass c = false) (hs' : ∀ c ∈ s'.head?, inClass c = false) :
    t = t' ∧ s = s' := by
  have stop {r : Text} (hr : ∀ c ∈ r.head?, inClass c = false) : r.takeWhile inClass = [] := by
    cases r with
    | nil => rfl
    | cons c r => exact List.takeWhile_cons_of_neg (by simp [hr c rfl])
  have take := congrArg (List.takeWhile inClass) h
  rw [List.takeWhile_append_of_pos ht, List.takeWhile_append_of_pos ht', stop hs, stop hs',
    List.append_nil, List.append_nil] at take
  obtain rfl := take
  exact ⟨rfl, List.append_cancel_left h⟩

theorem run_unique {inClass : Char → Bool} {t t' : Text} {d d' : Char} {s s' : Text}
    (h : t ++ d :: s = t' ++ d' :: s') (ht : ∀ c ∈ t, inClass c = true)
    (ht' : ∀ c ∈ t', inClass c = true) (hd : inClass d = false) (hd' : inClass d' = false) :
    t = t' ∧ d :: s = d' :: s' :=
  run_unique_of_head? h ht ht' (by simpa using hd) (by simpa using hd')

theorem Rigid.most {p : Pattern α} (h : p.Rigid) {inClass : Char → Bool} {d : Char}
    (hd : inClass d = false) (a b : α) (w : Text) :
    Rigid ((a, Piece.most inClass) :: (b, Piece.word (d :: w)) :: p) := by
  intro m m' rest rest' hm hm' heq
  cases hm with
  | cons ht hm =>
  cases hm' with
  | cons ht' hm' =>
  cases hm with
  | cons hw hm =>
  cases hm' with
  | cons hw' hm' =>
  obtain rfl := Piece.fits_word.mp hw
  obtain rfl := Piece.fits_word.mp hw'
  simp only [Match.text_cons, List.append_assoc, List.cons_append] at heq
  obtain ⟨rfl, heq⟩ := run_unique heq ht.2 ht'.2 hd hd
  simp only [List.cons.injEq, true_and, List.append_cancel_left_eq] at heq
  rw [h _ _ _ _ hm hm' heq]

/-- Behind a rigid pattern the next one goes on where the rigid one ends. -/
theorem match?_append_of_rigid {p : Pattern α} (hp : p.Rigid) (q : Pattern α) (s : Text) :
    match? (p ++ q) s =
      (p.match? s).bind fun (m₁, s₁) => (q.match? s₁).map fun (m₂, rest) => (m₁ ++ m₂, rest) := by
  have front {t : Text} {m : Match α} {r : Text} (h : p.match? t = some (m, r)) :
      p.Fits m ∧ t = m.text ++ r := match?_sound h
  cases h : match? (p ++ q) s with
  | some answer =>
    obtain ⟨m, rest⟩ := answer
    obtain ⟨m₁, s₁, m₂, hm₁, rfl, hm₂, rfl⟩ := match?_append_sound h
    cases hf : p.match? (m₁.text ++ s₁) with
    | none => exact absurd hm₁ (match?_eq_none_iff.mp hf m₁ s₁ rfl)
    | some first =>
      obtain ⟨m', s'⟩ := first
      obtain ⟨hm', heq⟩ := front hf
      obtain rfl := hp _ _ _ _ hm₁ hm' heq
      obtain rfl := List.append_cancel_left heq
      simp [hm₂]
  | none =>
    cases hf : p.match? s with
    | none => rfl
    | some first =>
      obtain ⟨m₁, s₁⟩ := first
      obtain ⟨hm₁, rfl⟩ := front hf
      have hq : q.match? s₁ = none := by
        refine match?_eq_none_iff_takes.mpr fun t rest ht hq => ?_
        refine match?_eq_none_iff_takes.mp h (m₁.text ++ t) rest (by simp [ht]) ?_
        exact takes_append.mpr ⟨_, _, rfl, hm₁.takes, hq⟩
      simp [hq]

end Pattern

end CurlLog
