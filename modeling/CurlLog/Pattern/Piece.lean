import CurlLog.Text.Basic

/-!
# Pieces of a pattern

A pattern is read from left to right, one piece after the other. A piece can often take more than
one text off the front; the alternatives are ordered, and the first after which the rest of the
pattern matches wins.

* `Piece.oneOf` — the words of a list, in the order of the list
* `Piece.most` — one or more characters of a class, longest first
* `Piece.least` — any number of characters of a class, shortest first

`Piece.take piece next s` runs a piece on `s`, with `next` for what has to follow it. `take_sound`
and `take_eq_none_iff` say what it finds and when it finds nothing; the lemmas on `takeMost` and
`takeLeast` give one equation for each way in which a text can begin.
-/

namespace CurlLog

/-- One step of a pattern. -/
inductive Piece where
  /-- One of the words, an earlier one first. -/
  | oneOf (words : List Text)
  /-- One or more characters of the class, as many as possible. -/
  | most (inClass : Char → Bool)
  /-- Any number of characters of the class, as few as possible. -/
  | least (inClass : Char → Bool)

namespace Piece

/-- A piece that takes exactly one word. -/
def word (w : Text) : Piece :=
  oneOf [w]

/-- The texts that a piece can take. -/
def Fits : Piece → Text → Prop
  | oneOf words, t => t ∈ words
  | most inClass, t => t ≠ [] ∧ ∀ c ∈ t, inClass c = true
  | least inClass, t => ∀ c ∈ t, inClass c = true

variable {γ : Type}

/-! ## One of some words -/

/-- Takes the first word after which `next` answers. -/
def takeOneOf (words : List Text) (next : Text → Option γ) (s : Text) : Option (Text × γ) :=
  words.findSome? fun w => (Text.after? w s).bind fun rest => (next rest).map (w, ·)

/-! ## As many characters as possible -/

/--
Offers `rest` to `next`. Where it refuses, the last character taken goes back to the front of
`rest`, as long as one stays taken. The characters taken are given last first.
-/
def giveBack (next : Text → Option γ) : (taken rest : Text) → Option (Text × γ)
  | [], _ => none
  | c :: taken, rest =>
    match next rest with
    | some g => some ((c :: taken).reverse, g)
    | none => giveBack next taken (c :: rest)

/-- Takes the longest run of the class, one character at least, after which `next` answers. -/
def takeMost (inClass : Char → Bool) (next : Text → Option γ) (s : Text) : Option (Text × γ) :=
  giveBack next (s.takeWhile inClass).reverse (s.dropWhile inClass)

/-! ## As few characters as possible -/

/-- `takeLeast` after some characters of the class, given last first, have been taken. -/
def takeLeastAfter (inClass : Char → Bool) (next : Text → Option γ) (taken : Text) :
    Text → Option (Text × γ)
  | [] => (next []).map (taken.reverse, ·)
  | c :: s =>
    match next (c :: s) with
    | some g => some (taken.reverse, g)
    | none => if inClass c then takeLeastAfter inClass next (c :: taken) s else none

/-- Takes the shortest run of the class after which `next` answers. -/
def takeLeast (inClass : Char → Bool) (next : Text → Option γ) (s : Text) : Option (Text × γ) :=
  takeLeastAfter inClass next [] s

/-! ## A piece -/

/-- Takes a text that the piece fits, the first one after which `next` answers. -/
def take : Piece → (next : Text → Option γ) → Text → Option (Text × γ)
  | oneOf words => takeOneOf words
  | most inClass => takeMost inClass
  | least inClass => takeLeast inClass

/-! ## Equations -/

theorem giveBack_append (next : Text → Option γ) (more taken rest : Text) :
    giveBack next (more ++ taken) rest =
      (match giveBack next more rest with
       | some (t, g) => some (taken.reverse ++ t, g)
       | none => giveBack next taken (more.reverse ++ rest)) := by
  induction more generalizing rest with
  | nil => simp [giveBack]
  | cons c more ih =>
    simp only [List.cons_append, giveBack]
    cases next rest with
    | some g => simp
    | none => simp [ih]

@[simp] theorem takeMost_nil (inClass : Char → Bool) (next : Text → Option γ) :
    takeMost inClass next [] = none := rfl

/-- Outside the class nothing can be taken. -/
theorem takeMost_cons_of_not {inClass : Char → Bool} {c : Char} (h : inClass c = false)
    (next : Text → Option γ) (s : Text) : takeMost inClass next (c :: s) = none := by
  simp [takeMost, h, giveBack]

/-- A longer run is tried before the single character. -/
theorem takeMost_cons {inClass : Char → Bool} {c : Char} (h : inClass c = true)
    (next : Text → Option γ) (s : Text) :
    takeMost inClass next (c :: s) =
      (match takeMost inClass next s with
       | some (t, g) => some (c :: t, g)
       | none => (next s).map ([c], ·)) := by
  simp only [takeMost, List.takeWhile_cons, List.dropWhile_cons, h, if_true, List.reverse_cons]
  rw [giveBack_append]
  cases giveBack next (s.takeWhile inClass).reverse (s.dropWhile inClass) with
  | some p => simp
  | none =>
    simp only [List.reverse_reverse, List.takeWhile_append_dropWhile, giveBack]
    cases next s <;> rfl

theorem takeLeastAfter_eq (inClass : Char → Bool) (next : Text → Option γ) (taken s : Text) :
    takeLeastAfter inClass next taken s =
      (takeLeast inClass next s).map fun (t, g) => (taken.reverse ++ t, g) := by
  induction s generalizing taken with
  | nil => cases h : next [] <;> simp [takeLeast, takeLeastAfter, h]
  | cons c s ih =>
    simp only [takeLeast, takeLeastAfter]
    cases h : next (c :: s) with
    | some g => simp
    | none =>
      by_cases hc : inClass c = true
      · simp only [hc, if_true]
        rw [ih (c :: taken), ih [c]]
        cases takeLeast inClass next s <;> simp
      · simp [hc]

theorem takeLeast_nil (inClass : Char → Bool) (next : Text → Option γ) :
    takeLeast inClass next [] = (next []).map ([], ·) := rfl

/-- Where `next` answers at once, nothing is taken. -/
theorem takeLeast_of_some {inClass : Char → Bool} {next : Text → Option γ} {s : Text} {g : γ}
    (h : next s = some g) : takeLeast inClass next s = some ([], g) := by
  cases s <;> simp [takeLeast, takeLeastAfter, h]

/-- Where `next` refuses, a character of the class is taken and the search goes on. -/
theorem takeLeast_cons_of_none {inClass : Char → Bool} {next : Text → Option γ} {c : Char}
    {s : Text} (h : next (c :: s) = none) :
    takeLeast inClass next (c :: s) =
      if inClass c then (takeLeast inClass next s).map fun (t, g) => (c :: t, g) else none := by
  simp only [takeLeast, takeLeastAfter, h]
  by_cases hc : inClass c = true
  · simp only [hc, if_true]
    rw [takeLeastAfter_eq]
    rfl
  · simp [hc]

/-! ## What is taken -/

section

variable {inClass : Char → Bool} {next : Text → Option γ} {s : Text}

theorem takeMost_sound {t : Text} {g : γ} (h : takeMost inClass next s = some (t, g)) :
    ∃ rest, s = t ++ rest ∧ (most inClass).Fits t ∧ next rest = some g := by
  induction s generalizing t with
  | nil => simp at h
  | cons c s ih =>
    by_cases hc : inClass c = true
    · rw [takeMost_cons hc] at h
      split at h
      · next u g' hu =>
        simp only [Option.some.injEq, Prod.mk.injEq] at h
        obtain ⟨rfl, rfl⟩ := h
        obtain ⟨rest, rfl, ⟨_, hall⟩, hn⟩ := ih hu
        exact ⟨rest, rfl, ⟨by simp, by simpa [hc] using hall⟩, hn⟩
      · simp only [Option.map_eq_some_iff, Prod.mk.injEq] at h
        obtain ⟨g', hn, rfl, rfl⟩ := h
        exact ⟨s, rfl, ⟨by simp, by simpa using hc⟩, hn⟩
    · rw [takeMost_cons_of_not (by simpa using hc)] at h
      simp at h

theorem takeLeast_sound {t : Text} {g : γ} (h : takeLeast inClass next s = some (t, g)) :
    ∃ rest, s = t ++ rest ∧ (least inClass).Fits t ∧ next rest = some g := by
  induction s generalizing t with
  | nil =>
    simp only [takeLeast_nil, Option.map_eq_some_iff, Prod.mk.injEq] at h
    obtain ⟨g', hn, rfl, rfl⟩ := h
    exact ⟨[], rfl, by simp [Fits], hn⟩
  | cons c s ih =>
    cases hn : next (c :: s) with
    | some g' =>
      simp only [takeLeast_of_some hn, Option.some.injEq, Prod.mk.injEq] at h
      obtain ⟨rfl, rfl⟩ := h
      exact ⟨c :: s, rfl, by simp [Fits], hn⟩
    | none =>
      rw [takeLeast_cons_of_none hn] at h
      by_cases hc : inClass c = true
      · simp only [hc, if_true, Option.map_eq_some_iff, Prod.exists, Prod.mk.injEq] at h
        obtain ⟨u, g', hu, rfl, rfl⟩ := h
        obtain ⟨rest, rfl, hall, hn⟩ := ih hu
        exact ⟨rest, rfl, by simpa [Fits, hc] using hall, hn⟩
      · simp [hc] at h

theorem takeMost_eq_none_iff : takeMost inClass next s = none ↔
    ∀ t rest, s = t ++ rest → (most inClass).Fits t → next rest = none := by
  simp only [Fits]
  induction s with
  | nil => simp +contextual
  | cons c s ih =>
    by_cases hc : inClass c = true
    · rw [takeMost_cons hc]
      cases hm : takeMost inClass next s with
      | some p =>
        simp only [reduceCtorEq, false_iff]
        intro hall
        obtain ⟨rest, hs, ⟨_, ht⟩, hn⟩ := takeMost_sound (t := p.1) (g := p.2) hm
        have := hall (c :: p.1) rest (by simp [hs]) ⟨by simp, by simpa [hc] using ht⟩
        simp [hn] at this
      | none =>
        simp only [Option.map_eq_none_iff]
        constructor
        · intro hn t rest hs ⟨hne, ht⟩
          match t, hs with
          | [], _ => exact absurd rfl hne
          | [_], hs =>
            simp only [List.cons_append, List.nil_append, List.cons.injEq] at hs
            exact hs.2 ▸ hn
          | _ :: d :: t, hs =>
            simp only [List.cons_append, List.cons.injEq] at hs
            exact ih.mp hm (d :: t) rest hs.2 ⟨by simp, fun x hx => ht x (by simp_all)⟩
        · intro h
          exact h [c] s rfl ⟨by simp, by simpa using hc⟩
    · simp only [takeMost_cons_of_not (by simpa using hc), true_iff]
      intro t rest hs ⟨hne, ht⟩
      cases t with
      | nil => exact absurd rfl hne
      | cons d t =>
        simp only [List.cons_append, List.cons.injEq] at hs
        exact absurd (hs.1 ▸ ht d (by simp)) hc

theorem takeLeast_eq_none_iff : takeLeast inClass next s = none ↔
    ∀ t rest, s = t ++ rest → (least inClass).Fits t → next rest = none := by
  simp only [Fits]
  induction s with
  | nil => simp +contextual [takeLeast_nil]
  | cons c s ih =>
    cases hn : next (c :: s) with
    | some g =>
      simp only [takeLeast_of_some hn, reduceCtorEq, false_iff]
      intro h
      simpa [hn] using h [] (c :: s) rfl (by simp)
    | none =>
      rw [takeLeast_cons_of_none hn]
      by_cases hc : inClass c = true
      · simp only [hc, if_true, Option.map_eq_none_iff, ih]
        constructor
        · intro h t rest hs ht
          cases t with
          | nil => exact (List.nil_append rest ▸ hs) ▸ hn
          | cons d t =>
            simp only [List.cons_append, List.cons.injEq] at hs
            exact h t rest hs.2 fun x hx => ht x (by simp [hx])
        · intro h t rest hs ht
          exact h (c :: t) rest (by simp [hs]) (by simpa [hc] using ht)
      · simp only [hc, Bool.false_eq_true, if_false, true_iff]
        intro t rest hs ht
        cases t with
        | nil => exact (List.nil_append rest ▸ hs) ▸ hn
        | cons d t =>
          simp only [List.cons_append, List.cons.injEq] at hs
          exact absurd (hs.1 ▸ ht d (by simp)) hc

end

/-- What is taken fits the piece and stands at the front, and `next` answers on what follows. -/
theorem take_sound {piece : Piece} {next : Text → Option γ} {s t : Text} {g : γ}
    (h : piece.take next s = some (t, g)) :
    ∃ rest, s = t ++ rest ∧ piece.Fits t ∧ next rest = some g := by
  cases piece with
  | oneOf words =>
    obtain ⟨w, hw, h⟩ := List.exists_of_findSome?_eq_some h
    simp only [Option.bind_eq_some_iff, Option.map_eq_some_iff, Prod.mk.injEq] at h
    obtain ⟨rest, hs, g', hn, rfl, rfl⟩ := h
    exact ⟨rest, Text.after?_eq_some_iff.mp hs, hw, hn⟩
  | most inClass => exact takeMost_sound h
  | least inClass => exact takeLeast_sound h

/-- Nothing is taken exactly where `next` refuses after every text that the piece fits. -/
theorem take_eq_none_iff {piece : Piece} {next : Text → Option γ} {s : Text} :
    piece.take next s = none ↔ ∀ t rest, s = t ++ rest → piece.Fits t → next rest = none := by
  cases piece with
  | oneOf words =>
    simp only [take, takeOneOf, List.findSome?_eq_none_iff, Option.bind_eq_none_iff,
      Option.map_eq_none_iff, Text.after?_eq_some_iff, Fits]
    exact ⟨fun h t rest hs ht => h t ht rest hs, fun h t ht rest hs => h t rest hs ht⟩
  | most inClass => exact takeMost_eq_none_iff
  | least inClass => exact takeLeast_eq_none_iff

end Piece

end CurlLog
