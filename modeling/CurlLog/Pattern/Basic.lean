import CurlLog.Pattern.Piece

/-!
# Patterns

A pattern is a list of pieces, each with the name of the part that it belongs to. A match keeps
the text of each piece under that name, so that the parts can be read off it; a part may consist
of several pieces, also of pieces that are apart.

* `Pattern.match?` matches at the front of a text, `Pattern.find?` at the first place possible.
* What a match took is the text it stands for (`text_of_match?`, `text_of_find?`), and piece by
  piece it fits the pattern (`fits_of_match?`).
-/

namespace CurlLog

/-- Pieces in the order in which they take their text, each with the part it belongs to. -/
abbrev Pattern (α : Type) := List (α × Piece)

/-- The text that each piece of a pattern took, under the part it belongs to. -/
abbrev Match (α : Type) := List (α × Text)

variable {α : Type}

namespace Match

/-- All that the pattern took. -/
def text (m : Match α) : Text :=
  m.flatMap (·.2)

/-- What the pieces of the parts that `wanted` selects took, in order. -/
def select (wanted : α → Bool) (m : Match α) : Text :=
  text (m.filter fun e => wanted e.1)

/-- What the pieces of one part took. -/
def part [BEq α] (m : Match α) (a : α) : Text :=
  m.select (· == a)

@[simp] theorem text_nil : text ([] : Match α) = [] := rfl

@[simp] theorem text_cons (e : α × Text) (m : Match α) : text (e :: m) = e.2 ++ text m := rfl

@[simp] theorem text_append (m n : Match α) : text (m ++ n) = text m ++ text n := by
  simp [text]

end Match

namespace Pattern

/-- Pieces that all belong to one part. -/
def ofPart (a : α) (pieces : List Piece) : Pattern α :=
  pieces.map (a, ·)

/-- A match fits a pattern if it has the same parts and each text fits its piece. -/
inductive Fits : Pattern α → Match α → Prop where
  | nil : Fits [] []
  | cons {a : α} {piece : Piece} {t : Text} {p : Pattern α} {m : Match α} :
      piece.Fits t → Fits p m → Fits ((a, piece) :: p) ((a, t) :: m)

/-- Matches at the front of the text. The answer is what was taken and what follows it. -/
def match? : Pattern α → Text → Option (Match α × Text)
  | [], s => some ([], s)
  | (a, piece) :: p, s => (piece.take (match? p) s).map fun (t, m, rest) => ((a, t) :: m, rest)

/--
Matches at the first place possible. The answer is what stands before the match, the match and
what follows it.
-/
def find? (p : Pattern α) (s : Text) : Option (Text × Match α × Text) :=
  Piece.takeLeast (fun _ => true) p.match? s

/-- A match fits the pattern, and with what follows it makes up the text. -/
theorem match?_sound {p : Pattern α} {s : Text} {m : Match α} {rest : Text}
    (h : p.match? s = some (m, rest)) : p.Fits m ∧ s = m.text ++ rest := by
  induction p generalizing s m with
  | nil =>
    simp only [match?, Option.some.injEq, Prod.mk.injEq] at h
    obtain ⟨rfl, rfl⟩ := h
    exact ⟨.nil, rfl⟩
  | cons e p ih =>
    simp only [match?, Option.map_eq_some_iff, Prod.exists, Prod.mk.injEq] at h
    obtain ⟨t, m', rest', ht, rfl, rfl⟩ := h
    obtain ⟨s', rfl, hf, hm⟩ := Piece.take_sound ht
    obtain ⟨hp, rfl⟩ := ih hm
    exact ⟨.cons hf hp, by simp⟩

theorem fits_of_match? {p : Pattern α} {s : Text} {m : Match α} {rest : Text}
    (h : p.match? s = some (m, rest)) : p.Fits m :=
  (match?_sound h).1

theorem text_of_match? {p : Pattern α} {s : Text} {m : Match α} {rest : Text}
    (h : p.match? s = some (m, rest)) : m.text ++ rest = s :=
  (match?_sound h).2.symm

/-- The pattern does not match at the front exactly if no text there fits it. -/
theorem match?_eq_none_iff {p : Pattern α} {s : Text} :
    p.match? s = none ↔ ∀ m rest, s = m.text ++ rest → ¬ p.Fits m := by
  induction p generalizing s with
  | nil =>
    simp only [match?, reduceCtorEq, false_iff]
    exact fun h => h [] s rfl .nil
  | cons e p ih =>
    obtain ⟨a, piece⟩ := e
    simp only [match?, Option.map_eq_none_iff, Piece.take_eq_none_iff, ih]
    constructor
    · rintro h _ rest hs (_ | ⟨ht, hm⟩)
      exact h _ _ (by simpa using hs) ht _ rest rfl hm
    · rintro h t _ hs ht m rest rfl hm
      exact h ((a, t) :: m) rest (by simpa using hs) (.cons ht hm)

/-- What stands before the match, the match and what follows it make up the text. -/
theorem find?_sound {p : Pattern α} {s before : Text} {m : Match α} {rest : Text}
    (h : p.find? s = some (before, m, rest)) :
    p.match? (m.text ++ rest) = some (m, rest) ∧ s = before ++ m.text ++ rest := by
  obtain ⟨s', rfl, _, hm⟩ :=
    Piece.take_sound (show (Piece.least fun _ => true).take p.match? s = _ from h)
  have := text_of_match? hm
  exact ⟨this ▸ hm, by simp [this]⟩

theorem text_of_find? {p : Pattern α} {s before : Text} {m : Match α} {rest : Text}
    (h : p.find? s = some (before, m, rest)) : before ++ m.text ++ rest = s :=
  (find?_sound h).2.symm

theorem fits_of_find? {p : Pattern α} {s before : Text} {m : Match α} {rest : Text}
    (h : p.find? s = some (before, m, rest)) : p.Fits m :=
  fits_of_match? (find?_sound h).1

/-- Nothing is found exactly if the pattern matches nowhere. -/
theorem find?_eq_none_iff {p : Pattern α} {s : Text} :
    p.find? s = none ↔ ∀ before rest, s = before ++ rest → p.match? rest = none := by
  show (Piece.least fun _ => true).take p.match? s = none ↔ _
  simp [Piece.take_eq_none_iff, Piece.Fits]

end Pattern

end CurlLog
