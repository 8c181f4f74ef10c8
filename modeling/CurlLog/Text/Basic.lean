/-!
# Text

Scripts, names, paths and messages are lists of characters, so that every definition on them is
a recursion on the data.

* `Text.after?` takes a word off the front of a text (`after?_eq_some_iff`).
* `Text.occurs` looks for a word anywhere in a text (`occurs_iff`).
* `Text.utf8Size` is the number of bytes that a text takes in UTF-8.
* `Text.padRight` fills a column of a table.
-/

namespace CurlLog

/-- A script, a name, a path or a message: its characters in order. -/
abbrev Text := List Char

namespace Text

/-! ## Checks of all characters -/

section

variable {p : Char → Prop} [DecidablePred p]

/-- A property of the characters of a text is checked on these only. -/
instance (s : Text) : Decidable (∀ c ∈ s, p c) :=
  s.decidableBAll p

instance (c : Option Char) : Decidable (∀ d ∈ c, p d) :=
  c.decidableForallMem

end

/-! ## Words at the front -/

/-- What follows `word` in a text that starts with it. -/
def after? : (word s : Text) → Option Text
  | [], s => some s
  | _ :: _, [] => none
  | w :: word, c :: s => if w = c then after? word s else none

/-- A word comes off the front exactly of the texts that start with it. -/
theorem after?_eq_some_iff {word s rest : Text} : after? word s = some rest ↔ s = word ++ rest := by
  fun_induction after? word s with
  | case1 s => simp [eq_comm]
  | case2 => simp
  | case3 word c s ih => simpa using ih
  | case4 w word c s h => simp [Ne.symm h]

@[simp] theorem after?_append (word rest : Text) : after? word (word ++ rest) = some rest :=
  after?_eq_some_iff.mpr rfl

/-! ## Words anywhere -/

/-- Whether `word` stands somewhere in the text. -/
def occurs (word : Text) : Text → Bool
  | [] => (after? word []).isSome
  | c :: s => (after? word (c :: s)).isSome || occurs word s

theorem occurs_iff {word s : Text} :
    occurs word s = true ↔ ∃ before rest, s = before ++ word ++ rest := by
  have front (s : Text) : (after? word s).isSome = true ↔ ∃ rest, s = word ++ rest := by
    simp [Option.isSome_iff_exists, after?_eq_some_iff]
  induction s with
  | nil => simp [occurs, front]
  | cons c s ih =>
    simp only [occurs, Bool.or_eq_true, front, ih]
    constructor
    · rintro (⟨rest, h⟩ | ⟨before, rest, h⟩)
      · exact ⟨[], rest, by simp [h]⟩
      · exact ⟨c :: before, rest, by simp [h]⟩
    · rintro ⟨before, rest, h⟩
      cases before with
      | nil => exact Or.inl ⟨rest, by simpa using h⟩
      | cons b before =>
        simp only [List.cons_append, List.cons.injEq] at h
        exact Or.inr ⟨before, rest, h.2⟩

/-! ## Sizes -/

/-- The number of bytes that the text takes in UTF-8. -/
def utf8Size (s : Text) : Nat :=
  s.foldl (fun n c => n + c.utf8Size) 0

/-- The text with blanks after it until it is at least `width` characters long. -/
def padRight (width : Nat) (s : Text) : Text :=
  s ++ List.replicate (width - s.length) ' '

/-- The text with blanks before it until it is at least `width` characters long. -/
def padLeft (width : Nat) (s : Text) : Text :=
  List.replicate (width - s.length) ' ' ++ s

/-- The decimal digits of a count. -/
def ofNat (n : Nat) : Text :=
  Nat.toDigits 10 n

end Text

end CurlLog
