import CurlLog.Pattern.Basic

/-!
# A pattern at every place of a text

To look for a pattern is to try it at one place after the other, and a pattern with wide gaps does
the same work again at each of them. But what the rest of a pattern answers at a place does not
depend on how the place was reached. So the answers at all places are worked out together, piece by
piece from the last one to the first, each place from the one after it. This takes a number of
steps that grows with the length of the text and no faster.

* `Piece.column` gives the answers of a piece at all places from those of what follows it
  (`column_eq`).
* `Pattern.everywhere` gives the answers of a pattern at all places (`everywhere_eq`).
-/

namespace CurlLog

/-- What is left of a text at each of its places, from the whole text to the empty one. -/
def Text.suffixes : Text → List Text
  | [] => [[]]
  | c :: s => (c :: s) :: suffixes s

/-- `suffixes` with the ones before them, last first. -/
def Text.suffixesAfter (done : List Text) : Text → List Text
  | [] => ([] :: done).reverse
  | c :: s => suffixesAfter ((c :: s) :: done) s

theorem Text.suffixesAfter_eq (done : List Text) (s : Text) :
    suffixesAfter done s = done.reverse ++ suffixes s := by
  induction s generalizing done with
  | nil => simp [suffixesAfter, suffixes]
  | cons c s ih => simp [suffixesAfter, suffixes, ih]

namespace Piece

variable {γ : Type}

/-! ## One of some words -/

/-- The answer at one place. The answers of what follows are given from this place on. -/
def oneOfAnswer (words : List Text) (s : Text) (nexts : List (Option γ)) : Option (Text × γ) :=
  words.findSome? fun w =>
    if (Text.after? w s).isSome then ((nexts.drop w.length).head?.bind id).map (w, ·) else none

/-- The answers at all places, after those that are done, last first. -/
def oneOfColumn (words : List Text) (done : List (Option (Text × γ))) :
    Text → List (Option γ) → List (Option (Text × γ))
  | c :: s, next :: nexts =>
    oneOfColumn words (oneOfAnswer words (c :: s) (next :: nexts) :: done) s nexts
  | s, nexts => (oneOfAnswer words s nexts :: done).reverse

/-! ## As many characters as possible -/

/-- The answer before a character, from the one after it and from what follows there. -/
def mostAnswer (inClass : Char → Bool) (c : Char) (next : Option γ) (after : Option (Text × γ)) :
    Option (Text × γ) :=
  match after, next with
  | some (t, g), _ => if inClass c then some (c :: t, g) else none
  | none, some g => if inClass c then some ([c], g) else none
  | none, none => none

/-- The answers at all places. -/
def mostColumn (inClass : Char → Bool) (s : Text) (nexts : List (Option γ)) :
    List (Option (Text × γ)) :=
  (s.zip nexts.tail).foldr
    (fun (c, next) column => mostAnswer inClass c next (column.head?.bind id) :: column) [none]

/-! ## As few characters as possible -/

/-- The answer before a character, from the one after it and from what follows here. -/
def leastAnswer (inClass : Char → Bool) (c : Char) (next : Option γ) (after : Option (Text × γ)) :
    Option (Text × γ) :=
  match next, after with
  | some g, _ => some ([], g)
  | none, some (t, g) => if inClass c then some (c :: t, g) else none
  | none, none => none

/-- The answers at all places. -/
def leastColumn (inClass : Char → Bool) (s : Text) (nexts : List (Option γ)) :
    List (Option (Text × γ)) :=
  (s.zip nexts).foldr
    (fun (c, next) column => leastAnswer inClass c next (column.head?.bind id) :: column)
    [(nexts.getLast?.bind id).map ([], ·)]

/-! ## A piece -/

/-- The answers of a piece at all places of a text, from the answers of what follows it. -/
def column : Piece → Text → (nexts : List (Option γ)) → List (Option (Text × γ))
  | oneOf words => oneOfColumn words []
  | most inClass => mostColumn inClass
  | least inClass => leastColumn inClass

theorem head?_map_suffixes {δ : Type} (f : Text → δ) (s : Text) :
    ((Text.suffixes s).map f).head? = some (f s) := by
  cases s <;> rfl

theorem tail_map_suffixes {δ : Type} (f : Text → δ) (c : Char) (s : Text) :
    ((Text.suffixes (c :: s)).map f).tail = (Text.suffixes s).map f := rfl

theorem getLast?_map_suffixes {δ : Type} (f : Text → δ) (s : Text) :
    ((Text.suffixes s).map f).getLast? = some (f []) := by
  induction s with
  | nil => rfl
  | cons c s ih =>
    rw [Text.suffixes, List.map_cons, List.getLast?_cons, ih]
    rfl

theorem drop_map_suffixes {δ : Type} (f : Text → δ) (w s : Text) :
    (((Text.suffixes (w ++ s)).map f).drop w.length).head? = some (f s) := by
  induction w with
  | nil => exact head?_map_suffixes f s
  | cons c w ih => simpa [Text.suffixes] using ih

theorem oneOfAnswer_eq (words : List Text) (next : Text → Option γ) (s : Text) :
    oneOfAnswer words s ((Text.suffixes s).map next) = takeOneOf words next s := by
  unfold oneOfAnswer takeOneOf
  congr 1
  funext w
  cases h : Text.after? w s with
  | none => rfl
  | some rest =>
    obtain rfl := Text.after?_eq_some_iff.mp h
    rw [drop_map_suffixes]
    rfl

theorem oneOfColumn_eq (words : List Text) (next : Text → Option γ)
    (done : List (Option (Text × γ))) (s : Text) :
    oneOfColumn words done s ((Text.suffixes s).map next) =
      done.reverse ++ (Text.suffixes s).map (takeOneOf words next) := by
  induction s generalizing done with
  | nil =>
    have h := oneOfAnswer_eq words next []
    simp only [Text.suffixes, List.map_cons, List.map_nil] at h ⊢
    simp [oneOfColumn, h]
  | cons c s ih =>
    have h := oneOfAnswer_eq words next (c :: s)
    simp only [Text.suffixes, List.map_cons] at h ⊢
    simp [oneOfColumn, h, ih]

theorem mostAnswer_eq (inClass : Char → Bool) (next : Text → Option γ) (c : Char) (s : Text) :
    mostAnswer inClass c (next s) (takeMost inClass next s) = takeMost inClass next (c :: s) := by
  by_cases hc : inClass c = true
  · rw [takeMost_cons hc]
    cases takeMost inClass next s with
    | some p => simp [mostAnswer, hc]
    | none => cases next s <;> simp [mostAnswer, hc]
  · rw [takeMost_cons_of_not (by simpa using hc)]
    cases takeMost inClass next s with
    | some p => simp [mostAnswer, hc]
    | none => cases next s <;> simp [mostAnswer, hc]

theorem mostColumn_eq (inClass : Char → Bool) (next : Text → Option γ) (s : Text) :
    mostColumn inClass s ((Text.suffixes s).map next) =
      (Text.suffixes s).map (takeMost inClass next) := by
  induction s with
  | nil => rfl
  | cons c s ih =>
    have hzip : (c :: s).zip ((Text.suffixes (c :: s)).map next).tail =
        (c, next s) :: s.zip ((Text.suffixes s).map next).tail := by
      rw [tail_map_suffixes]
      cases s <;> rfl
    rw [mostColumn, hzip, List.foldr_cons]
    rw [mostColumn] at ih
    rw [ih, head?_map_suffixes]
    exact congrArg (· :: (Text.suffixes s).map (takeMost inClass next))
      (mostAnswer_eq inClass next c s)

theorem leastAnswer_eq (inClass : Char → Bool) (next : Text → Option γ) (c : Char) (s : Text) :
    leastAnswer inClass c (next (c :: s)) (takeLeast inClass next s) =
      takeLeast inClass next (c :: s) := by
  cases h : next (c :: s) with
  | some g => simp [leastAnswer, takeLeast_of_some h]
  | none =>
    rw [takeLeast_cons_of_none h]
    cases takeLeast inClass next s <;> simp [leastAnswer]

theorem leastColumn_eq (inClass : Char → Bool) (next : Text → Option γ) (s : Text) :
    leastColumn inClass s ((Text.suffixes s).map next) =
      (Text.suffixes s).map (takeLeast inClass next) := by
  induction s with
  | nil => rfl
  | cons c s ih =>
    rw [leastColumn, getLast?_map_suffixes] at ih ⊢
    rw [Text.suffixes, List.map_cons, List.map_cons, List.zip_cons_cons, List.foldr_cons, ih,
      head?_map_suffixes]
    exact congrArg (· :: (Text.suffixes s).map (takeLeast inClass next))
      (leastAnswer_eq inClass next c s)

/-- A column holds what the piece takes at each place. -/
theorem column_eq (piece : Piece) (next : Text → Option γ) (s : Text) :
    piece.column s ((Text.suffixes s).map next) = (Text.suffixes s).map (piece.take next) := by
  cases piece with
  | oneOf words => exact oneOfColumn_eq words next [] s
  | most inClass => exact mostColumn_eq inClass next s
  | least inClass => exact leastColumn_eq inClass next s

end Piece

namespace Pattern

variable {α : Type}

/-- What the pattern answers at each place of the text. -/
def everywhere : Pattern α → Text → List (Option (Match α × Text))
  | [], s => (Text.suffixesAfter [] s).map fun rest => some ([], rest)
  | (a, piece) :: p, s =>
    (piece.column s (everywhere p s)).map
      (Option.map fun (t, m, rest) => ((a, t) :: m, rest))

/-- The answers at all places are those at each of them. -/
theorem everywhere_eq (p : Pattern α) (s : Text) :
    p.everywhere s = (Text.suffixes s).map p.match? := by
  induction p with
  | nil =>
    rw [everywhere, Text.suffixesAfter_eq]
    rfl
  | cons e p ih =>
    obtain ⟨a, piece⟩ := e
    rw [everywhere, ih, Piece.column_eq, List.map_map]
    rfl

end Pattern

end CurlLog
