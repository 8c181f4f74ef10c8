import CurlLog.Text.Basic
import Mathlib.Tactic.SplitIfs

/-!
# The words of a command

The shell takes a command apart into words, as far as a line end, an operator, a comment or the
parenthesis that closes the substitution in which the command stands. Quotes and backslashes are not
part of a word. A blank ends no word in quotes or in an inner substitution, and a line end behind a
backslash is as if it were not there. Variables and substitutions are not expanded, and redirections
are read like other words.

The shell goes on character by character (`CommandReader.take`). A word that has been begun is
completed some time, and what stands before it stays (`begun_take`, `exists_of_begun`).
-/

namespace CurlLog.Shell

/-- What is open around a character. -/
inductive Enclosure where
  | singleQuotes
  | doubleQuotes
  | parentheses
deriving DecidableEq, Repr

/-- The state of the shell within a command. -/
structure CommandReader where
  /-- The words that are complete. -/
  words : List Text := []
  /-- The word that has been begun. -/
  word : Option Text := none
  /-- What is open, the innermost first. -/
  enclosures : List Enclosure := []
  /-- A backslash before the next character, or a dollar sign in double quotes. -/
  acting : Option Char := none
  /-- Whether the command has ended. -/
  ended : Bool := false
deriving DecidableEq, Repr

namespace CommandReader

/-- Goes on with the word, or begins one. -/
def extend (r : CommandReader) (t : Text) : CommandReader :=
  { r with word := some (r.word.getD [] ++ t) }

/-- Completes the word. -/
def complete (r : CommandReader) : CommandReader :=
  { r with words := r.words ++ r.word.toList, word := none }

/-- A character behind a backslash. Most characters do not lose the backslash in double quotes. -/
def takeEscaped (r : CommandReader) (c : Char) : CommandReader :=
  if c = '\n' then { r with acting := none }
  else if r.enclosures.head? = some .doubleQuotes ∧ c ∉ ['$', '\x60', '"', '\\'] then
    { r.extend ['\\', c] with acting := none }
  else { r.extend [c] with acting := none }

/-- A character in single quotes. -/
def takeLiteral (r : CommandReader) (outer : List Enclosure) (c : Char) : CommandReader :=
  if c = '\'' then { r with enclosures := outer } else r.extend [c]

/-- A character in double quotes. A dollar sign before a parenthesis opens a substitution. -/
def takeQuoted (r : CommandReader) (outer : List Enclosure) (c : Char) : CommandReader :=
  if c = '"' then { r with enclosures := outer, acting := none }
  else if c = '\\' then { r with acting := some c }
  else if c = '$' then { r.extend [c] with acting := some c }
  else if c = '(' ∧ r.acting = some '$' then
    { r.extend [c] with enclosures := .parentheses :: r.enclosures, acting := none }
  else { r.extend [c] with acting := none }

/--
Whether a character ends the command where nothing is open. Behind an angle bracket some operators
belong to a redirection, and a number sign begins a comment only where a word could begin.
-/
def endsWith (r : CommandReader) (c : Char) : Bool :=
  c ∈ ['\n', ';', ')'] || (c = '#' && r.word.isNone) ||
    (c ∈ ['&', '|'] && (r.word.bind (·.getLast?)).all (· ∉ ['<', '>']))

/-- A character in no quotes. Where no parenthesis is open, words and the command can end. -/
def takeBare (r : CommandReader) (c : Char) : CommandReader :=
  if c = '\\' then { r with acting := some c }
  else if c = '\'' then { r.extend [] with enclosures := .singleQuotes :: r.enclosures }
  else if c = '"' then { r.extend [] with enclosures := .doubleQuotes :: r.enclosures }
  else if c = '(' then { r.extend [c] with enclosures := .parentheses :: r.enclosures }
  else if r.enclosures ≠ [] then
    if c = ')' then { r.extend [c] with enclosures := r.enclosures.tail } else r.extend [c]
  else if c ∈ [' ', '\t'] then r.complete
  else if r.endsWith c then { r.complete with ended := true }
  else r.extend [c]

/-- Reads a character. -/
def take (r : CommandReader) (c : Char) : CommandReader :=
  if r.ended then r
  else if r.acting = some '\\' then r.takeEscaped c
  else match r.enclosures with
    | .singleQuotes :: outer => r.takeLiteral outer c
    | .doubleQuotes :: outer => r.takeQuoted outer c
    | _ => r.takeBare c

/-! ## What a character does to the words -/

/-- The words as they were, the last one longer, or the last one complete. -/
inductive Goes (r r' : CommandReader) : Prop where
  | same (words : r'.words = r.words) (word : r'.word = r.word)
  | longer (t : Text) (words : r'.words = r.words) (word : r'.word = some (r.word.getD [] ++ t))
  | complete (words : r'.words = r.words ++ r.word.toList) (word : r'.word = none)

theorem goes_takeEscaped (r : CommandReader) (c : Char) : r.Goes (r.takeEscaped c) := by
  rw [takeEscaped]
  split_ifs
  · exact .same rfl rfl
  · exact .longer _ rfl rfl
  · exact .longer _ rfl rfl

theorem goes_takeLiteral (r : CommandReader) (outer : List Enclosure) (c : Char) :
    r.Goes (r.takeLiteral outer c) := by
  rw [takeLiteral]
  split_ifs
  · exact .same rfl rfl
  · exact .longer _ rfl rfl

theorem goes_takeQuoted (r : CommandReader) (outer : List Enclosure) (c : Char) :
    r.Goes (r.takeQuoted outer c) := by
  rw [takeQuoted]
  split_ifs
  · exact .same rfl rfl
  · exact .same rfl rfl
  · exact .longer _ rfl rfl
  · exact .longer _ rfl rfl
  · exact .longer _ rfl rfl

theorem goes_takeBare (r : CommandReader) (c : Char) : r.Goes (r.takeBare c) := by
  rw [takeBare]
  split_ifs
  · exact .same rfl rfl
  · exact .longer _ rfl rfl
  · exact .longer _ rfl rfl
  · exact .longer _ rfl rfl
  · exact .longer _ rfl rfl
  · exact .longer _ rfl rfl
  · exact .complete rfl rfl
  · exact .complete rfl rfl
  · exact .longer _ rfl rfl

theorem goes_take (r : CommandReader) (c : Char) : r.Goes (r.take c) := by
  rw [take]
  split_ifs
  · exact .same rfl rfl
  · exact r.goes_takeEscaped c
  · split
    · exact r.goes_takeLiteral _ c
    · exact r.goes_takeQuoted _ c
    · exact r.goes_takeBare c

/-! ## A word that has been begun -/

/-- Behind the words `front` a word has been begun with `w`. It may be complete. -/
def Begun (front : List Text) (w : Text) (r : CommandReader) : Prop :=
  (r.words = front ∧ ∃ t, r.word = some (w ++ t)) ∨ ∃ t later, r.words = front ++ (w ++ t) :: later

variable {front : List Text} {w : Text} {r : CommandReader}

theorem begun_take (h : r.Begun front w) (c : Char) : (r.take c).Begun front w := by
  rcases h with ⟨hwords, t, hword⟩ | ⟨t, later, hwords⟩
  · cases r.goes_take c with
    | same hwords' hword' => exact .inl ⟨hwords'.trans hwords, t, hword'.trans hword⟩
    | longer u hwords' hword' =>
      refine .inl ⟨hwords'.trans hwords, t ++ u, ?_⟩
      rw [hword', hword, Option.getD_some, List.append_assoc]
    | complete hwords' _ =>
      refine .inr ⟨t, [], ?_⟩
      rw [hwords', hwords, hword]
      rfl
  · cases r.goes_take c with
    | same hwords' _ => exact .inr ⟨t, later, hwords'.trans hwords⟩
    | longer _ hwords' _ => exact .inr ⟨t, later, hwords'.trans hwords⟩
    | complete hwords' _ =>
      refine .inr ⟨t, later ++ r.word.toList, ?_⟩
      rw [hwords', hwords, List.append_assoc]
      rfl

theorem begun_foldl (h : r.Begun front w) (s : Text) : (s.foldl take r).Begun front w := by
  induction s generalizing r with
  | nil => exact h
  | cons c s ih => exact ih (begun_take h c)

/-- At the end it is one of the words. -/
theorem exists_of_begun (h : r.Begun front w) :
    ∃ t later, r.complete.words = front ++ (w ++ t) :: later := by
  rcases h with ⟨hwords, t, hword⟩ | ⟨t, later, hwords⟩
  · refine ⟨t, [], ?_⟩
    rw [complete, hwords, hword]
    rfl
  · refine ⟨t, later ++ r.word.toList, ?_⟩
    rw [complete, hwords, List.append_assoc]
    rfl

end CommandReader

/-- The words of the command at the front of the text. -/
def commandWords (s : Text) : List Text :=
  (s.foldl CommandReader.take {}).complete.words

/-- A word that has been begun is one of the words, whatever follows. -/
theorem commandWords_append {p : Text} {front : List Text} {w : Text}
    (h : p.foldl CommandReader.take {} = { words := front, word := some w }) (s : Text) :
    ∃ t later, commandWords (p ++ s) = front ++ (w ++ t) :: later := by
  have hbegun : CommandReader.Begun front w (p.foldl CommandReader.take {}) := by
    rw [h]
    exact .inl ⟨rfl, [], (congrArg some (List.append_nil w)).symm⟩
  rw [commandWords, List.foldl_append]
  exact CommandReader.exists_of_begun (CommandReader.begun_foldl hbegun s)

/-- An inner substitution, a continuation line, quotes, a redirection and an operator. -/
example : commandWords "a -H \"x: $(b \"c)\" d)\" \\\n '-d'e 2>&1 | f)".toList =
    ["a".toList, "-H".toList, "x: $(b c) d)".toList, "-de".toList, "2>&1".toList] := by
  decide +kernel

end CurlLog.Shell
