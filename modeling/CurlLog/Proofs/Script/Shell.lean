import CurlLog.Proofs.Text.Lines
import CurlLog.Script.Shell
import CurlLog.Text.Blank

/-!
# Inserted lines

A line that calls a function ends where its only line end stands (`command_eq`), and each of its
blanks stands before a quoted word (`quote_after_blank`). So no text with another character behind
a blank can hide in such a line.
-/

namespace CurlLog.Shell

/-- A name of a variable or a function: letters, digits and underscores, and no digit first. -/
def IsIdentifier (s : Text) : Prop :=
  s ≠ [] ∧ (∀ c ∈ s.head?, c.isDigit = false) ∧ ∀ c ∈ s, (c.isAlphanum || c == '_') = true

instance (s : Text) : Decidable (IsIdentifier s) :=
  inferInstanceAs (Decidable (_ ∧ _ ∧ _))

theorem IsIdentifier.notMem {s : Text} (h : IsIdentifier s) {c : Char}
    (hc : (c.isAlphanum || c == '_') = false) : c ∉ s := by
  intro hmem
  simp [h.2.2 c hmem] at hc

/-- No white space is in an identifier. -/
theorem IsIdentifier.isBlank_of_mem {s : Text} (h : IsIdentifier s) {c : Char} (hc : c ∈ s) :
    isBlank c = false := by
  have hclass : (c.isUpper || c.isLower || c.isDigit || c == '_') = true := h.2.2 c hc
  simp only [Bool.or_eq_true] at hclass
  rcases hclass with ((hupper | hlower) | hdigit) | hunder
  · exact isBlank_of_isUpper hupper
  · obtain ⟨ha, hz⟩ := Bool.and_eq_true_iff.mp hlower
    have ha : 97 ≤ c.toNat := of_decide_eq_true ha
    have hz : c.toNat ≤ 122 := of_decide_eq_true hz
    exact isBlank_of_printed (by omega) (by omega)
  · obtain ⟨h0, h9⟩ := Bool.and_eq_true_iff.mp hdigit
    have h0 : 48 ≤ c.toNat := of_decide_eq_true h0
    have h9 : c.toNat ≤ 57 := of_decide_eq_true h9
    exact isBlank_of_printed (by omega) (by omega)
  · rw [eq_of_beq hunder]
    decide

/-- An identifier begins with neither white space nor a hyphen. -/
theorem IsIdentifier.exists_cons {s : Text} (h : IsIdentifier s) :
    ∃ d t, s = d :: t ∧ isBlank d = false ∧ d ≠ '-' := by
  obtain ⟨d, t, rfl⟩ := List.exists_cons_of_ne_nil h.1
  refine ⟨d, t, rfl, h.isBlank_of_mem (by simp), ?_⟩
  rintro rfl
  exact h.notMem (c := '-') (by decide) (by simp)

/-- How a command begins that prints a text in colour. -/
def echoOption : Text :=
  "echo -e".toList

/-- A line that calls a function, without its end. -/
def call (name : Text) (words : List Text) : Text :=
  name ++ words.flatMap fun w => ' ' :: doubleQuoted w

theorem command_eq (name : Text) (words : List Text) :
    command name words = call name words ++ ['\n'] := rfl

/-- Behind its name the line goes on with a blank and the first word. -/
theorem command_cons (name w : Text) (words : List Text) :
    command name (w :: words) = name ++ ' ' :: '"' :: (w ++ '"' :: command [] words) := by
  simp [command, doubleQuoted]

theorem wholeLines_command (name : Text) (words : List Text) :
    Text.WholeLines (command name words) :=
  Text.wholeLines_append_newline (call name words)

/-- A line that calls a function has no character that its name and its words do not have. -/
theorem notMem_call {name : Text} {words : List Text} {c : Char} (hn : c ∉ name)
    (hw : ∀ w ∈ words, c ∉ w) (hblank : c ≠ ' ') (hquote : c ≠ '"') : c ∉ call name words := by
  simp only [call, List.mem_append, List.mem_flatMap, not_or, not_exists, not_and]
  refine ⟨hn, fun w hmem hc => ?_⟩
  simp only [doubleQuoted, List.cons_append, List.mem_cons, List.mem_append, List.not_mem_nil,
    or_false] at hc
  rcases hc with hc | hc | hc | hc
  · exact hblank hc
  · exact hquote hc
  · exact hw w hmem hc
  · exact hquote hc

/-- Each blank of the line stands before a quoted word. -/
theorem quote_after_blank {name : Text} {words : List Text} (hn : ' ' ∉ name)
    (hw : ∀ w ∈ words, ' ' ∉ w) {p q : Text} (h : command name words = p ++ ' ' :: q) :
    ∃ q', q = '"' :: q' := by
  induction words generalizing name p with
  | nil =>
    have hmem : ' ' ∈ command name [] := h ▸ by simp
    simp [command, hn] at hmem
  | cons w words ih =>
    rw [command_cons] at h
    rcases Text.first_cases hn h.symm with ⟨_, rfl⟩ | ⟨p', _, h⟩
    · exact ⟨_, rfl⟩
    · have hw' : ' ' ∉ '"' :: (w ++ ['"']) := by
        simp [hw w (by simp)]
      have hrest : command ('"' :: (w ++ ['"'])) words = p' ++ ' ' :: q := by
        rw [← h]
        simp [command]
      exact ih hw' (fun v hv => hw v (by simp [hv])) hrest

/-- So no other character stands behind a blank of the line. -/
theorem blank_not_infix_command {name : Text} {words : List Text} (hn : ' ' ∉ name)
    (hw : ∀ w ∈ words, ' ' ∉ w) {d : Char} (hd : d ≠ '"') :
    ¬ [' ', d] <:+: command name words := by
  rintro ⟨p, q, h⟩
  have hsplit : command name words = p ++ ' ' :: (d :: q) := by rw [← h]; simp
  obtain ⟨q', hq⟩ := quote_after_blank hn hw hsplit
  exact hd (List.head_eq_of_cons_eq hq)

end CurlLog.Shell
