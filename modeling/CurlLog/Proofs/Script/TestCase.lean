import CurlLog.Proofs.Pattern.Chain
import CurlLog.Proofs.Text.Lines
import CurlLog.Script.TestCase

/-!
# The opening of a test case

The texts that the pieces of `TestCase` take, as data: an identifier is a structure that carries
its own well-formedness (`Id`), a mark and the beginning of a title are made from one.

* `spells_mark`, `spells_heading` and `spells_header` say which texts the pieces take.
* `rigid_mark`, `ledBy_mark` and their twins for headings are what `Pattern.find?_chain` asks for.
-/

namespace CurlLog.TestCase

open Pattern

/-- How every title begins. -/
def titleOpening : Text :=
  "echo \">>> TC-".toList

/-- How every mark begins. -/
def markOpening : Text :=
  "# TC-".toList

/-- An identifier of a test case. -/
structure Id where
  letters : Text
  digits : Text
  letters_ne_nil : letters ≠ []
  digits_ne_nil : digits ≠ []
  isUpper_of_mem : ∀ c ∈ letters, c.isUpper = true
  isDecimalDigit_of_mem : ∀ c ∈ digits, isDecimalDigit c = true

/-- What an identifier is written with. -/
def isIdChar (c : Char) : Bool :=
  c == '-' || c.isUpper || isDecimalDigit c

namespace Id

/-- The identifier as it is written. -/
def text (i : Id) : Text :=
  "TC-".toList ++ (i.letters ++ '-' :: i.digits)

/-- The comment with the identifier, as far as the colon. -/
def mark (i : Id) : Text :=
  "# ".toList ++ (i.text ++ [':'])

/-- The command that prints the title, as far as the colon. -/
def title (i : Id) : Text :=
  "echo \">>> ".toList ++ (i.text ++ [':'])

theorem isIdChar_of_mem (i : Id) {c : Char} (h : c ∈ i.text) : isIdChar c = true := by
  have hprefix : ∀ c ∈ "TC-".toList, isIdChar c = true := by decide
  simp only [text, List.mem_append, List.mem_cons] at h
  rcases h with h | h | rfl | h
  · exact hprefix c h
  · simp [isIdChar, i.isUpper_of_mem c h]
  · decide
  · simp [isIdChar, i.isDecimalDigit_of_mem c h]

/-- Capital letters, digits and the hyphen are all that an identifier is made of. -/
theorem notMem_text (i : Id) {d : Char} (hd : isIdChar d = false) : d ∉ i.text :=
  fun h => Bool.false_ne_true (hd.symm.trans (i.isIdChar_of_mem h))

theorem notMem_colon (i : Id) {w : Text} {d : Char} (hd : isIdChar d = false) (hc : d ≠ ':')
    (hw : d ∉ w) : d ∉ w ++ (i.text ++ [':']) := by
  simp only [List.mem_append, List.mem_singleton, not_or]
  exact ⟨hw, i.notMem_text hd, hc⟩

theorem notMem_mark (i : Id) {d : Char} (hd : isIdChar d = false) (hc : d ≠ ':')
    (hw : d ∉ "# ".toList) : d ∉ i.mark :=
  i.notMem_colon hd hc hw

theorem notMem_title (i : Id) {d : Char} (hd : isIdChar d = false) (hc : d ≠ ':')
    (hw : d ∉ "echo \">>> ".toList) : d ∉ i.title :=
  i.notMem_colon hd hc hw

theorem title_eq_opening (i : Id) : ∃ t, i.title = titleOpening ++ t :=
  ⟨_, rfl⟩

theorem mark_eq_opening (i : Id) : ∃ t, i.mark = markOpening ++ t :=
  ⟨_, rfl⟩

/-- A mark ends with a colon. -/
theorem mark_eq (i : Id) : ∃ t, i.mark = t ++ [':'] :=
  ⟨"# ".toList ++ i.text, (List.append_assoc _ _ _).symm⟩

/-- What prints a title ends with a colon. -/
theorem title_eq (i : Id) : ∃ t, i.title = t ++ [':'] :=
  ⟨"echo \">>> ".toList ++ i.text, (List.append_assoc _ _ _).symm⟩

/-- The quote stands between the command `echo` and the title. -/
theorem title_eq_quote (i : Id) :
    i.title = "echo ".toList ++ '"' :: ((">>> ".toList ++ i.text) ++ [':']) := by
  have hopening : "echo \">>> ".toList = "echo ".toList ++ '"' :: ">>> ".toList := by decide
  have hsplit : i.title = ("echo ".toList ++ '"' :: ">>> ".toList) ++ (i.text ++ [':']) :=
    congrArg (· ++ (i.text ++ [':'])) hopening
  rw [hsplit, List.append_assoc, List.append_assoc, List.cons_append]

/-- The title is printed by the command `echo`, between double quotes. -/
theorem title_cons (i : Id) : ∃ t, i.title = 'e' :: 'c' :: 'h' :: 'o' :: ' ' :: '"' :: '>' :: t :=
  ⟨_, rfl⟩

theorem newline_notMem_mark (i : Id) : '\n' ∉ i.mark :=
  i.notMem_mark (by decide) (by decide) (by decide)

theorem newline_notMem_title (i : Id) : '\n' ∉ i.title :=
  i.notMem_title (by decide) (by decide) (by decide)

end Id

theorem spells_caseId {t : Text} : Piece.Spells caseId t ↔ ∃ i : Id, t = i.text := by
  simp only [caseId, Piece.spells_word_cons, Piece.spells_most_cons, Piece.spells_nil]
  constructor
  · rintro ⟨_, rfl, l, _, rfl, ⟨hl, hu⟩, _, rfl, n, _, rfl, ⟨hn, hd⟩, rfl⟩
    refine ⟨⟨l, n, hl, hn, hu, hd⟩, ?_⟩
    rw [List.append_nil]
    rfl
  · rintro ⟨i, rfl⟩
    exact ⟨_, rfl, _, _, rfl, ⟨i.letters_ne_nil, i.isUpper_of_mem⟩, i.digits, rfl, _, _,
      (List.append_nil _).symm, ⟨i.digits_ne_nil, i.isDecimalDigit_of_mem⟩, rfl⟩

theorem spells_mark {t : Text} : Piece.Spells mark t ↔ ∃ i : Id, t = i.mark := by
  simp only [mark, List.cons_append, Piece.spells_word_cons, Piece.spells_append, spells_caseId,
    Piece.spells_nil]
  constructor
  · rintro ⟨_, rfl, _, _, rfl, ⟨i, rfl⟩, _, rfl, rfl⟩
    exact ⟨i, rfl⟩
  · rintro ⟨i, rfl⟩
    exact ⟨_, rfl, _, _, rfl, ⟨i, rfl⟩, [], rfl, rfl⟩

theorem spells_heading {t : Text} : Piece.Spells heading t ↔ ∃ i : Id, t = '\n' :: i.title := by
  simp only [heading, List.cons_append, Piece.spells_word_cons, Piece.spells_append, spells_caseId,
    Piece.spells_nil]
  constructor
  · rintro ⟨_, rfl, _, _, rfl, ⟨i, rfl⟩, _, rfl, rfl⟩
    exact ⟨i, rfl⟩
  · rintro ⟨i, rfl⟩
    exact ⟨i.text ++ [':'], rfl, _, _, rfl, ⟨i, rfl⟩, [], rfl, rfl⟩

/-- A header is a mark, a gap, a title on a line of its own, a gap, a quote and a line end. -/
theorem spells_header {gap : Char → Bool} {t : Text} :
    Piece.Spells (header gap) t ↔ ∃ (i j : Id) (y z : Text),
      t = i.mark ++ (y ++ '\n' :: (j.title ++ (z ++ ['"', '\n']))) ∧
        (∀ c ∈ y, gap c = true) ∧ ∀ c ∈ z, gap c = true := by
  simp only [header, Piece.spells_append, Piece.spells_least_cons, Piece.spells_word_cons,
    spells_mark, spells_heading, Piece.spells_nil, List.append_assoc, List.cons_append]
  constructor
  · rintro ⟨_, _, rfl, ⟨i, rfl⟩, y, _, rfl, hy, _, _, rfl, ⟨j, rfl⟩, z, _, rfl, hz, _, rfl, rfl⟩
    exact ⟨i, j, y, z, rfl, hy, hz⟩
  · rintro ⟨i, j, y, z, rfl, hy, hz⟩
    exact ⟨_, _, rfl, ⟨i, rfl⟩, y, _, rfl, hy, '\n' :: j.title, _, rfl, ⟨j, rfl⟩, z, _, rfl, hz,
      [], rfl, rfl⟩

/-! ## Headers line by line -/

/-- The text begins with a mark. -/
def BeginsMarked (l : Text) : Prop :=
  ∃ (i : Id) (y : Text), l = i.mark ++ y

/-- A mark stands somewhere in the text. -/
def Marked (l : Text) : Prop :=
  ∃ x l', l = x ++ l' ∧ BeginsMarked l'

theorem marked_iff {l : Text} : Marked l ↔ ∃ i : Id, i.mark <:+: l := by
  constructor
  · rintro ⟨x, _, rfl, i, y, rfl⟩
    exact ⟨i, x, y, by simp⟩
  · rintro ⟨i, x, y, rfl⟩
    exact ⟨x, i.mark ++ y, by simp, i, y, rfl⟩

/-- The line prints a title. -/
def Titled (k : Text) : Prop :=
  ∃ (i : Id) (z : Text), k = i.title ++ (z ++ ['"'])

/-- A header without wide gaps is a line with a mark at its front and a line with a title. -/
theorem spells_header_line {t : Text} :
    Piece.Spells (header (· != '\n')) t ↔ ∃ l k : Text, t = l ++ '\n' :: (k ++ ['\n']) ∧
      ('\n' ∉ l ∧ BeginsMarked l) ∧ '\n' ∉ k ∧ Titled k := by
  have gap (y : Text) : (∀ c ∈ y, (c != '\n') = true) ↔ '\n' ∉ y := by
    constructor
    · exact fun h hmem => by simpa using h _ hmem
    · intro h c hc
      have : c ≠ '\n' := fun heq => h (heq ▸ hc)
      simpa using this
  rw [spells_header]
  simp only [gap]
  constructor
  · rintro ⟨i, j, y, z, rfl, hy, hz⟩
    refine ⟨i.mark ++ y, j.title ++ (z ++ ['"']), by simp, ⟨?_, i, y, rfl⟩, ?_, j, z, rfl⟩
    · simp [i.newline_notMem_mark, hy]
    · simp [j.newline_notMem_title, hz]
  · rintro ⟨_, _, rfl, ⟨hl, i, y, rfl⟩, hk, j, z, rfl⟩
    simp only [List.mem_append, not_or] at hl hk
    exact ⟨i, j, y, z, by simp, hl.2, hk.2.1⟩

/-! ## Reading without going back -/

section

variable {α : Type} (a : α)

theorem rigid_caseId_colon : Rigid (ofPart a (caseId ++ [.word ":".toList])) :=
  have digits : Rigid (ofPart a [.most isDecimalDigit, .word ":".toList]) :=
    rigid_nil.most (d := ':') (by decide) a a []
  have letters : Rigid (ofPart a [.most Char.isUpper, .word "-".toList, .most isDecimalDigit,
      .word ":".toList]) := digits.most (d := '-') (by decide) a a []
  letters.word a _

theorem rigid_mark : Rigid (ofPart a mark) :=
  (rigid_caseId_colon a).word a _

theorem rigid_heading : Rigid (ofPart a heading) :=
  (rigid_caseId_colon a).word a _

/-- A mark begins with a number sign and has no other. -/
theorem ledBy_mark : LedBy '#' (ofPart a mark) := by
  intro t ht
  obtain ⟨i, rfl⟩ := spells_mark.mp (takes_ofPart.mp ht)
  have hi : '#' ∉ i.text := i.notMem_text (by decide)
  exact ⟨' ' :: (i.text ++ [':']), rfl, by simp [hi]⟩

/-- A heading begins with a line end and has no other. -/
theorem ledBy_heading : LedBy '\n' (ofPart a heading) := by
  intro t ht
  obtain ⟨i, rfl⟩ := spells_heading.mp (takes_ofPart.mp ht)
  exact ⟨i.title, rfl, i.newline_notMem_title⟩

end

end CurlLog.TestCase
