import CurlLog.Proofs.Pattern.Takes

/-!
# The parts of a match

A pattern that is put together from stretches of one part each is matched stretch by stretch
(`fits_append`), and a part is read off stretch by stretch (`Match.select_append`): a stretch gives
all of its text to the parts it belongs to and nothing to any other (`Fits.select_ofPart`).
-/

namespace CurlLog

variable {α : Type}

namespace Match

theorem select_cons (wanted : α → Bool) (e : α × Text) (m : Match α) :
    select wanted (e :: m) = (if wanted e.1 then e.2 else []) ++ select wanted m := by
  cases h : wanted e.1 <;> simp [select, h]

theorem select_append (wanted : α → Bool) (m n : Match α) :
    (m ++ n).select wanted = m.select wanted ++ n.select wanted := by
  simp [select]

theorem part_append [BEq α] (m n : Match α) (a : α) : (m ++ n).part a = m.part a ++ n.part a :=
  select_append _ m n

end Match

namespace Pattern

theorem fits_append {p q : Pattern α} {m : Match α} :
    Fits (p ++ q) m ↔ ∃ m₁ m₂, m = m₁ ++ m₂ ∧ p.Fits m₁ ∧ q.Fits m₂ := by
  induction p generalizing m with
  | nil =>
    constructor
    · exact fun h => ⟨[], m, rfl, .nil, h⟩
    · rintro ⟨_, m₂, rfl, ⟨⟩, h⟩
      exact h
  | cons e p ih =>
    constructor
    · rintro (_ | ⟨ht, hm⟩)
      obtain ⟨m₁, m₂, rfl, h₁, h₂⟩ := ih.mp hm
      exact ⟨_ :: m₁, m₂, rfl, .cons ht h₁, h₂⟩
    · rintro ⟨_, m₂, rfl, _ | ⟨ht, h₁⟩, h₂⟩
      exact .cons ht (ih.mpr ⟨_, m₂, rfl, h₁, h₂⟩)

/-- A pattern whose pieces all belong to selected parts gives all of its text to the selection. -/
theorem Fits.select_eq_text {p : Pattern α} {m : Match α} (h : p.Fits m) {wanted : α → Bool}
    (hp : ∀ e ∈ p, wanted e.1 = true) : m.select wanted = m.text := by
  induction h with
  | nil => rfl
  | @cons a piece t p m _ _ ih =>
    have ha : wanted a = true := hp (a, piece) (by simp)
    have hm : m.select wanted = m.text := ih fun e he => hp e (by simp [he])
    simp [Match.select_cons, ha, hm]

/-- A pattern whose pieces all belong to other parts gives nothing to the selection. -/
theorem Fits.select_eq_nil {p : Pattern α} {m : Match α} (h : p.Fits m) {wanted : α → Bool}
    (hp : ∀ e ∈ p, wanted e.1 = false) : m.select wanted = [] := by
  induction h with
  | nil => rfl
  | @cons a piece t p m _ _ ih =>
    have ha : wanted a = false := hp (a, piece) (by simp)
    have hm : m.select wanted = [] := ih fun e he => hp e (by simp [he])
    simp [Match.select_cons, ha, hm]

/-- A stretch of one part belongs to the selection as a whole or not at all. -/
theorem Fits.select_ofPart {a : α} {pieces : List Piece} {m : Match α}
    (h : Fits (ofPart a pieces) m) (wanted : α → Bool) :
    m.select wanted = if wanted a then m.text else [] := by
  cases ha : wanted a with
  | true => exact h.select_eq_text (by simp [ofPart, ha])
  | false => exact h.select_eq_nil (by simp [ofPart, ha])

theorem Fits.part_ofPart [BEq α] {a b : α} {pieces : List Piece} {m : Match α}
    (h : Fits (ofPart a pieces) m) : m.part b = if a == b then m.text else [] :=
  h.select_ofPart _

/-- A match of a stretch of one part and of a pattern without this part is the part and the rest. -/
theorem Fits.text_eq_part_append [BEq α] [LawfulBEq α] {a : α} {pieces : List Piece} {q : Pattern α}
    {m : Match α} (h : Fits (ofPart a pieces ++ q) m) (hq : ∀ e ∈ q, e.1 ≠ a) :
    m.text = m.part a ++ m.select (· != a) := by
  obtain ⟨m₁, m₂, rfl, h₁, h₂⟩ := fits_append.mp h
  have hpart : m₂.part a = [] := h₂.select_eq_nil fun e he => by simpa using hq e he
  have hselect : m₂.select (· != a) = m₂.text :=
    h₂.select_eq_text fun e he => by simpa using hq e he
  rw [Match.part_append, Match.select_append, h₁.part_ofPart, h₁.select_ofPart, hpart, hselect]
  simp

theorem Fits.spells_ofPart {a : α} {pieces : List Piece} {m : Match α}
    (h : Fits (ofPart a pieces) m) : Piece.Spells pieces m.text :=
  takes_ofPart.mp h.takes

end Pattern

end CurlLog
