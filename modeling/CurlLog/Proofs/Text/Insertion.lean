import CurlLog.Text.Basic

/-!
# Texts with insertions

An insertion puts a text before the character at a place of another text. Insertions are made all
at once: each place is counted in the text as it was. So the insertions of two texts in a row are
made side by side (`insertAll_append`), and insertions that are found place by place
(`insertionsIn`) are found in the two texts one after the other (`insertionsIn_append`).
-/

namespace CurlLog

/-- A text that is put before the character at a place of another text. -/
structure Insertion where
  place : Nat
  text : Text
deriving DecidableEq, Repr

namespace Insertion

/-- The same insertion, further back. -/
def shift (n : Nat) (e : Insertion) : Insertion :=
  ⟨e.place + n, e.text⟩

/-- All that is inserted at one place. -/
def textAt (es : List Insertion) (n : Nat) : Text :=
  (es.filter (·.place == n)).flatMap (·.text)

theorem textAt_append (es fs : List Insertion) (n : Nat) :
    textAt (es ++ fs) n = textAt es n ++ textAt fs n := by
  simp [textAt]

theorem textAt_eq_nil {es : List Insertion} {n : Nat} (h : ∀ e ∈ es, e.place ≠ n) :
    textAt es n = [] := by
  have hnone : es.filter (·.place == n) = [] := by simpa using h
  rw [textAt, hnone, List.flatMap_nil]

theorem textAt_shift (es : List Insertion) (k n : Nat) :
    textAt (es.map (shift k)) (n + k) = textAt es n := by
  have hplace (e : Insertion) : ((shift k e).place == n + k) = (e.place == n) := by
    rw [Bool.eq_iff_iff, beq_iff_eq, beq_iff_eq]
    exact Nat.add_right_cancel_iff
  rw [textAt, List.filter_map, List.flatMap_map]
  simp only [Function.comp_def, hplace]
  rfl

end Insertion

namespace Text

open Insertion

/-- The text with another one before each of its characters. -/
def insertAt (f : Nat → Text) : Text → Text
  | [] => []
  | c :: s => f 0 ++ c :: insertAt (fun n => f (n + 1)) s

theorem insertAt_append (f : Nat → Text) (a b : Text) :
    insertAt f (a ++ b) = insertAt f a ++ insertAt (fun n => f (n + a.length)) b := by
  induction a generalizing f with
  | nil => rfl
  | cons c a ih => simp [insertAt, ih, Nat.add_assoc]

theorem insertAt_congr {f g : Nat → Text} {s : Text} (h : ∀ n < s.length, f n = g n) :
    insertAt f s = insertAt g s := by
  induction s generalizing f g with
  | nil => rfl
  | cons c s ih =>
    have hback (n : Nat) (hn : n < s.length) : f (n + 1) = g (n + 1) :=
      h (n + 1) (Nat.succ_lt_succ hn)
    rw [insertAt, insertAt, h 0 (Nat.zero_lt_succ _), ih hback]

/-- The text with each of the insertions at its place. -/
def insertAll (es : List Insertion) (s : Text) : Text :=
  insertAt (textAt es) s

@[simp] theorem insertAll_nil (s : Text) : insertAll [] s = s := by
  have hnil (s : Text) : insertAt (fun _ => []) s = s := by
    induction s with
    | nil => rfl
    | cons c s ih => rw [insertAt, ih, List.nil_append]
  exact hnil s

/-- Insertions into two texts in a row are made side by side. -/
theorem insertAll_append {es : List Insertion} (fs : List Insertion) {a : Text} (b : Text)
    (h : ∀ e ∈ es, e.place < a.length) :
    insertAll (es ++ fs.map (shift a.length)) (a ++ b) = insertAll es a ++ insertAll fs b := by
  have hfront (n : Nat) (hn : n < a.length) :
      textAt (es ++ fs.map (shift a.length)) n = textAt es n := by
    have hshifted : textAt (fs.map (shift a.length)) n = [] := by
      refine textAt_eq_nil fun e he => ?_
      obtain ⟨e, _, rfl⟩ := List.mem_map.mp he
      show e.place + a.length ≠ n
      omega
    rw [textAt_append, hshifted, List.append_nil]
  have hback (n : Nat) : textAt (es ++ fs.map (shift a.length)) (n + a.length) = textAt fs n := by
    rw [textAt_append, textAt_shift, textAt_eq_nil, List.nil_append]
    intro e he
    have := h e he
    omega
  rw [insertAll, insertAt_append, insertAt_congr hfront]
  simp only [hback]
  rfl

/-- An insertion at the front. -/
theorem insertAll_front (new : Text) {s : Text} (hs : s ≠ []) :
    insertAll [⟨0, new⟩] s = new ++ s := by
  obtain ⟨c, s, rfl⟩ := List.exists_cons_of_ne_nil hs
  have hback (n : Nat) : textAt [⟨0, new⟩] (n + 1) = textAt [] n := by
    rw [textAt_eq_nil (by simp)]
    rfl
  have hrest : insertAt (fun n => textAt [⟨0, new⟩] (n + 1)) s = s := by
    simp only [hback]
    exact insertAll_nil s
  rw [insertAll, insertAt, hrest]
  simp [textAt]

/-- What stands behind all insertions stays as it is. -/
theorem insertAll_inside {es : List Insertion} {a : Text} (b : Text)
    (h : ∀ e ∈ es, e.place < a.length) : insertAll es (a ++ b) = insertAll es a ++ b := by
  have hsplit := insertAll_append [] b h
  rwa [List.map_nil, List.append_nil, insertAll_nil] at hsplit

/-- The last insertion is made where the first text ends. -/
theorem insertAll_last (es : List Insertion) (new : Text) {a b : Text} (hb : b ≠ [])
    (h : ∀ e ∈ es, e.place < a.length) :
    insertAll (es ++ [⟨a.length, new⟩]) (a ++ b) = insertAll es a ++ (new ++ b) := by
  have hsplit := insertAll_append [⟨0, new⟩] b h
  rwa [insertAll_front new hb, List.map_singleton, shift, Nat.zero_add] at hsplit

/-! ## Insertions that are found place by place -/

/-- The insertions that `edits` gives at each place for what stands from there on. -/
def insertionsIn (edits : Text → List Insertion) : Text → List Insertion
  | [] => []
  | c :: s => edits (c :: s) ++ (insertionsIn edits s).map (shift 1)

variable {edits : Text → List Insertion}

/-- If all of them are inside what stands at the place, all of them are inside the text. -/
theorem place_lt_of_mem_insertionsIn (h : ∀ s, ∀ e ∈ edits s, e.place < s.length) {s : Text}
    {e : Insertion} (he : e ∈ insertionsIn edits s) : e.place < s.length := by
  induction s generalizing e with
  | nil => simp [insertionsIn] at he
  | cons c s ih =>
    rw [insertionsIn, List.mem_append, List.mem_map] at he
    rcases he with he | ⟨e, he, rfl⟩
    · exact h (c :: s) e he
    · exact Nat.succ_lt_succ (ih he)

/-- If nothing at a place of the first text depends on the second, they are found one by one. -/
theorem insertionsIn_append {a b : Text}
    (h : ∀ x u, a = x ++ u → u ≠ [] → edits (u ++ b) = edits u) :
    insertionsIn edits (a ++ b) =
      insertionsIn edits a ++ (insertionsIn edits b).map (shift a.length) := by
  induction a with
  | nil =>
    have hzero : shift 0 = id := rfl
    simp [insertionsIn, hzero]
  | cons c a ih =>
    have hfront : edits (c :: a ++ b) = edits (c :: a) := h [] (c :: a) rfl (List.cons_ne_nil c a)
    have hrest := ih fun x u hu => h (c :: x) u (by simp [hu])
    rw [List.cons_append] at hfront ⊢
    rw [insertionsIn, insertionsIn, hfront, hrest]
    simp [shift, Function.comp_def, Nat.add_assoc]

/-- The text with all insertions that are found in it. -/
theorem insertAll_insertionsIn_append (hplace : ∀ s, ∀ e ∈ edits s, e.place < s.length) {a b : Text}
    (h : ∀ x u, a = x ++ u → u ≠ [] → edits (u ++ b) = edits u) :
    insertAll (insertionsIn edits (a ++ b)) (a ++ b) =
      insertAll (insertionsIn edits a) a ++ insertAll (insertionsIn edits b) b := by
  rw [insertionsIn_append h, insertAll_append _ _ fun e => place_lt_of_mem_insertionsIn hplace]

/-- Without insertions behind the first place, those at the first place are all. -/
theorem insertionsIn_of_tail {c : Char} {s : Text} (h : ∀ x r, s = x ++ r → edits r = []) :
    insertionsIn edits (c :: s) = edits (c :: s) := by
  have hnone : insertionsIn edits s = [] := by
    clear c
    induction s with
    | nil => rfl
    | cons d s ih =>
      rw [insertionsIn, h [] (d :: s) rfl, ih fun x r hr => h (d :: x) r (by simp [hr])]
      rfl
  rw [insertionsIn, hnone, List.map_nil, List.append_nil]

end Text

end CurlLog
