import CurlLog.Proofs.Pattern.Parts
import CurlLog.Proofs.Pattern.Chain
import CurlLog.Proofs.Script.BodyRequest
import CurlLog.Proofs.Script.TestCase

/-!
# Which requests with a body are annotated

The pattern of a request with a body has two gaps that may hold anything, so a match can begin in
one test case and end in another. Which request it ends in can still be said without going back:
`forwardScan` looks for the first mark, then for the first heading, then for the first request
behind the end of a title, and starts again behind the request.

* `find?_pattern` : one match is one round of the scan.
* `nextCall_eq_some_iff` : a round ends in the first request that a header stands before.
* `annotate_eq_forwardScan` : the pass edits what the scan finds.
-/

namespace CurlLog.BodyRequest

open Pattern

/-! ## One round -/

/-- A request, with the end of the title before it. -/
def titledCall : Pattern Part :=
  (.header, .word "\"\n".toList) :: callPattern

/-- What a match took of the request itself. -/
def callOf (m : Match Part) : Match Part :=
  m.filter fun e => e.1 != .header

/-- A match, with the header counted to what stands before it. -/
def atCall (found : Text × Match Part) : Text × Match Part :=
  (found.1 ++ found.2.part .header, callOf found.2)

/--
One round: the first mark, the first heading after it, and the first request behind the end of a
title after that. The answer is what stands before the request, the request and what follows it.
-/
def nextCall (s : Text) : Option (Text × Match Part × Text) :=
  ((ofPart Part.header TestCase.mark).find? s).bind fun (before, mark, s₁) =>
    ((ofPart Part.header TestCase.heading).find? s₁).bind fun (gap, heading, s₂) =>
      (titledCall.find? s₂).map fun (gap', m, rest) =>
        (before ++ mark.text ++ gap ++ heading.text ++ gap' ++ m.part .header, callOf m, rest)

theorem pattern_eq : pattern =
    ofPart .header TestCase.mark ++ (.header, .least fun _ => true) ::
      (ofPart .header TestCase.heading ++ (.header, .least fun _ => true) :: titledCall) := rfl

theorem part_header_append (m n : Match Part) :
    (m ++ n).part .header = m.part .header ++ n.part .header :=
  Match.part_append m n _

theorem part_header_of_fits {pieces : List Piece} {m : Match Part}
    (h : Fits (ofPart .header pieces) m) : m.part .header = m.text :=
  h.part_ofPart

theorem callOf_of_fits {pieces : List Piece} {m : Match Part}
    (h : Fits (ofPart .header pieces) m) : callOf m = [] := by
  induction pieces generalizing m with
  | nil =>
    cases h
    rfl
  | cons piece pieces ih =>
    obtain _ | ⟨_, hm⟩ := h
    have hcall := ih hm
    exact hcall

theorem callOf_append (m n : Match Part) : callOf (m ++ n) = callOf m ++ callOf n :=
  List.filter_append m n

/-- One match of the pattern is one round, with the header counted to what stands before it. -/
theorem find?_pattern (s : Text) :
    (pattern.find? s).map (fun (before, m, rest) =>
      (before ++ m.part .header, callOf m, rest)) = nextCall s := by
  rw [pattern_eq, find?_chain (TestCase.ledBy_mark _) (TestCase.rigid_mark _), nextCall]
  cases hmark : (ofPart Part.header TestCase.mark).find? s with
  | none => rfl
  | some found =>
    obtain ⟨before, mark, s₁⟩ := found
    have hfmark := fits_of_find? hmark
    simp only [Option.bind_some]
    rw [find?_chain (TestCase.ledBy_heading _) (TestCase.rigid_heading _)]
    cases hheading : (ofPart Part.header TestCase.heading).find? s₁ with
    | none => rfl
    | some found =>
      obtain ⟨gap, heading, s₂⟩ := found
      have hfheading := fits_of_find? hheading
      simp only [Option.bind_some]
      cases htitled : titledCall.find? s₂ with
      | none => rfl
      | some found =>
        obtain ⟨gap', m, rest⟩ := found
        have hgap (t : Text) (n : Match Part) :
            Match.part ((Part.header, t) :: n) .header = t ++ n.part .header :=
          Match.select_cons _ _ _
        have hcall (t : Text) (n : Match Part) : callOf ((Part.header, t) :: n) = callOf n := rfl
        simp only [Option.map_some, part_header_append, callOf_append, hgap, hcall,
          part_header_of_fits hfmark, part_header_of_fits hfheading, callOf_of_fits hfmark,
          callOf_of_fits hfheading, List.nil_append, List.append_assoc]

/-- The request itself has no header. -/
theorem ne_header_of_fits {m : Match Part} (h : callPattern.Fits m) : ∀ e ∈ m, e.1 ≠ .header := by
  have hparts : ∀ a ∈ callPattern.map Prod.fst, a ≠ .header := by decide
  intro e he
  exact hparts e.1 (h.map_fst ▸ List.mem_map_of_mem he)

theorem callOf_of_call {m : Match Part} (h : callPattern.Fits m) : callOf m = m :=
  List.filter_eq_self.mpr fun e he => by simpa using ne_header_of_fits h e he

theorem part_header_of_call {m : Match Part} (h : callPattern.Fits m) : m.part .header = [] := by
  have hnone : m.filter (fun e => e.1 == .header) = [] :=
    List.filter_eq_nil_iff.mpr fun e he => by simpa using ne_header_of_fits h e he
  rw [Match.part, Match.select, hnone]
  rfl

theorem part_header_of_titledCall {m : Match Part} (h : titledCall.Fits m) :
    m.part .header = ['"', '\n'] := by
  obtain _ | ⟨ht, hm⟩ := h
  obtain rfl := Piece.fits_word.mp ht
  rw [Match.part, Match.select_cons, ← Match.part, part_header_of_call hm]
  rfl

/-! ## The first request that a header stands before -/

/-- The text ends with a header. -/
def Armed (a : Text) : Prop :=
  ∃ x h, a = x ++ h ∧ Piece.Spells (TestCase.header fun _ => true) h

theorem Armed.ne_nil {a : Text} (h : Armed a) : a ≠ [] := by
  obtain ⟨x, _, rfl, h⟩ := h
  obtain ⟨i, j, y, z, rfl, _⟩ := TestCase.spells_header.mp h
  simp

theorem Armed.append {a : Text} (h : Armed a) (x : Text) : Armed (x ++ a) := by
  obtain ⟨y, t, rfl, ht⟩ := h
  exact ⟨x ++ y, t, by simp, ht⟩

theorem nextCall_eq_none_iff {s : Text} :
    nextCall s = none ↔ ∀ p q, s = p ++ q → Armed p → callPattern.match? q = none := by
  rw [← find?_pattern, Option.map_eq_none_iff, find?_eq_none_iff_takes]
  constructor
  · rintro h p q rfl ⟨x, t, rfl, ht⟩
    refine match?_eq_none_iff_takes.mpr fun u rest hq hu => ?_
    refine h x (t ++ u) rest (by simp [hq]) ?_
    exact takes_append.mpr ⟨t, u, rfl, takes_ofPart.mpr ht, hu⟩
  · intro h before t rest hs ht
    obtain ⟨u, v, rfl, hu, hv⟩ := takes_append.mp ht
    have hq := h (before ++ u) (v ++ rest) (by simp [hs]) ⟨before, u, rfl, takes_ofPart.mp hu⟩
    exact match?_eq_none_iff_takes.mp hq v rest rfl hv

/-- A match of a header and a request: what stands before the request, the request and the rest. -/
theorem find?_header_sound {pieces : List Piece} {s before rest : Text} {m : Match Part}
    (h : (ofPart Part.header pieces ++ callPattern).find? s = some (before, m, rest)) :
    Piece.Spells pieces (m.part .header) ∧
      s = (before ++ m.part .header) ++ ((callOf m).text ++ rest) ∧
        callPattern.match? ((callOf m).text ++ rest) = some (callOf m, rest) := by
  obtain ⟨hmatch, hs⟩ := find?_sound h
  obtain ⟨m₁, s₁, m₂, hm₁, htext, hm₂, rfl⟩ := match?_append_sound hmatch
  have hcall : callPattern.Fits m₂ := fits_of_match? hm₂
  simp only [part_header_append, callOf_append, part_header_of_fits hm₁, callOf_of_fits hm₁,
    part_header_of_call hcall, callOf_of_call hcall, List.append_nil, List.nil_append]
  obtain rfl := text_of_match? hm₂
  exact ⟨hm₁.spells_ofPart, by simp [hs], hm₂⟩

theorem nextCall_sound {s a rest : Text} {m : Match Part} (h : nextCall s = some (a, m, rest)) :
    s = a ++ (m.text ++ rest) ∧ Armed a ∧
      callPattern.match? (m.text ++ rest) = some (m, rest) := by
  rw [← find?_pattern, Option.map_eq_some_iff] at h
  obtain ⟨⟨before, m', rest'⟩, hfind, heq⟩ := h
  obtain ⟨hheader, hs, hmatch⟩ := find?_header_sound hfind
  simp only [Prod.mk.injEq] at heq
  obtain ⟨rfl, rfl, rfl⟩ := heq
  exact ⟨hs, ⟨before, _, rfl, hheader⟩, hmatch⟩

/-- The round ends in the first request that matches behind a header. -/
theorem nextCall_first {s a rest : Text} {m : Match Part} (h : nextCall s = some (a, m, rest))
    {p q : Text} (hs : s = p ++ q) (hp : Armed p) (hq : callPattern.match? q ≠ none) :
    a.length ≤ p.length := by
  simp only [nextCall, Option.bind_eq_some_iff, Option.map_eq_some_iff, Prod.exists,
    Prod.mk.injEq] at h
  obtain ⟨before, mark, s₁, hmark, gap, heading, s₂, hheading, gap', m', rest', hcall, rfl, rfl,
    rfl⟩ := h
  obtain ⟨x, t, rfl, ht⟩ := hp
  obtain ⟨i, j, y, z, rfl, _⟩ := TestCase.spells_header.mp ht
  obtain ⟨u, v, rfl, hu⟩ := match?_ne_none_iff_takes.mp hq
  -- what follows the mark, the heading and the title of the other header
  have hs₁ : s = x ++ (i.mark ++ (y ++ '\n' :: (j.title ++ (z ++ '"' :: '\n' :: (u ++ v))))) := by
    simp [hs]
  obtain ⟨w₁, hw₁⟩ := (TestCase.ledBy_mark _).find?_suffix (TestCase.rigid_mark _) hmark
    (takes_ofPart.mpr (TestCase.spells_mark.mpr ⟨i, rfl⟩)) hs₁
  have hs₂ : s₁ = (w₁ ++ y) ++ (('\n' :: j.title) ++ (z ++ '"' :: '\n' :: (u ++ v))) := by
    simp [hw₁]
  obtain ⟨w₂, hw₂⟩ := (TestCase.ledBy_heading _).find?_suffix (TestCase.rigid_heading _) hheading
    (takes_ofPart.mpr (TestCase.spells_heading.mpr ⟨j, rfl⟩)) hs₂
  have htitled : titledCall.Takes ('"' :: '\n' :: u) :=
    Piece.spells_word_cons.mpr ⟨u, rfl, hu⟩
  have hlen := find?_length_le hcall htitled (b := w₂ ++ z) (r := v) (by simp [hw₂])
  have hheader := congrArg List.length (part_header_of_titledCall (fits_of_find? hcall))
  have hmark := congrArg List.length (text_of_find? hmark)
  have hheading := congrArg List.length (text_of_find? hheading)
  have hw₂ := congrArg List.length hw₂
  have hs₁ := congrArg List.length hs₁
  simp only [List.length_append, List.length_cons, List.length_nil] at *
  omega

/-- The first request of the text that stands behind a header of some kind. -/
structure FirstCall (H : Text → Prop) (s a : Text) (m : Match Part) (rest : Text) : Prop where
  text_eq : s = a ++ (m.text ++ rest)
  header : H a
  call : callPattern.match? (m.text ++ rest) = some (m, rest)
  first : ∀ p q, s = p ++ q → H p → callPattern.match? q ≠ none → a.length ≤ p.length

theorem FirstCall.unique {H : Text → Prop} {s a a' rest rest' : Text} {m m' : Match Part}
    (h : FirstCall H s a m rest) (h' : FirstCall H s a' m' rest') :
    a = a' ∧ m = m' ∧ rest = rest' := by
  have hle := h.first _ _ h'.text_eq h'.header (by simp [h'.call])
  have hge := h'.first _ _ h.text_eq h.header (by simp [h.call])
  obtain ⟨rfl, htail⟩ := List.append_inj (h.text_eq.symm.trans h'.text_eq) (by omega)
  have hcall := h.call
  rw [htail, h'.call, Option.some.injEq, Prod.mk.injEq] at hcall
  exact ⟨rfl, hcall.1.symm, hcall.2.symm⟩

theorem nextCall_eq_some_iff {s a rest : Text} {m : Match Part} :
    nextCall s = some (a, m, rest) ↔
      s = a ++ (m.text ++ rest) ∧ Armed a ∧
        callPattern.match? (m.text ++ rest) = some (m, rest) ∧
          ∀ p q, s = p ++ q → Armed p → callPattern.match? q ≠ none → a.length ≤ p.length := by
  constructor
  · intro h
    obtain ⟨hs, ha, hm⟩ := nextCall_sound h
    exact ⟨hs, ha, hm, fun p q => nextCall_first h⟩
  · rintro ⟨hs, ha, hm, hfirst⟩
    cases h : nextCall s with
    | none =>
      have hnone := nextCall_eq_none_iff.mp h a (m.text ++ rest) hs ha
      simp [hm] at hnone
    | some found =>
      obtain ⟨a', m', rest'⟩ := found
      obtain ⟨hs', ha', hm'⟩ := nextCall_sound h
      have hfound : FirstCall Armed s a' m' rest' := ⟨hs', ha', hm', fun p q => nextCall_first h⟩
      obtain ⟨rfl, rfl, rfl⟩ := hfound.unique ⟨hs, ha, hm, hfirst⟩
      rfl

/-! ## All rounds -/

theorem length_lt_of_nextCall {s a rest : Text} {m : Match Part}
    (h : nextCall s = some (a, m, rest)) : rest.length < s.length := by
  obtain ⟨rfl, ha, _⟩ := nextCall_sound h
  have := List.length_pos_iff.mpr ha.ne_nil
  simp only [List.length_append]
  omega

/-- The requests that are found in one round after the other. -/
def forwardScan (s : Text) : Cut Part :=
  match h : nextCall s with
  | none => ⟨[], s⟩
  | some (before, m, rest) =>
    have := length_lt_of_nextCall h
    let c := forwardScan rest
    ⟨(before, m) :: c.found, c.rest⟩
termination_by s.length

theorem forwardScan_of_eq_none {s : Text} (h : nextCall s = none) : forwardScan s = ⟨[], s⟩ := by
  rw [forwardScan]
  split <;> simp_all

theorem forwardScan_of_eq_some {s before rest : Text} {m : Match Part}
    (h : nextCall s = some (before, m, rest)) :
    forwardScan s = ⟨(before, m) :: (forwardScan rest).found, (forwardScan rest).rest⟩ := by
  rw [forwardScan]
  split <;> simp_all

theorem not_takes_nil : ¬ pattern.Takes [] := by
  intro h
  obtain ⟨u, v, huv, hu, _⟩ := takes_append.mp h
  obtain ⟨rfl, _⟩ := List.append_eq_nil_iff.mp huv.symm
  exact Armed.ne_nil ⟨[], [], rfl, takes_ofPart.mp hu⟩ rfl

/-- The matches of the pattern are the rounds of the scan. -/
theorem cut_eq_forwardScan (s : Text) :
    (pattern.cut s).found.map atCall = (forwardScan s).found ∧
      (pattern.cut s).rest = (forwardScan s).rest := by
  fun_induction cut pattern s with
  | case1 s h =>
    rw [forwardScan_of_eq_none (by rw [← find?_pattern, h]; rfl)]
    exact ⟨rfl, rfl⟩
  | case2 s before m rest h hm => exact absurd hm (text_ne_nil_of_find? not_takes_nil h)
  | case3 s before m rest h hm c ih =>
    rw [forwardScan_of_eq_some (by rw [← find?_pattern, h]; rfl)]
    exact ⟨by rw [List.map_cons, ih.1]; rfl, ih.2⟩

/-- Each request that is found is the widest reading at its place. -/
theorem exists_call_of_mem_forwardScan {s : Text} {m : Match Part}
    (h : m ∈ (forwardScan s).taken) :
    ∃ (c : Call) (rest : Text), m = c.toMatch ∧ c.Widest rest := by
  fun_induction forwardScan s with
  | case1 s hs => simp [Cut.taken] at h
  | case2 s before m' rest hs _ c ih =>
    rcases List.mem_cons.mp h with rfl | h
    · obtain ⟨_, _, hm⟩ := nextCall_sound hs
      obtain ⟨call, rfl, _, hwidest⟩ := match?_call_sound hm
      exact ⟨call, rest, rfl, hwidest⟩
    · exact ih h

/-! ## What the pass makes of them -/

/-- What takes the place of a request: the two new lines and the request that reads the variable. -/
def rewritten (names : Names) (r : BodyRequest) : Text :=
  r.assignment names ++ r.logLine names ++ r.callWithVariable names

/-- A part other than the header can be read off the request alone. -/
theorem select_callOf {wanted : Part → Bool} (h : wanted .header = false) (m : Match Part) :
    (callOf m).select wanted = m.select wanted := by
  rw [Match.select, Match.select, callOf, List.filter_filter]
  congr 1
  refine List.filter_congr fun e _ => ?_
  cases he : e.1 <;> simp [h]

theorem ofMatch_eq (m : Match Part) :
    ofMatch m = { ofMatch (callOf m) with header := m.part .header } := by
  have hcall : (callOf m).select (· != .header) = m.select (· != .header) :=
    select_callOf (by rfl) m
  have hmethod : (callOf m).part .method = m.part .method := select_callOf (by rfl) m
  have hurl : (callOf m).part .url = m.part .url := select_callOf (by rfl) m
  have hbody : (callOf m).part .body = m.part .body := select_callOf (by rfl) m
  simp only [ofMatch, hcall, hmethod, hurl, hbody]

theorem annotated_ofMatch (names : Names) (m : Match Part) :
    (ofMatch m).annotated names =
      m.part .header ++ (ofMatch (callOf m)).rewritten names := by
  rw [ofMatch_eq]
  simp [annotated, rewritten, assignment, logLine, callWithVariable]

theorem annotate_eq_replace (names : Names) (s : Text) :
    annotate names s =
      ⟨(forwardScan s).replace fun m => (ofMatch m).rewritten names, (forwardScan s).count⟩ := by
  obtain ⟨hfound, hrest⟩ := cut_eq_forwardScan s
  ext1
  · rw [annotate, text_edit, Cut.replace, Cut.replace, ← hfound, ← hrest, List.flatMap_map]
    simp [atCall, annotated_ofMatch]
  · rw [annotate, count_edit, Cut.count, Cut.count, ← hfound, List.length_map]

/-- Each match of the pattern is a header and the widest reading of a request. -/
theorem exists_call_of_mem_cut {s : Text} {m : Match Part} (h : m ∈ (pattern.cut s).taken) :
    ∃ (c : Call) (rest : Text),
      ofMatch m = c.request (m.part .header) ∧ c.Widest rest := by
  have hmem : callOf m ∈ (forwardScan s).taken := by
    obtain ⟨e, he, rfl⟩ := List.mem_map.mp h
    rw [Cut.taken, ← (cut_eq_forwardScan s).1, List.map_map]
    exact List.mem_map.mpr ⟨e, he, rfl⟩
  obtain ⟨c, rest, hc, hwidest⟩ := exists_call_of_mem_forwardScan hmem
  refine ⟨c, rest, ?_, hwidest⟩
  rw [ofMatch_eq, hc, c.ofMatch_toMatch]
  rfl

/--
The requests that the pass edits are those of the scan, each with all that stands before it, and
the pass puts the new lines and the request that reads the variable in the place of each.
-/
theorem annotate_eq_forwardScan (names : Names) (s : Text) :
    ((pattern.cut s).found.map atCall = (forwardScan s).found ∧
      (pattern.cut s).rest = (forwardScan s).rest) ∧
    (annotate names s).text =
      (forwardScan s).replace (fun m => (ofMatch m).assignment names ++
        (ofMatch m).logLine names ++ (ofMatch m).callWithVariable names) ∧
    (annotate names s).count = (forwardScan s).count := by
  rw [annotate_eq_replace]
  exact ⟨cut_eq_forwardScan s, rfl, rfl⟩

end CurlLog.BodyRequest
