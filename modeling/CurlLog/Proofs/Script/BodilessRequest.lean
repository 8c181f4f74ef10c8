import CurlLog.Proofs.Pattern.Seam
import CurlLog.Proofs.Script.CurlCall
import CurlLog.Proofs.Script.TestCase
import CurlLog.Proofs.Text.Lines
import CurlLog.Script.BodilessRequest

/-!
# Requests without a body as data

A request without a body is given by its method, which may be left out, and its address (`Call`).
A request is read with the whole of its address (`match?_call_sound`), so at a place of a text at
most one is (`Call.text_append_inj`).

What the pass edits are three lines: a line with a mark, a title, and a request at the start of a
line (`takes_pattern`). So a text can be taken apart in front of any line that is neither a title
nor a request (`seam_wholeLines`), and the pass can be followed line by line (`annotate_request`,
`annotate_line`).
-/

namespace CurlLog.BodilessRequest

open Pattern TestCase

/-- The method and the address. -/
structure Call where
  /-- The option for the method, if it is given. -/
  option : Text
  url : CurlCall.Url ')'
  option_mem : option ∈ ["-X GET ".toList, []]

namespace Call

/-- The request as far as the end of the address. -/
def text (c : Call) : Text :=
  CurlCall.opening ++ (c.option ++ c.url.text)

/-- The request as the pattern takes it. -/
def toMatch (c : Call) : Match Part :=
  [(.call, CurlCall.opening), (.call, c.option), (.url, CurlCall.urlOpening),
    (.url, c.url.service), (.url, "/".toList), (.url, c.url.path)]

theorem text_toMatch (c : Call) : c.toMatch.text = c.text := by
  simp only [toMatch, text, CurlCall.Url.text, Match.text_cons, Match.text_nil, List.append_nil]
  rfl

theorem ofMatch_toMatch (c : Call) : ofMatch c.toMatch = ⟨[], c.text, c.url.text⟩ := by
  have hcall : c.toMatch.select (· != .header) = c.text := by
    rw [← c.text_toMatch]
    rfl
  have hurl : c.toMatch.part .url = c.url.text := c.url.text_eq_parts.symm
  simp only [ofMatch, hcall, hurl]
  rfl

theorem fits_toMatch (c : Call) : callPattern.Fits c.toMatch := by
  have word (w : Text) : (Piece.word w).Fits w := Piece.fits_word.mpr rfl
  exact .cons (word _) (.cons c.option_mem (.cons (word _)
    (.cons ⟨c.url.service_ne_nil, c.url.isUpper_of_mem⟩ (.cons (word _)
      (.cons ⟨c.url.path_ne_nil, c.url.inPath_of_mem⟩ .nil)))))

theorem text_cons (c : Call) : ∃ t, c.text = 'R' :: t :=
  ⟨_, rfl⟩

theorem newline_notMem_text (c : Call) : '\n' ∉ c.text := by
  have hoption : '\n' ∉ c.option := by
    have : ∀ w ∈ ["-X GET ".toList, []], '\n' ∉ w := by decide
    exact this _ c.option_mem
  simp only [text, List.mem_append, not_or]
  exact ⟨CurlCall.newline_notMem_opening, hoption, c.url.notMem_of_isBlank (by decide)⟩

end Call

theorem fits_callPattern {m : Match Part} : callPattern.Fits m ↔ ∃ c : Call, m = c.toMatch := by
  constructor
  · intro h
    obtain _ | ⟨h₁, _ | ⟨hoption, _ | ⟨h₂, _ | ⟨hservice, _ | ⟨h₃, _ | ⟨hpath, ⟨⟩⟩⟩⟩⟩⟩⟩ := h
    obtain rfl := Piece.fits_word.mp h₁
    obtain rfl := Piece.fits_word.mp h₂
    obtain rfl := Piece.fits_word.mp h₃
    exact ⟨⟨_, ⟨_, _, hservice.1, hpath.1, hservice.2, hpath.2⟩, hoption⟩, rfl⟩
  · rintro ⟨c, rfl⟩
    exact c.fits_toMatch

theorem takes_callPattern {t : Text} : callPattern.Takes t ↔ ∃ c : Call, t = c.text := by
  rw [takes_iff]
  constructor
  · rintro ⟨m, hm, rfl⟩
    obtain ⟨c, rfl⟩ := fits_callPattern.mp hm
    exact ⟨c, c.text_toMatch⟩
  · rintro ⟨c, rfl⟩
    exact ⟨c.toMatch, c.fits_toMatch, c.text_toMatch⟩

/-- The pass edits a line that begins with a mark, a title and a request. -/
theorem takes_pattern {t : Text} : pattern.Takes t ↔ ∃ (l k : Text) (c : Call),
    t = l ++ '\n' :: (k ++ '\n' :: c.text) ∧ ('\n' ∉ l ∧ BeginsMarked l) ∧ '\n' ∉ k ∧ Titled k := by
  rw [pattern, takes_append]
  simp only [takes_ofPart, spells_header_line, takes_callPattern]
  constructor
  · rintro ⟨_, _, rfl, ⟨l, k, rfl, hl, hk⟩, c, rfl⟩
    exact ⟨l, k, c, by simp, hl, hk⟩
  · rintro ⟨l, k, c, rfl, hl, hk⟩
    exact ⟨_, _, by simp, ⟨l, k, rfl, hl, hk⟩, c, rfl⟩

theorem not_takes_nil : ¬ pattern.Takes [] := by
  intro h
  obtain ⟨l, k, c, h, _⟩ := takes_pattern.mp h
  simp at h

/-- Everything that the pass edits begins with a mark. -/
theorem beginsWith_markOpening : pattern.BeginsWith markOpening := by
  intro t ht
  obtain ⟨_, k, c, rfl, ⟨_, i, y, rfl⟩, _⟩ := takes_pattern.mp ht
  obtain ⟨u, hu⟩ := i.mark_eq_opening
  exact ⟨u ++ y ++ '\n' :: (k ++ '\n' :: c.text), by rw [hu]; simp⟩

/-! ## Which request is read -/

/-- A character that an address can have after its slash. -/
def inPath (c : Char) : Bool :=
  !isBlank c && c != ')'

/-- The request that is read is one whose address goes on as far as it can. -/
theorem match?_call_sound {q rest : Text} {m : Match Part}
    (h : callPattern.match? q = some (m, rest)) :
    ∃ c : Call, m = c.toMatch ∧ q = c.text ++ rest ∧ ∀ x ∈ rest.head?, inPath x = false := by
  obtain ⟨hfits, hq⟩ := match?_sound h
  obtain ⟨c, rfl⟩ := fits_callPattern.mp hfits
  refine ⟨c, rfl, by rw [hq, c.text_toMatch], fun x hx => ?_⟩
  have hpattern : callPattern =
      (ofPart .call [.word CurlCall.opening, .oneOf ["-X GET ".toList, []]]
        ++ ofPart .url [.word CurlCall.urlOpening, .most Char.isUpper, .word "/".toList])
          ++ [(.url, .most inPath)] := rfl
  rw [hpattern] at h
  obtain ⟨m₁, s₁, m₂, hm₁, _, hm₂, hm⟩ := match?_append_sound h
  simp only [match?, Option.map_eq_some_iff, Prod.exists, Prod.mk.injEq] at hm₂
  obtain ⟨path, m₃, _, hpath, rfl, rfl⟩ := hm₂
  obtain ⟨s₂, rfl, ⟨_, hclass⟩, hnext⟩ := Piece.take_sound hpath
  simp only [Option.some.injEq, Prod.mk.injEq] at hnext
  obtain ⟨rfl, rfl⟩ := hnext
  cases hin : inPath x with
  | false => rfl
  | true =>
    -- a path that is longer by `x` would have been taken
    obtain ⟨r, rfl⟩ := List.head?_eq_some_iff.mp hx
    have hnone := Piece.takeMost_longest hpath (show path ++ x :: r = (path ++ [x]) ++ r by simp)
      (fun d hd => ?_) (by simp)
    · simp at hnone
    · rcases List.mem_append.mp hd with hd | hd
      · exact hclass d hd
      · exact List.mem_singleton.mp hd ▸ hin

/-- At a place of a text at most one request has the whole of its address. -/
theorem Call.text_append_inj {c c' : Call} {r r' : Text} (h : c.text ++ r = c'.text ++ r')
    (hr : ∀ x ∈ r.head?, inPath x = false) (hr' : ∀ x ∈ r'.head?, inPath x = false) :
    c = c' ∧ r = r' := by
  simp only [Call.text, List.append_assoc, List.append_cancel_left_eq] at h
  obtain ⟨option, ⟨service, path, _, _, hservice, hpath⟩, hmem⟩ := c
  obtain ⟨option', ⟨service', path', _, _, hservice', hpath'⟩, hmem'⟩ := c'
  have hoption : option = option' := by
    simp only [List.mem_cons, List.not_mem_nil, or_false] at hmem hmem'
    rcases hmem with rfl | rfl <;> rcases hmem' with rfl | rfl
    · rfl
    · exact absurd (List.head_eq_of_cons_eq h) (by decide)
    · exact absurd (List.head_eq_of_cons_eq h) (by decide)
    · rfl
  obtain rfl := hoption
  simp only [CurlCall.Url.text, List.append_assoc, List.cons_append,
    List.append_cancel_left_eq] at h
  obtain ⟨hs, h⟩ := run_unique h hservice hservice' (by decide) (by decide)
  obtain ⟨hp, hr⟩ := run_unique_of_head? (List.tail_eq_of_cons_eq h) hpath hpath' hr hr'
  obtain rfl := hs
  obtain rfl := hp
  exact ⟨rfl, hr⟩

/-! ## Where a text can be taken apart -/

/-- A title with a request under it is at the front of the text. -/
def OpensCase (b : Text) : Prop :=
  ∃ (k : Text) (c : Call) (r : Text), b = k ++ '\n' :: (c.text ++ r) ∧ '\n' ∉ k ∧ Titled k

/-- A request is at the front of the text. -/
def OpensCall (b : Text) : Prop :=
  ∃ (c : Call) (r : Text), b = c.text ++ r

theorem match?_call_ne_none_iff {q : Text} : callPattern.match? q ≠ none ↔ OpensCall q := by
  rw [match?_ne_none_iff_takes]
  simp only [takes_callPattern]
  constructor
  · rintro ⟨_, r, rfl, c, rfl⟩
    exact ⟨c, r, rfl⟩
  · rintro ⟨c, r, rfl⟩
    exact ⟨_, r, rfl, c, rfl⟩

/-- The request that is read at the front of a text, with the whole of its address. -/
theorem OpensCall.exists_call {b : Text} (h : OpensCall b) :
    ∃ (c : Call) (r : Text), b = c.text ++ r ∧ ∀ x ∈ r.head?, inPath x = false := by
  obtain ⟨⟨m, r⟩, hm⟩ := Option.ne_none_iff_exists'.mp (match?_call_ne_none_iff.mpr h)
  obtain ⟨c, _, heq, hr⟩ := match?_call_sound hm
  exact ⟨c, r, heq, hr⟩

/-- The request that is read under a title, with the whole of its address. -/
theorem OpensCase.exists_call {b : Text} (h : OpensCase b) : ∃ (k : Text) (c : Call) (r : Text),
    b = k ++ '\n' :: (c.text ++ r) ∧ '\n' ∉ k ∧ Titled k ∧ ∀ x ∈ r.head?, inPath x = false := by
  obtain ⟨k, c, r, rfl, hk, htitle⟩ := h
  obtain ⟨c', r', heq, hr'⟩ := OpensCall.exists_call ⟨c, r, rfl⟩
  exact ⟨k, c', r', by rw [heq], hk, htitle, hr'⟩

/-- What the pass edits crosses the end of its first line only before a title with a request. -/
theorem seam_line {l b : Text} (hl : '\n' ∉ l) (h : Marked l → ¬ OpensCase b) :
    pattern.Seam (l ++ ['\n']) b := by
  intro x u v y hx hb hu _ ht
  obtain ⟨l', k, c, heq, ⟨hl', hmark⟩, hk, htitle⟩ := takes_pattern.mp ht
  obtain ⟨u, rfl⟩ := (hx ▸ Text.wholeLines_append_newline l).of_append.resolve_left hu
  obtain rfl : l = x ++ u := by
    rw [← List.append_assoc] at hx
    exact List.append_cancel_right hx
  rw [List.append_assoc] at heq
  rcases Text.first_cases hl' heq with ⟨rfl, rfl⟩ | ⟨w, rfl, _⟩
  · exact h ⟨x, u, rfl, hmark⟩ ⟨k, c, y, by simp [hb], hk, htitle⟩
  · simp at hl

/-- Neither a title with a request nor a request follows. -/
theorem seam_wholeLines {a b : Text} (ha : Text.WholeLines a) (hcase : ¬ OpensCase b)
    (hcall : ¬ OpensCall b) : pattern.Seam a b := by
  intro x u v y hx hb hu _ ht
  obtain ⟨l, k, c, heq, ⟨hl, _⟩, hk, htitle⟩ := takes_pattern.mp ht
  obtain ⟨u, rfl⟩ := (hx ▸ ha).of_append.resolve_left hu
  rw [List.append_assoc] at heq
  -- the place is behind the line with the mark or behind the title
  rcases Text.first_cases hl heq with ⟨rfl, rfl⟩ | ⟨w, rfl, htail⟩
  · exact hcase ⟨k, c, y, by simp [hb], hk, htitle⟩
  · rcases Text.first_cases hk htail.symm with ⟨rfl, rfl⟩ | ⟨w', rfl, hcall'⟩
    · exact hcall ⟨c, y, hb⟩
    · exact c.newline_notMem_text (by simp [hcall'])

/-- Titles and requests begin with a letter. -/
theorem not_opens_of_ne {d : Char} {z : Text} (he : d ≠ 'e') (hr : d ≠ 'R') :
    ¬ OpensCase (d :: z) ∧ ¬ OpensCall (d :: z) := by
  constructor
  · rintro ⟨_, c, r, h, _, i, y, rfl⟩
    exact he (List.head_eq_of_cons_eq h)
  · rintro ⟨c, r, h⟩
    exact hr (List.head_eq_of_cons_eq h)

/-- A mark begins with a number sign, so nothing begins where there is none. -/
theorem seam_of_notMem {a b : Text} (h : '#' ∉ a) : pattern.Seam a b := by
  intro x u v y hx _ hu _ ht
  obtain ⟨l, k, c, heq, ⟨_, i, z, rfl⟩, _⟩ := takes_pattern.mp ht
  obtain ⟨d, u, rfl⟩ := List.exists_cons_of_ne_nil hu
  obtain rfl : d = '#' := (List.cons.inj heq).1
  exact h (hx ▸ by simp)

/-! ## The pass line by line -/

theorem find?_eq_none_of_notMem {s : Text} (h : '#' ∉ s) : pattern.find? s = none := by
  refine find?_eq_none_iff_takes.mpr fun before t rest hs ht => ?_
  obtain ⟨_, k, c, rfl, ⟨_, i, z, rfl⟩, _⟩ := takes_pattern.mp ht
  refine h (hs ▸ ?_)
  simp [Id.mark]

theorem find?_line {l : Text} (hl : '\n' ∉ l) : pattern.find? (l ++ ['\n']) = none := by
  refine find?_eq_none_iff_takes.mpr fun before t rest hs ht => ?_
  obtain ⟨l', k, c, rfl, _⟩ := takes_pattern.mp ht
  have heq : (before ++ l') ++ '\n' :: (k ++ '\n' :: (c.text ++ rest)) = l ++ '\n' :: [] := by
    simp [hs]
  rcases Text.first_cases hl heq with ⟨_, h⟩ | ⟨w, _, h⟩ <;> simp at h

theorem find?_of_newline_notMem {s : Text} (h : '\n' ∉ s) : pattern.find? s = none := by
  refine find?_eq_none_iff_takes.mpr fun before t rest hs ht => ?_
  obtain ⟨l, k, c, rfl, _⟩ := takes_pattern.mp ht
  exact h (hs ▸ by simp)

variable {names : Names}

theorem annotate_append {a b : Text} (h : pattern.Seam a b) :
    annotate names (a ++ b) = annotate names a ++ annotate names b :=
  edit_append not_takes_nil _ h

theorem annotate_of_find?_eq_none {s : Text} (h : pattern.find? s = none) :
    annotate names s = ⟨s, 0⟩ :=
  edit_of_find?_eq_none _ h

/-- Where no mark begins the pass does nothing. -/
theorem annotate_of_notMem {s : Text} (h : '#' ∉ s) : annotate names s = ⟨s, 0⟩ :=
  annotate_of_find?_eq_none (find?_eq_none_of_notMem h)

/-- A line is left alone if it has no mark, or no title with a request follows it. -/
theorem annotate_line {l s : Text} (hl : '\n' ∉ l) (h : Marked l → ¬ OpensCase s) :
    annotate names (l ++ '\n' :: s) = ⟨l ++ ['\n'], 0⟩ ++ annotate names s := by
  rw [← List.singleton_append, ← List.append_assoc, annotate_append (seam_line hl h),
    annotate_of_find?_eq_none (find?_line hl)]

/-- The line that logs a request. -/
def Call.logLine (c : Call) (names : Names) : Text :=
  Shell.command names.helper ["GET".toList, c.url.text]

/-- The parts are read off a header and a request. -/
theorem ofMatch_append {m : Match Part} {pieces : List Piece}
    (hm : Fits (ofPart .header pieces) m) (c : Call) :
    ofMatch (m ++ c.toMatch) = ⟨m.text, c.text, c.url.text⟩ := by
  have hheader : (m ++ c.toMatch).part .header = m.text := by
    rw [Match.part_append, hm.part_ofPart]
    exact List.append_nil _
  have hcall : (m ++ c.toMatch).select (· != .header) = c.text := by
    rw [Match.select_append, hm.select_ofPart, ← c.text_toMatch]
    rfl
  have hurl : (m ++ c.toMatch).part .url = c.url.text := by
    rw [Match.part_append, hm.part_ofPart]
    exact congrArg BodilessRequest.url c.ofMatch_toMatch
  rw [ofMatch, hheader, hcall, hurl]

/-- What the pass finds first is a request under the two lines of a header. -/
theorem exists_lines_of_find? {s before rest : Text} {m : Match Part}
    (h : pattern.find? s = some (before, m, rest)) : ∃ (l k : Text) (c : Call),
      m.text = l ++ '\n' :: (k ++ '\n' :: c.text) ∧ '\n' ∉ l ∧ '\n' ∉ k ∧
        ofMatch m = ⟨l ++ '\n' :: (k ++ ['\n']), c.text, c.url.text⟩ ∧
          ∀ x ∈ rest.head?, inPath x = false := by
  obtain ⟨hmatch, _⟩ := find?_sound h
  obtain ⟨m₁, s₁, m₂, hm₁, _, hm₂, rfl⟩ := match?_append_sound hmatch
  obtain ⟨l, k, htext, ⟨hl, _⟩, hk, _⟩ := spells_header_line.mp hm₁.spells_ofPart
  obtain ⟨c, rfl, _, hrest⟩ := match?_call_sound hm₂
  refine ⟨l, k, c, ?_, hl, hk, ?_, hrest⟩
  · rw [Match.text_append, htext, c.text_toMatch]
    simp only [List.append_assoc, List.cons_append, List.nil_append]
  · rw [ofMatch_append hm₁, htext]

/-- What the pass edits first, and what it makes of it. -/
theorem exists_request_of_find? {s before rest : Text} {m : Match Part}
    (h : pattern.find? s = some (before, m, rest)) :
    ∃ (l k : Text) (c : Call), s = before ++ (l ++ '\n' :: (k ++ '\n' :: (c.text ++ rest))) ∧
      (∀ names, (ofMatch m).annotated names =
        l ++ '\n' :: (k ++ '\n' :: (c.logLine names ++ c.text))) ∧
      '\n' ∉ l ∧ '\n' ∉ k ∧ ∀ x ∈ rest.head?, inPath x = false := by
  obtain ⟨l, k, c, htext, hl, hk, hparts, hrest⟩ := exists_lines_of_find? h
  refine ⟨l, k, c, ?_, fun names => ?_, hl, hk, hrest⟩
  · rw [← text_of_find? h, htext]
    simp only [List.append_assoc, List.cons_append]
  · rw [hparts, annotated, logLine, Call.logLine]
    simp only [List.append_assoc, List.cons_append, List.nil_append]

/-- A request under its header is logged, and the pass goes on behind it. -/
theorem annotate_request (names : Names) (c : Call) {l k rest : Text} (hl : '\n' ∉ l)
    (hmark : Marked l) (hk : '\n' ∉ k) (htitle : Titled k)
    (hrest : ∀ x ∈ rest.head?, inPath x = false) :
    annotate names (l ++ '\n' :: (k ++ '\n' :: (c.text ++ rest))) =
      ⟨l ++ '\n' :: (k ++ '\n' :: (c.logLine names ++ c.text)), 1⟩ ++ annotate names rest := by
  obtain ⟨x, l', rfl, hmark⟩ := hmark
  have htakes : pattern.Takes (l' ++ '\n' :: (k ++ '\n' :: c.text)) :=
    takes_pattern.mpr ⟨l', k, c, rfl, ⟨fun h => hl (by simp [h]), hmark⟩, hk, htitle⟩
  cases hfind : pattern.find? ((x ++ l') ++ '\n' :: (k ++ '\n' :: (c.text ++ rest))) with
  | none => exact absurd htakes (find?_eq_none_iff_takes.mp hfind x _ rest (by simp))
  | some found =>
    obtain ⟨before, m, rest'⟩ := found
    have hlen := find?_length_le hfind htakes (b := x) (r := rest) (by simp)
    obtain ⟨l₁, k₁, c', htext, hannotated, hl₁, hk₁, hrest'⟩ := exists_request_of_find? hfind
    have heq : (before ++ l₁) ++ '\n' :: (k₁ ++ '\n' :: (c'.text ++ rest')) =
        (x ++ l') ++ '\n' :: (k ++ '\n' :: (c.text ++ rest)) := by
      rw [htext, List.append_assoc]
    -- the match begins on the line with the mark
    have hline : before ++ l₁ = x ++ l' ∧
        k₁ ++ '\n' :: (c'.text ++ rest') = k ++ '\n' :: (c.text ++ rest) := by
      refine (Text.first_cases hl heq).resolve_right ?_
      rintro ⟨w, hw, _⟩
      rw [List.append_assoc] at hw
      rcases List.append_eq_append_iff.mp hw with ⟨t, rfl, ht⟩ | ⟨t, rfl, ht⟩
      · exact hl₁ (by simp [ht])
      · have hnil : t = [] := by
          rw [List.length_append] at hlen
          exact List.length_eq_zero_iff.mp (by omega)
        rw [hnil, List.nil_append] at ht
        exact hl₁ (by simp [← ht])
    obtain ⟨hlines, hbelow⟩ := hline
    obtain ⟨rfl, hcall⟩ := Text.first_unique hk hk₁ hbelow
    obtain ⟨rfl, rfl⟩ := Call.text_append_inj hcall hrest' hrest
    rw [annotate, edit_of_find?_eq_some not_takes_nil _ hfind, hannotated, ← List.append_assoc,
      hlines]
    rfl

end CurlLog.BodilessRequest
