import CurlLog.Proofs.Script.CurlCall
import CurlLog.Proofs.Text.Lines
import CurlLog.Script.BodyRequest

/-!
# Requests with a body as data

A request is given by its method, its address, what stands between them and the body, and the body
(`Call`). A text can be read as a request in several ways, and the pattern chooses the one with the
longest address and, after that, the longest gap (`match?_call_eq_some_iff`).

What decides is whether a body still follows: `BodyFollows` says that behind a place of the text
there is a gap that does not leave the parentheses, and then a quoted body.
-/

namespace CurlLog.BodyRequest

open Pattern

/-! ## The beginning of a request -/

/-- The method and the address. -/
structure Lead where
  method : Text
  url : CurlCall.Url '\\'
  method_mem : method ∈ methods

/-- The request as far as the end of the address. -/
def Lead.text (l : Lead) : Text :=
  CurlCall.opening ++ ("-X ".toList ++ (l.method ++ ' ' :: l.url.text))

theorem Lead.text_cons (l : Lead) : ∃ t, l.text = 'R' :: t :=
  ⟨_, rfl⟩

theorem newline_notMem_of_mem_methods {w : Text} (h : w ∈ methods) : '\n' ∉ w := by
  revert w
  decide

theorem Lead.newline_notMem_text (l : Lead) : '\n' ∉ l.text := by
  have hmethod := newline_notMem_of_mem_methods l.method_mem
  have hurl : '\n' ∉ l.url.text := l.url.notMem_of_isBlank (by decide)
  have hword : '\n' ∉ "-X ".toList := by decide
  simp only [text, List.mem_append, List.mem_cons, not_or]
  exact ⟨CurlCall.newline_notMem_opening, hword, hmethod, by decide, hurl⟩

theorem blank_notMem_of_mem_methods {w : Text} (h : w ∈ methods) : ' ' ∉ w := by
  revert w
  decide

/-! ## The body -/

/-- A body and the quote that closes it stand at the front. -/
def Quoted (z : Text) : Prop :=
  z.head? ≠ some '\'' ∧ '\'' ∈ z

theorem quoted_iff {z : Text} :
    Quoted z ↔ ∃ b r, z = b ++ '\'' :: r ∧ b ≠ [] ∧ '\'' ∉ b := by
  constructor
  · rintro ⟨hhead, hmem⟩
    obtain ⟨b, r, rfl, hb⟩ := List.eq_append_cons_of_mem hmem
    refine ⟨b, r, rfl, ?_, hb⟩
    rintro rfl
    exact hhead rfl
  · rintro ⟨b, r, rfl, hne, hb⟩
    obtain ⟨c, b, rfl⟩ := List.exists_cons_of_ne_nil hne
    refine ⟨?_, by simp⟩
    rintro h
    simp_all

/-- A gap that stays inside the parentheses and a quoted body follow. -/
def BodyFollows (y : Text) : Prop :=
  ∃ v z, y = v ++ (bodyOpening ++ z) ∧ v ≠ [] ∧ ')' ∉ v ∧ Quoted z

/-- The shape of a body and the quote that closes it. -/
def quotedPattern : Pattern Part :=
  [(.body, .most (· != '\'')), (.call, .word "'".toList)]

/-- The shape of what follows the address. -/
def gapPattern : Pattern Part :=
  (.call, .most (· != ')')) :: (.call, .word bodyOpening) :: quotedPattern

theorem match?_quotedPattern_ne_none_iff {z : Text} :
    quotedPattern.match? z ≠ none ↔ Quoted z := by
  rw [match?_ne_none_iff_takes, quoted_iff]
  constructor
  · rintro ⟨_, r, rfl, b, _, rfl, ⟨hne, hb⟩, ht⟩
    obtain ⟨_, rfl, rfl⟩ := Piece.spells_word_cons.mp ht
    exact ⟨b, r, by simp, hne, fun h => by simpa using hb _ h⟩
  · rintro ⟨b, r, rfl, hne, hb⟩
    refine ⟨b ++ ['\''], r, by simp, b, _, rfl, ⟨hne, fun c hc => ?_⟩, ?_⟩
    · have : c ≠ '\'' := fun h => hb (h ▸ hc)
      simpa using this
    · exact Piece.spells_word_cons.mpr ⟨[], rfl, rfl⟩

theorem match?_gapPattern_ne_none_iff {y : Text} :
    gapPattern.match? y ≠ none ↔ BodyFollows y := by
  rw [match?_ne_none_iff_takes]
  constructor
  · rintro ⟨_, r, rfl, v, _, rfl, ⟨hne, hv⟩, ht⟩
    obtain ⟨t, rfl, hq⟩ := Piece.spells_word_cons.mp ht
    have hq := match?_quotedPattern_ne_none_iff.mp (match?_ne_none_iff_takes.mpr ⟨t, r, rfl, hq⟩)
    exact ⟨v, t ++ r, by simp, hne, fun h => by simpa using hv _ h, hq⟩
  · rintro ⟨v, z, rfl, hne, hv, hq⟩
    obtain ⟨t, r, rfl, ht⟩ := match?_ne_none_iff_takes.mp (match?_quotedPattern_ne_none_iff.mpr hq)
    refine ⟨v ++ (bodyOpening ++ t), r, by simp, v, _, rfl, ⟨hne, fun c hc => ?_⟩, ?_⟩
    · have : c ≠ ')' := fun h => hv (h ▸ hc)
      simpa using this
    · exact Piece.spells_word_cons.mpr ⟨t, rfl, ht⟩

/-! ## Requests -/

/-- A request with a body. -/
structure Call extends Lead where
  /-- What stands between the address and the body. -/
  gap : Text
  body : Text
  gap_ne_nil : gap ≠ []
  paren_notMem_gap : ')' ∉ gap
  body_ne_nil : body ≠ []
  quote_notMem_body : '\'' ∉ body

/-! The shortest gap that curl reads as the end of a line. -/

theorem lineEnd_ne_nil : " \\".toList ≠ [] :=
  List.cons_ne_nil ' ' _

theorem paren_notMem_lineEnd : ')' ∉ " \\".toList := by
  decide

namespace Call

/-- What follows the address. -/
def tail (c : Call) : Text :=
  c.gap ++ (bodyOpening ++ (c.body ++ ['\'']))

/-- The request as it is written. -/
def text (c : Call) : Text :=
  c.toLead.text ++ c.tail

/-- The request as the pattern takes it. -/
def toMatch (c : Call) : Match Part :=
  [(.call, CurlCall.opening), (.call, "-X ".toList), (.method, c.method), (.call, " ".toList),
    (.url, CurlCall.urlOpening), (.url, c.url.service), (.url, "/".toList), (.url, c.url.path),
    (.call, c.gap), (.call, bodyOpening), (.body, c.body), (.call, "'".toList)]

theorem text_toMatch (c : Call) : c.toMatch.text = c.text := by
  simp only [toMatch, text, tail, Lead.text, CurlCall.Url.text, Match.text_cons, Match.text_nil,
    List.append_assoc, List.append_nil, List.cons_append]
  rfl

/-- The request of a call, under a header. -/
def request (c : Call) (header : Text) : BodyRequest :=
  ⟨header, c.text, c.method, c.url.text, c.body⟩

/-- What is read off the match is what the request was made from. -/
theorem ofMatch_toMatch (c : Call) : ofMatch c.toMatch = c.request [] := by
  have hcall : c.toMatch.select (· != .header) = c.text := by
    rw [← c.text_toMatch]
    rfl
  have hmethod : c.toMatch.part .method = c.method := List.append_nil _
  have hurl : c.toMatch.part .url = c.url.text := c.url.text_eq_parts.symm
  have hbody : c.toMatch.part .body = c.body := List.append_nil _
  simp only [ofMatch, hcall, hmethod, hurl, hbody]
  rfl

/-- A match tells all parts of the request. -/
theorem toMatch_injective {c c' : Call} (h : c.toMatch = c'.toMatch) : c = c' := by
  obtain ⟨⟨method, ⟨service, path, _, _, _, _⟩, _⟩, gap, body, _, _, _, _⟩ := c
  obtain ⟨⟨method', ⟨service', path', _, _, _, _⟩, _⟩, gap', body', _, _, _, _⟩ := c'
  simp only [toMatch, List.cons.injEq, Prod.mk.injEq, true_and, and_true] at h
  obtain ⟨rfl, rfl, rfl, rfl, rfl⟩ := h
  rfl

/-- Neither a longer address nor a longer gap leaves a body. -/
structure Widest (c : Call) (rest : Text) : Prop where
  url : ∀ t y, c.tail ++ rest = t ++ y → t ≠ [] → (∀ x ∈ t, (!isBlank x && x != '\\') = true) →
    ¬ BodyFollows y
  gap : ¬ BodyFollows (bodyOpening ++ (c.body ++ '\'' :: rest))

end Call

/-! ## Which reading the pattern chooses -/

/-- The match of a gap and a body is the one with the longest gap. -/
theorem match?_gapPattern_sound {y rest : Text} {m : Match Part}
    (h : gapPattern.match? y = some (m, rest)) :
    ∃ v b, m = [(.call, v), (.call, bodyOpening), (.body, b), (.call, "'".toList)] ∧
      y = v ++ (bodyOpening ++ (b ++ '\'' :: rest)) ∧ (v ≠ [] ∧ ')' ∉ v) ∧ (b ≠ [] ∧ '\'' ∉ b) ∧
        ¬ BodyFollows (bodyOpening ++ (b ++ '\'' :: rest)) := by
  rw [gapPattern, match?] at h
  simp only [Option.map_eq_some_iff, Prod.exists, Prod.mk.injEq] at h
  obtain ⟨v, m', _, hgap, rfl, rfl⟩ := h
  obtain ⟨s, rfl, ⟨hv_ne, hv_class⟩, hm'⟩ := Piece.take_sound hgap
  obtain ⟨_ | ⟨h₁, _ | ⟨⟨hb_ne, hb_class⟩, _ | ⟨h₂, ⟨⟩⟩⟩⟩, rfl⟩ := match?_sound hm'
  obtain rfl := Piece.fits_word.mp h₁
  obtain rfl := Piece.fits_word.mp h₂
  have hv : ')' ∉ v := fun hc => by simpa using hv_class _ hc
  refine ⟨v, _, rfl, by simp, ⟨hv_ne, hv⟩, ⟨hb_ne, fun hc => by simpa using hb_class _ hc⟩, ?_⟩
  rintro ⟨w, z, hz, hw_ne, hw, hquoted⟩
  -- a gap that is longer by `w` would have been taken
  refine match?_quotedPattern_ne_none_iff.mpr hquoted (match?_eq_none_iff_takes.mpr ?_)
  intro t r hr ht
  have hnone := Piece.takeMost_longest hgap
    (show v ++ _ = (v ++ w) ++ (bodyOpening ++ z) by rw [List.append_assoc, ← hz]; simp)
    (fun c hc => ?_) (by simpa using List.length_pos_iff.mpr hw_ne)
  · refine match?_eq_none_iff_takes.mp hnone (bodyOpening ++ t) r (by simp [hr]) ?_
    exact Piece.spells_word_cons.mpr ⟨t, rfl, ht⟩
  · have hc' : c ≠ ')' := by
      rintro rfl
      rcases List.mem_append.mp hc with hc | hc
      · exact hv hc
      · exact hw hc
    simpa using hc'

/-- The shape of a request as far as the slash of the address. -/
def leadPattern : Pattern Part :=
  .ofPart .call [.word CurlCall.opening, .word "-X ".toList] ++ .ofPart .method [.oneOf methods]
    ++ .ofPart .call [.word " ".toList]
    ++ .ofPart .url [.word CurlCall.urlOpening, .most Char.isUpper, .word "/".toList]

theorem callPattern_eq : callPattern =
    leadPattern ++ (.url, .most fun c => !isBlank c && c != '\\') :: gapPattern := rfl

theorem match?_call_sound {q rest : Text} {m : Match Part}
    (h : callPattern.match? q = some (m, rest)) :
    ∃ c : Call, m = c.toMatch ∧ q = c.text ++ rest ∧ c.Widest rest := by
  have htext := text_of_match? h
  rw [callPattern_eq] at h
  obtain ⟨m₁, s₁, m₂, hm₁, rfl, hm₂, rfl⟩ := match?_append_sound h
  obtain _ | ⟨h₁, _ | ⟨h₂, _ | ⟨hmethod, _ | ⟨h₃, _ | ⟨h₄, _ | ⟨hservice, _ | ⟨h₅, ⟨⟩⟩⟩⟩⟩⟩⟩⟩ := hm₁
  obtain rfl := Piece.fits_word.mp h₁
  obtain rfl := Piece.fits_word.mp h₂
  obtain rfl := Piece.fits_word.mp h₃
  obtain rfl := Piece.fits_word.mp h₄
  obtain rfl := Piece.fits_word.mp h₅
  simp only [match?, Option.map_eq_some_iff, Prod.exists, Prod.mk.injEq] at hm₂
  obtain ⟨path, m₃, _, hpath, rfl, rfl⟩ := hm₂
  obtain ⟨s₂, rfl, ⟨hpath_ne, hpath_class⟩, hm₃⟩ := Piece.take_sound hpath
  obtain ⟨gap, body, rfl, rfl, hgap, hbody, hwidest⟩ := match?_gapPattern_sound hm₃
  let c : Call := {
    method := _
    url := ⟨_, path, hservice.1, hpath_ne, hservice.2, hpath_class⟩
    method_mem := hmethod
    gap := gap
    body := body
    gap_ne_nil := hgap.1
    paren_notMem_gap := hgap.2
    body_ne_nil := hbody.1
    quote_notMem_body := hbody.2 }
  refine ⟨c, rfl, by rw [← c.text_toMatch]; exact htext.symm, ?_, hwidest⟩
  intro t y hy hne ht hfollows
  -- an address that is longer by `t` would have been taken
  refine match?_gapPattern_ne_none_iff.mpr hfollows (Piece.takeMost_longest hpath
    (show path ++ _ = (path ++ t) ++ y by rw [List.append_assoc, ← hy]; simp [c, Call.tail])
    (fun x hx => ?_) (by simpa using List.length_pos_iff.mpr hne))
  rcases List.mem_append.mp hx with hx | hx
  · exact hpath_class x hx
  · exact ht x hx

namespace Call

theorem fits_toMatch (c : Call) : callPattern.Fits c.toMatch := by
  have word (w : Text) : (Piece.word w).Fits w := Piece.fits_word.mpr rfl
  refine .cons (word _) (.cons (word _) (.cons c.method_mem (.cons (word _) (.cons (word _)
    (.cons ⟨c.url.service_ne_nil, c.url.isUpper_of_mem⟩ (.cons (word _)
      (.cons ⟨c.url.path_ne_nil, c.url.inPath_of_mem⟩ (.cons ⟨c.gap_ne_nil, ?_⟩ (.cons (word _)
        (.cons ⟨c.body_ne_nil, ?_⟩ (.cons (word _) .nil)))))))))))
  · intro x hx
    have : x ≠ ')' := fun h => c.paren_notMem_gap (h ▸ hx)
    simpa using this
  · intro x hx
    have : x ≠ '\'' := fun h => c.quote_notMem_body (h ▸ hx)
    simpa using this

theorem takes_text (c : Call) : callPattern.Takes c.text :=
  c.text_toMatch ▸ c.fits_toMatch.takes

/-- After the address of a request a body follows. -/
theorem bodyFollows_tail (c : Call) (rest : Text) : BodyFollows (c.tail ++ rest) :=
  ⟨c.gap, c.body ++ '\'' :: rest, by simp [tail], c.gap_ne_nil, c.paren_notMem_gap,
    quoted_iff.mpr ⟨c.body, rest, rfl, c.body_ne_nil, c.quote_notMem_body⟩⟩

end Call

/-- A method, an address and a body behind them are at the front of the text. -/
def OpensCall (q : Text) : Prop :=
  ∃ (l : Lead) (y : Text), q = l.text ++ y ∧ BodyFollows y

theorem match?_call_ne_none_iff {q : Text} : callPattern.match? q ≠ none ↔ OpensCall q := by
  constructor
  · intro h
    obtain ⟨⟨m, rest⟩, hm⟩ := Option.ne_none_iff_exists'.mp h
    obtain ⟨c, _, rfl, _⟩ := match?_call_sound hm
    exact ⟨c.toLead, c.tail ++ rest, by rw [Call.text, List.append_assoc], c.bodyFollows_tail rest⟩
  · rintro ⟨l, _, rfl, v, z, rfl, hne, hv, hz⟩
    obtain ⟨b, r, rfl, hb_ne, hb⟩ := quoted_iff.mp hz
    let c : Call := ⟨l, v, b, hne, hv, hb_ne, hb⟩
    exact match?_ne_none_iff_takes.mpr ⟨c.text, r, by simp [c, Call.text, Call.tail], c.takes_text⟩

/-- Of two readings of one text, the address of a widest one is not the shorter one. -/
theorem Call.Widest.path_le {c c' : Call} {r r' : Text} (h : c.Widest r)
    (heq : c.url.path ++ (c.tail ++ r) = c'.url.path ++ (c'.tail ++ r')) :
    c'.url.path.length ≤ c.url.path.length := by
  refine Nat.not_lt.mp fun hlt => ?_
  rcases List.append_eq_append_iff.mp heq with ⟨t, ht, htail⟩ | ⟨t, ht, _⟩
  · refine h.url t _ htail ?_ (fun x hx => ?_) (c'.bodyFollows_tail r')
    · rintro rfl
      simp [ht] at hlt
    · exact c'.url.inPath_of_mem x (by simp [ht, hx])
  · simp only [ht, List.length_append] at hlt
    omega

/-- Of two readings with one address, the gap of a widest one is not the shorter one. -/
theorem Call.Widest.gap_le {c c' : Call} {r r' : Text} (h : c.Widest r)
    (heq : c.tail ++ r = c'.tail ++ r') : c'.gap.length ≤ c.gap.length := by
  refine Nat.not_lt.mp fun hlt => ?_
  simp only [Call.tail, List.append_assoc, List.cons_append, List.nil_append] at heq
  rcases List.append_eq_append_iff.mp heq with ⟨t, ht, htail⟩ | ⟨t, ht, _⟩
  · refine h.gap ⟨t, _, htail, ?_, ?_, ?_⟩
    · rintro rfl
      simp [ht] at hlt
    · exact fun hmem => c'.paren_notMem_gap (by simp [ht, hmem])
    · exact quoted_iff.mpr ⟨_, _, rfl, c'.body_ne_nil, c'.quote_notMem_body⟩
  · simp only [ht, List.length_append] at hlt
    omega

/-- Two readings begin with the same method and service. -/
theorem Lead.text_append_inj {l l' : Lead} {y y' : Text} (h : l.text ++ y = l'.text ++ y') :
    l.method = l'.method ∧ l.url.service = l'.url.service ∧
      l.url.path ++ y = l'.url.path ++ y' := by
  simp only [Lead.text, CurlCall.Url.text, List.append_assoc, List.cons_append,
    List.append_cancel_left_eq] at h
  have hblank := blank_notMem_of_mem_methods l.method_mem
  have hblank' := blank_notMem_of_mem_methods l'.method_mem
  obtain ⟨hmethod, h⟩ := Text.first_unique hblank' hblank h
  rw [List.append_cancel_left_eq] at h
  obtain ⟨hservice, h⟩ := run_unique h l.url.isUpper_of_mem l'.url.isUpper_of_mem (by decide)
    (by decide)
  exact ⟨hmethod, hservice, by simpa using h⟩

theorem Call.Widest.unique {c c' : Call} {r r' : Text} (h : c.Widest r) (h' : c'.Widest r')
    (heq : c.text ++ r = c'.text ++ r') : c = c' ∧ r = r' := by
  rw [Call.text, Call.text, List.append_assoc, List.append_assoc] at heq
  obtain ⟨hmethod, hservice, heq⟩ := Lead.text_append_inj heq
  have hpath : c.url.path = c'.url.path ∧ c.tail ++ r = c'.tail ++ r' :=
    List.append_inj heq (Nat.le_antisymm (h'.path_le heq.symm) (h.path_le heq))
  have heq := hpath.2
  have hle := h.gap_le heq
  have hge := h'.gap_le heq.symm
  simp only [Call.tail, List.append_assoc, List.cons_append, List.nil_append] at heq
  obtain ⟨hgap, heq⟩ := List.append_inj heq (by omega)
  obtain ⟨hbody, hr⟩ := Text.first_unique c'.quote_notMem_body c.quote_notMem_body
    (List.append_cancel_left heq)
  obtain ⟨⟨method, ⟨service, path, _, _, _, _⟩, _⟩, gap, body, _, _, _, _⟩ := c
  obtain ⟨⟨method', ⟨service', path', _, _, _, _⟩, _⟩, gap', body', _, _, _, _⟩ := c'
  obtain rfl : method = method' := hmethod
  obtain rfl : service = service' := hservice
  obtain rfl : path = path' := hpath.1
  obtain rfl : gap = gap' := hgap
  obtain rfl : body = body' := hbody
  exact ⟨rfl, hr⟩

/-- The pattern takes a request with the longest address and then the longest gap. -/
theorem match?_call_eq_some_iff {q rest : Text} {m : Match Part} :
    callPattern.match? q = some (m, rest) ↔
      ∃ c : Call, m = c.toMatch ∧ q = c.text ++ rest ∧ c.Widest rest := by
  constructor
  · exact match?_call_sound
  · rintro ⟨c, rfl, rfl, hc⟩
    have hne := match?_ne_none_iff_takes.mpr ⟨c.text, rest, rfl, c.takes_text⟩
    obtain ⟨⟨m, rest'⟩, hm⟩ := Option.ne_none_iff_exists'.mp hne
    obtain ⟨c', rfl, heq, hc'⟩ := match?_call_sound hm
    obtain ⟨rfl, rfl⟩ := hc.unique hc' heq
    exact hm

end CurlLog.BodyRequest
