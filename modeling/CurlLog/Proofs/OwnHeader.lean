import CurlLog.Proofs.Script.Reading
import CurlLog.Proofs.SingleCommand

/-!
# Requests with a body and their own headers

The gaps of a header may hold line ends, so a header can belong to a request further down: behind
other commands, or where the request of its own test case is missing or of another kind.
`UnderHeader` says that the two lines right above a place are a header. All requests that the pass
edits stand under a header of their own exactly if the pass finds the same requests as with gaps
that end with their line, like those of a request without a body (`underHeader_iff`).
-/

namespace CurlLog

/-! ## What stands before the matches -/

/-- Each match with all that stands before it, if the matches begin behind `done`. -/
def Cut.withBefore {α : Type} (done : Text) : List (Text × Match α) → List (Text × Match α)
  | [] => []
  | (before, m) :: found =>
    (done ++ before, m) :: withBefore (done ++ before ++ m.text) found

theorem Cut.mem_taken_of_mem_withBefore {α : Type} {done : Text} {found : List (Text × Match α)}
    {e : Text × Match α} (h : e ∈ withBefore done found) : e.2 ∈ found.map Prod.snd := by
  induction found generalizing done with
  | nil => simp [withBefore] at h
  | cons first found ih =>
    rw [withBefore, List.mem_cons] at h
    rcases h with rfl | h
    · exact List.mem_cons_self
    · exact List.mem_cons_of_mem _ (ih h)

theorem Cut.exists_mem_withBefore {α : Type} {m : Match α} {found : List (Text × Match α)}
    (h : m ∈ found.map Prod.snd) (done : Text) : ∃ a, (a, m) ∈ withBefore done found := by
  induction found generalizing done with
  | nil => simp at h
  | cons first found ih =>
    rw [List.map_cons, List.mem_cons] at h
    rcases h with rfl | h
    · exact ⟨_, List.mem_cons_self⟩
    · obtain ⟨a, ha⟩ := ih h (done ++ first.1 ++ first.2.text)
      exact ⟨a, List.mem_cons_of_mem _ ha⟩

/-- What stands before a match, the match and what follows it make up the text. -/
theorem Pattern.exists_rest_of_mem_withBefore {α : Type} {p : Pattern α} {s done : Text}
    {e : Text × Match α} (h : e ∈ Cut.withBefore done (p.cut s).found) :
    ∃ rest, done ++ s = e.1 ++ (e.2.text ++ rest) := by
  induction s using cut.induct p generalizing done with
  | case1 s hs => simp [cut_of_find?_eq_none hs, Cut.withBefore] at h
  | case2 s before m rest hs hm => simp [cut_of_find?_eq_some_nil hs hm, Cut.withBefore] at h
  | case3 s before m rest hs hm ih =>
    rw [cut_of_find?_eq_some hs hm, Cut.withBefore, List.mem_cons] at h
    rw [← text_of_find? hs]
    rcases h with rfl | h
    · exact ⟨rest, by simp⟩
    · obtain ⟨rest', hrest⟩ := ih h
      exact ⟨rest', by simpa using hrest⟩

namespace BodyRequest

open Pattern TestCase

/-! ## The two lines above a request -/

/-- The text ends with two lines, one that has a mark and one that prints a title. -/
def UnderHeader (a : Text) : Prop :=
  ∃ x l k, a = x ++ (l ++ '\n' :: (k ++ ['\n'])) ∧ Text.WholeLines x ∧
    ('\n' ∉ l ∧ Marked l) ∧ '\n' ∉ k ∧ Titled k

/-- The last two lines of a text are two lines only. -/
theorem underHeader_lines_iff {x l k : Text} (hx : Text.WholeLines x) (hl : '\n' ∉ l)
    (hk : '\n' ∉ k) :
    UnderHeader (x ++ (l ++ '\n' :: (k ++ ['\n']))) ↔ Marked l ∧ Titled k := by
  constructor
  · rintro ⟨x', l', k', heq, hx', ⟨hl', hmark⟩, hk', htitle⟩
    have hlines : (x ++ l) ++ '\n' :: k = (x' ++ l') ++ '\n' :: k' := by
      have hwhole : ((x ++ l) ++ '\n' :: k) ++ ['\n'] = ((x' ++ l') ++ '\n' :: k') ++ ['\n'] := by
        simpa only [List.append_assoc, List.cons_append] using heq
      exact List.append_cancel_right hwhole
    obtain ⟨hfront, rfl⟩ := Text.last_unique hk hk' hlines
    obtain rfl := hx.last_line_unique hx' hl hl' hfront
    exact ⟨hmark, htitle⟩
  · rintro ⟨hmark, htitle⟩
    exact ⟨x, l, k, rfl, hx, ⟨hl, hmark⟩, hk, htitle⟩

/-- The text ends with a header whose gaps end with their lines. -/
def ArmedInLine (a : Text) : Prop :=
  ∃ x h, a = x ++ h ∧ Piece.Spells (TestCase.header (· != '\n')) h

theorem armedInLine_iff {a : Text} : ArmedInLine a ↔ ∃ x l k,
    a = x ++ (l ++ '\n' :: (k ++ ['\n'])) ∧ ('\n' ∉ l ∧ BeginsMarked l) ∧ '\n' ∉ k ∧ Titled k := by
  simp only [ArmedInLine, spells_header_line]
  constructor
  · rintro ⟨x, _, rfl, l, k, rfl, hl, hk⟩
    exact ⟨x, l, k, rfl, hl, hk⟩
  · rintro ⟨x, l, k, rfl, hl, hk⟩
    exact ⟨x, _, rfl, l, k, rfl, hl, hk⟩

/-- The lines with the header begin where a line begins. -/
theorem underHeader_iff_armedInLine {a : Text} : UnderHeader a ↔ ArmedInLine a := by
  rw [armedInLine_iff]
  constructor
  · rintro ⟨x, _, k, rfl, _, ⟨hl, u, l, rfl, hmark⟩, hk⟩
    exact ⟨x ++ u, l, k, by simp, ⟨fun h => hl (by simp [h]), hmark⟩, hk⟩
  · rintro ⟨x, l, k, rfl, ⟨hl, hmark⟩, hk⟩
    obtain ⟨x, u, rfl, hx, hu⟩ := Text.exists_wholeLines x
    exact ⟨x, u ++ l, k, by simp, hx, ⟨by simp [hu, hl], u, l, rfl, hmark⟩, hk⟩

theorem ArmedInLine.append {a : Text} (h : ArmedInLine a) (x : Text) : ArmedInLine (x ++ a) := by
  obtain ⟨y, t, rfl, ht⟩ := h
  exact ⟨x ++ y, t, by simp, ht⟩

/-- A header with narrow gaps is one with wide gaps. -/
theorem spells_wide_header {t : Text} (h : Piece.Spells (TestCase.header (· != '\n')) t) :
    Piece.Spells (TestCase.header fun _ => true) t := by
  obtain ⟨i, j, y, z, rfl, _⟩ := spells_header.mp h
  exact spells_header.mpr ⟨i, j, y, z, rfl, fun _ _ => rfl, fun _ _ => rfl⟩

theorem ArmedInLine.armed {a : Text} (h : ArmedInLine a) : Armed a := by
  obtain ⟨x, t, rfl, ht⟩ := h
  exact ⟨x, t, rfl, spells_wide_header ht⟩

/-- Whether a header stands on two lines does not depend on what stands before it. -/
theorem armedInLine_append_iff {x t : Text}
    (ht : Piece.Spells (TestCase.header fun _ => true) t) :
    ArmedInLine (x ++ t) ↔ ArmedInLine t := by
  refine ⟨fun h => ?_, fun h => h.append x⟩
  obtain ⟨x', h, heq, hspells⟩ := h
  rcases List.append_eq_append_iff.mp heq with ⟨v, _, rfl⟩ | ⟨v, _, rfl⟩
  · exact ⟨v, h, rfl, hspells⟩
  · -- the two lines begin before the header, so its own gaps hold no line end
    obtain ⟨i, j, y, z, rfl, _⟩ := spells_header.mp ht
    obtain ⟨l, k, hlines, ⟨hl, _⟩, hk, _⟩ := spells_header_line.mp hspells
    have hcut : (v ++ (i.mark ++ y)) ++ '\n' :: (j.title ++ (z ++ ['"', '\n'])) =
        l ++ '\n' :: (k ++ ['\n']) := by
      rw [← hlines]
      simp only [List.append_assoc]
    rcases Text.first_cases hl hcut with ⟨rfl, htitle⟩ | ⟨w, _, hw⟩
    · refine ⟨[], _, (List.nil_append _).symm,
        spells_header_line.mpr ⟨i.mark ++ y, j.title ++ (z ++ ['"']), ?_, ?_⟩⟩
      · simp only [List.append_assoc, List.cons_append, List.nil_append]
      have hback : k = j.title ++ (z ++ ['"']) := by
        have hwhole : (j.title ++ (z ++ ['"'])) ++ ['\n'] = k ++ ['\n'] := by
          simpa only [List.append_assoc, List.cons_append, List.nil_append] using htitle
        exact (List.append_cancel_right hwhole).symm
      exact ⟨⟨fun h => hl (List.mem_append_right v h), i, y, rfl⟩, hback ▸ hk, j, z, rfl⟩
    · have hmem : (k ++ ['\n']) = (w ++ '\n' :: (j.title ++ (z ++ ['"']))) ++ ['\n'] := by
        simp [hw]
      have hk' : '\n' ∈ k := by
        rw [List.append_cancel_right hmem]
        simp
      exact absurd hk' hk

/-! ## Looking for headers within lines -/

/-- The shape of a header and a request, if the gaps of a header end with their lines. -/
def linePattern : Pattern Part :=
  .ofPart .header (TestCase.header (· != '\n')) ++ callPattern

theorem not_takes_nil_linePattern : ¬ linePattern.Takes [] := by
  intro h
  obtain ⟨u, v, huv, hu, _⟩ := takes_append.mp h
  obtain ⟨rfl, _⟩ := List.append_eq_nil_iff.mp huv.symm
  exact Armed.ne_nil ⟨[], [], rfl, spells_wide_header (takes_ofPart.mp hu)⟩ rfl

/-- Of two headers on two lines each, the one that begins first ends first. -/
theorem length_le_of_headers {before t x h e : Text}
    (ht : Piece.Spells (TestCase.header (· != '\n')) t)
    (hh : Piece.Spells (TestCase.header (· != '\n')) h) (hlen : before.length ≤ x.length)
    (heq : before ++ t = (x ++ h) ++ e) : e = [] := by
  obtain ⟨l, k, rfl, ⟨hl, _⟩, hk, _⟩ := spells_header_line.mp ht
  obtain ⟨l', k', rfl, _, hk', _⟩ := spells_header_line.mp hh
  obtain ⟨v, rfl, htail⟩ : ∃ v, x = before ++ v ∧
      l ++ '\n' :: (k ++ ['\n']) = v ++ ((l' ++ '\n' :: (k' ++ ['\n'])) ++ e) := by
    rw [List.append_assoc] at heq
    rcases List.append_eq_append_iff.mp heq with ⟨v, rfl, hv⟩ | ⟨v, rfl, hv⟩
    · exact ⟨v, rfl, hv⟩
    · obtain rfl : v = [] := by
        rw [List.length_append] at hlen
        exact List.length_eq_zero_iff.mp (by omega)
      exact ⟨[], by simp, by simpa using hv.symm⟩
  have hcut : (v ++ l') ++ '\n' :: (k' ++ '\n' :: e) = l ++ '\n' :: (k ++ ['\n']) := by
    simp [htail]
  -- the first line end of the one is the first line end of the other, and so is the second
  rcases Text.first_cases hl hcut with ⟨_, hsecond⟩ | ⟨w, _, hw⟩
  · exact (Text.first_unique hk hk' hsecond).2
  · have hw : w ++ '\n' :: (k' ++ '\n' :: e) = k ++ '\n' :: [] := hw.symm
    rcases Text.first_cases hk hw with ⟨_, hnil⟩ | ⟨w', _, hnil⟩ <;> simp at hnil

theorem firstCall_of_find? {s before rest : Text} {m : Match Part}
    (h : linePattern.find? s = some (before, m, rest)) :
    FirstCall ArmedInLine s (before ++ m.part .header) (callOf m) rest := by
  obtain ⟨hheader, hs, hcall⟩ := find?_header_sound h
  refine ⟨hs, ⟨before, _, rfl, hheader⟩, hcall, ?_⟩
  rintro _ q hpq ⟨x, t, rfl, ht⟩ hq
  obtain ⟨u, v, rfl, hu⟩ := match?_ne_none_iff_takes.mp hq
  have htakes : linePattern.Takes (t ++ u) := takes_append.mpr ⟨t, u, rfl, takes_ofPart.mpr ht, hu⟩
  have hlen := find?_length_le h htakes (b := x) (r := v) (by simp [hpq])
  rcases List.append_eq_append_iff.mp (hs.symm.trans hpq) with ⟨e, he, _⟩ | ⟨e, he, _⟩
  · simp [he]
  · obtain rfl := length_le_of_headers hheader ht hlen he
    simp [he]

theorem find?_linePattern_ne_none {s p q : Text} (hs : s = p ++ q) (hp : ArmedInLine p)
    (hq : callPattern.match? q ≠ none) : linePattern.find? s ≠ none := by
  obtain ⟨x, t, rfl, ht⟩ := hp
  obtain ⟨u, v, rfl, hu⟩ := match?_ne_none_iff_takes.mp hq
  intro hnone
  refine find?_eq_none_iff_takes.mp hnone x (t ++ u) v (by simp [hs]) ?_
  exact takes_append.mpr ⟨t, u, rfl, takes_ofPart.mpr ht, hu⟩

theorem find?_linePattern_of_firstCall {s a rest : Text} {m : Match Part}
    (h : FirstCall ArmedInLine s a m rest) :
    ∃ before m', linePattern.find? s = some (before, m', rest) ∧
      before ++ m'.part .header = a ∧ callOf m' = m := by
  have hsome := find?_linePattern_ne_none h.text_eq h.header (by simp [h.call])
  obtain ⟨⟨before, m', rest'⟩, hfind⟩ := Option.ne_none_iff_exists'.mp hsome
  obtain ⟨ha, hm, rfl⟩ := (firstCall_of_find? hfind).unique h
  exact ⟨before, m', hfind, ha, hm⟩

/-- What the pass finds first, if that stands under its own header. -/
theorem firstCall_of_armedInLine {s before rest : Text} {m : Match Part}
    (h : pattern.find? s = some (before, m, rest)) (hm : ArmedInLine (m.part .header)) :
    FirstCall ArmedInLine s (before ++ m.part .header) (callOf m) rest := by
  have hnext : nextCall s = some (before ++ m.part .header, callOf m, rest) := by
    rw [← find?_pattern, h]
    rfl
  obtain ⟨hs, _, hcall⟩ := nextCall_sound hnext
  exact ⟨hs, hm.append before, hcall, fun p q hpq hp => nextCall_first hnext hpq hp.armed⟩

theorem spells_part_header {s before rest : Text} {m : Match Part}
    (h : pattern.find? s = some (before, m, rest)) :
    Piece.Spells (TestCase.header fun _ => true) (m.part .header) :=
  (find?_header_sound h).1

theorem find?_linePattern_eq_none {s : Text} (h : pattern.find? s = none) :
    linePattern.find? s = none := by
  have hnext : nextCall s = none := by
    rw [← find?_pattern, h]
    rfl
  refine Classical.byContradiction fun hsome => ?_
  obtain ⟨⟨before, m, rest⟩, hfind⟩ := Option.ne_none_iff_exists'.mp hsome
  have hfirst := firstCall_of_find? hfind
  have hnone := nextCall_eq_none_iff.mp hnext _ _ hfirst.text_eq hfirst.header.armed
  simp [hfirst.call] at hnone

/-- Under its own header the first request is found with narrow gaps too. -/
theorem found_linePattern_of_own {s before rest : Text} {m : Match Part}
    (h : pattern.find? s = some (before, m, rest)) (hown : ArmedInLine (m.part .header)) :
    (linePattern.cut s).found.map atCall =
      atCall (before, m) :: (linePattern.cut rest).found.map atCall := by
  obtain ⟨before', m', hfind, hbefore, hcall⟩ :=
    find?_linePattern_of_firstCall (firstCall_of_armedInLine h hown)
  rw [cut_of_find?_eq_some hfind (text_ne_nil_of_find? not_takes_nil_linePattern hfind),
    List.map_cons]
  simp only [atCall, hbefore, hcall]

/-- What is found first with narrow gaps stands under its own header. -/
theorem armedInLine_of_found {s a : Text} {m : Match Part} {found : List (Text × Match Part)}
    (h : (linePattern.cut s).found.map atCall = (a, m) :: found) : ArmedInLine a := by
  cases hfind : linePattern.find? s with
  | none => simp [cut_of_find?_eq_none hfind] at h
  | some first =>
    obtain ⟨before, m', rest⟩ := first
    rw [cut_of_find?_eq_some hfind (text_ne_nil_of_find? not_takes_nil_linePattern hfind),
      List.map_cons, List.cons.injEq] at h
    obtain ⟨rfl, _⟩ := Prod.mk.inj h.1
    exact (firstCall_of_find? hfind).header

/-- All requests stand under headers of their own exactly if both kinds of gaps find the same. -/
theorem armedInLine_iff_cut (s : Text) :
    (∀ m ∈ (pattern.cut s).taken, ArmedInLine (m.part .header)) ↔
      (pattern.cut s).found.map atCall = (linePattern.cut s).found.map atCall := by
  induction s using find?_induction not_takes_nil with
  | absent s h =>
    rw [cut_of_find?_eq_none h, cut_of_find?_eq_none (find?_linePattern_eq_none h)]
    simp [Cut.taken]
  | first s before m rest h ih =>
    have hm := text_ne_nil_of_find? not_takes_nil h
    have htaken : (pattern.cut s).taken = m :: (pattern.cut rest).taken := by
      rw [cut_of_find?_eq_some h hm]
      rfl
    have hfound : (pattern.cut s).found.map atCall =
        atCall (before, m) :: (pattern.cut rest).found.map atCall := by
      rw [cut_of_find?_eq_some h hm]
      rfl
    rw [htaken, hfound, List.forall_mem_cons, ih]
    constructor
    · rintro ⟨hown, hrest⟩
      rw [found_linePattern_of_own h hown, hrest]
    · intro heq
      have hown : ArmedInLine (m.part .header) :=
        (armedInLine_append_iff (spells_part_header h)).mp (armedInLine_of_found heq.symm)
      rw [found_linePattern_of_own h hown] at heq
      exact ⟨hown, (List.cons.inj heq).2⟩

/-! ## The requests that the pass edits -/

theorem underHeader_append_iff {x t : Text}
    (ht : Piece.Spells (TestCase.header fun _ => true) t) :
    UnderHeader (x ++ t) ↔ UnderHeader t := by
  rw [underHeader_iff_armedInLine, underHeader_iff_armedInLine, armedInLine_append_iff ht]

theorem spells_part_header_of_mem {s : Text} {m : Match Part} (h : m ∈ (pattern.cut s).taken) :
    Piece.Spells (TestCase.header fun _ => true) (m.part .header) := by
  obtain ⟨m₁, m₂, rfl, hm₁, hm₂⟩ := fits_append.mp (fits_of_mem_cut h)
  rw [part_header_append, part_header_of_fits hm₁, part_header_of_call hm₂, List.append_nil]
  exact hm₁.spells_ofPart

/--
All requests that the pass edits stand right under the two lines of a header exactly if it finds the
same requests with gaps that end with their line. Whether a request does can be read off the header
that is found for it; this is a mark, behind it a line that begins like a title, and in the end a
quote and a line end.
-/
theorem underHeader_iff (s : Text) :
    ((∀ e ∈ Cut.withBefore [] (pattern.cut s).found, UnderHeader (e.1 ++ e.2.part .header)) ↔
      (pattern.cut s).found.map atCall = (linePattern.cut s).found.map atCall) ∧
    ∀ e ∈ Cut.withBefore [] (pattern.cut s).found,
      (UnderHeader (e.1 ++ e.2.part .header) ↔ UnderHeader (e.2.part .header)) ∧
        Armed (e.2.part .header) ∧ ∃ rest, s = e.1 ++ (e.2.text ++ rest) := by
  have hspells {e : Text × Match Part} (he : e ∈ Cut.withBefore [] (pattern.cut s).found) :
      Piece.Spells (TestCase.header fun _ => true) (e.2.part .header) :=
    spells_part_header_of_mem (Cut.mem_taken_of_mem_withBefore he)
  refine ⟨?_, fun e he => ⟨underHeader_append_iff (hspells he), ⟨[], _, rfl, hspells he⟩,
    exists_rest_of_mem_withBefore he⟩⟩
  rw [← armedInLine_iff_cut]
  constructor
  · intro h m hm
    obtain ⟨a, ha⟩ := Cut.exists_mem_withBefore hm []
    exact underHeader_iff_armedInLine.mp ((underHeader_append_iff (hspells ha)).mp (h _ ha))
  · intro h e he
    have hm := h e.2 (Cut.mem_taken_of_mem_withBefore he)
    exact (underHeader_append_iff (hspells he)).mpr (underHeader_iff_armedInLine.mpr hm)

theorem underHeader_plainScript :
    (Cut.withBefore [] (pattern.cut plainScript).found).length = 1 ∧
      ∀ e ∈ Cut.withBefore [] (pattern.cut plainScript).found,
        UnderHeader (e.1 ++ e.2.part .header) ∧ UnderHeader (e.2.part .header) := by
  have hlength : (Cut.withBefore [] (pattern.cut plainScript).found).length = 1 := by
    rw [← scan_eq_cut]
    decide +kernel
  have hsame : (pattern.cut plainScript).found.map atCall =
      (linePattern.cut plainScript).found.map atCall := by
    rw [← scan_eq_cut, ← scan_eq_cut]
    decide +kernel
  refine ⟨hlength, fun e he => ?_⟩
  have hown := (underHeader_iff plainScript).1.mpr hsame e he
  exact ⟨hown, ((underHeader_iff plainScript).2 e he).1.mp hown⟩

/-- A request without a body under its header, and a request with a body without a header. -/
def strayScript : Text :=
  plainHeader ++ (CurlCall.opening ++ "$BASE_URL_A/w)\necho \"done\"\n".toList) ++
    (plainCall.text ++ [')', '\n'])

/-- The header of the first request is taken for the second one, which a command stands before. -/
theorem not_underHeader_strayScript :
    ∃ e ∈ Cut.withBefore [] (pattern.cut strayScript).found,
      ¬ UnderHeader (e.1 ++ e.2.part .header) := by
  have hheaders : (Cut.withBefore [] (pattern.cut strayScript).found).map
      (fun e => e.1 ++ e.2.part .header) =
        [plainHeader ++ ((CurlCall.opening ++ "$BASE_URL_A/w)".toList) ++
          '\n' :: ("echo \"done\"".toList ++ ['\n']))] := by
    rw [← scan_eq_cut]
    decide +kernel
  obtain ⟨e, he, heq⟩ := List.mem_map.mp (hheaders ▸ List.mem_singleton.mpr rfl)
  refine ⟨e, he, ?_⟩
  have hwhole : Text.WholeLines plainHeader := Or.inr ⟨plainHeader.dropLast, by decide⟩
  rw [heq, underHeader_lines_iff hwhole (by decide) (by decide), ← isTitle_iff]
  exact fun h => absurd h.2 (by decide)

end BodyRequest

end CurlLog
