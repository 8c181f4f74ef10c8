import CurlLog.Proofs.OwnHeader
import CurlLog.Proofs.Script.Command

/-!
# The method that is logged

A request without a body is known by what stands before the end of its address, and it is logged
with the method `GET`. An option that gives it a body or another method can also stand behind the
address, on the same line or on a continuation line. `IsPlainGet` says of the words of the command
that there is no such option. It is so exactly if there is none behind the address
(`isPlainGet_iff`), and there the pass does not look: with another text behind the address the
request is logged all the same.
-/

namespace CurlLog.BodilessRequest

open Pattern TestCase

/-! ## What a command sends -/

/-- How the option for a body begins. -/
def bodyOption : Text :=
  "-d".toList

/-- The methods that the words of a command name, behind `-X` in the same word or in the next. -/
def namedMethods : List Text → List Text
  | [] => []
  | ['-', 'X'] :: ws => ws.head?.toList ++ namedMethods ws
  | ('-' :: 'X' :: method) :: ws => method :: namedMethods ws
  | _ :: ws => namedMethods ws

/-- No word of the command gives it a body or a method other than `GET`. -/
structure IsPlainGet (ws : List Text) : Prop where
  bodiless : ∀ w ∈ ws, ¬ bodyOption <+: w
  get : ∀ method ∈ namedMethods ws, method = "GET".toList

theorem isPlainGet_iff_and {ws : List Text} : IsPlainGet ws ↔
    (∀ w ∈ ws, ¬ bodyOption <+: w) ∧ ∀ method ∈ namedMethods ws, method = "GET".toList :=
  ⟨fun h => ⟨h.bodiless, h.get⟩, fun h => ⟨h.1, h.2⟩⟩

instance (ws : List Text) : Decidable (IsPlainGet ws) :=
  decidable_of_iff _ isPlainGet_iff_and.symm

/-! ## The words of the command -/

/-- What stands before the command: its output goes into a variable. -/
def answerOpening : Text :=
  "RESPONSE=$(".toList

/-- How the command begins. -/
def commandFront : Text :=
  "curl -s -w \"\\n%\x7bhttp_code\x7d\" ".toList

/-- The words before the address, without the option for the method and with it. -/
def leadingWords : List (List Text) :=
  let fixed := ["curl".toList, "-s".toList, "-w".toList, "\\n%\x7bhttp_code\x7d".toList]
  [fixed, fixed ++ ["-X".toList, "GET".toList]]

/-- The words of the command, if `rest` stands behind the address. -/
def words (r : BodilessRequest) (rest : Text) : List Text :=
  Shell.commandWords ((r.call ++ rest).drop answerOpening.length)

theorem opening_eq : CurlCall.opening = answerOpening ++ commandFront := by
  decide

/-- Up to the address a command is read in one of two ways. -/
theorem foldl_front {option : Text} (h : option ∈ ["-X GET ".toList, []]) :
    ∃ front ∈ leadingWords,
      (commandFront ++ (option ++ CurlCall.urlOpening)).foldl Shell.CommandReader.take {} =
        { words := front, word := some CurlCall.urlOpening } := by
  simp only [List.mem_cons, List.not_mem_nil, or_false] at h
  rcases h with rfl | rfl
  · exact ⟨_, List.mem_cons_of_mem _ List.mem_cons_self, by decide +kernel⟩
  · exact ⟨_, List.mem_cons_self, by decide +kernel⟩

/-- The words of the command: the fixed ones, the address and the options behind it. -/
theorem exists_words {r : BodilessRequest} {c : Call} (h : r.call = c.text) (rest : Text) :
    ∃ front ∈ leadingWords, ∃ t options,
      r.words rest = front ++ (CurlCall.urlOpening ++ t) :: options := by
  obtain ⟨front, hfront, hread⟩ := foldl_front c.option_mem
  have hcommand : (r.call ++ rest).drop answerOpening.length =
      (commandFront ++ (c.option ++ CurlCall.urlOpening)) ++
        (c.url.service ++ '/' :: (c.url.path ++ rest)) := by
    have hcall : r.call ++ rest = answerOpening ++ ((commandFront ++ (c.option ++
        CurlCall.urlOpening)) ++ (c.url.service ++ '/' :: (c.url.path ++ rest))) := by
      rw [h, Call.text, opening_eq, CurlCall.Url.text]
      simp only [List.append_assoc, List.cons_append]
    rw [hcall, List.drop_left]
  obtain ⟨t, options, hwords⟩ := Shell.commandWords_append hread _
  exact ⟨front, hfront, t, options, by rw [words, hcommand, hwords]⟩

theorem isPlainGet_of_mem_leadingWords : ∀ front ∈ leadingWords, IsPlainGet front := by
  decide +kernel

/-- No method is named by the address, nor across it. -/
theorem namedMethods_address {front : List Text} (h : front ∈ leadingWords) (t : Text)
    (options : List Text) : namedMethods (front ++ (CurlCall.urlOpening ++ t) :: options) =
      namedMethods front ++ namedMethods options := by
  simp only [leadingWords, List.mem_cons, List.not_mem_nil, or_false] at h
  rcases h with rfl | rfl <;> rfl

/-- Only the options behind the address can give the command a body or another method. -/
theorem isPlainGet_words {front : List Text} (h : front ∈ leadingWords) (t : Text)
    (options : List Text) :
    IsPlainGet (front ++ (CurlCall.urlOpening ++ t) :: options) ↔ IsPlainGet options := by
  have hfront := isPlainGet_of_mem_leadingWords front h
  have haddress : ¬ bodyOption <+: CurlCall.urlOpening ++ t := by
    rintro ⟨u, hu⟩
    exact absurd (List.head_eq_of_cons_eq hu) (by decide)
  rw [isPlainGet_iff_and, isPlainGet_iff_and, namedMethods_address h]
  simp only [List.forall_mem_append, List.forall_mem_cons]
  constructor
  · rintro ⟨⟨_, _, hbody⟩, _, hget⟩
    exact ⟨hbody, hget⟩
  · rintro ⟨hbody, hget⟩
    exact ⟨⟨hfront.bodiless, haddress, hbody⟩, hfront.get, hget⟩

/-! ## What the pass looks at -/

/--
A request under its two lines ends with the request that stands behind `d`, or it lies before the
address of that one.
-/
theorem request_cases {d l k l' k' r r' : Text} {c c' : Call} (hl : '\n' ∉ l) (hk : '\n' ∉ k)
    (hl' : '\n' ∉ l') (hk' : '\n' ∉ k') (hr : ∀ x ∈ r.head?, inPath x = false)
    (hr' : ∀ x ∈ r'.head?, inPath x = false)
    (heq : (d ++ l) ++ '\n' :: (k ++ '\n' :: (c.text ++ r)) =
      l' ++ '\n' :: (k' ++ '\n' :: (c'.text ++ r'))) :
    (l' = d ++ l ∧ k' = k ∧ c' = c ∧ r' = r) ∨
      d ≠ [] ∧ ∃ z, (d ++ l) ++ '\n' :: k = (l' ++ '\n' :: (k' ++ '\n' :: c'.text)) ++ z := by
  rcases Text.first_cases hl' heq with ⟨rfl, hbelow⟩ | ⟨w, hw, hbelow⟩
  · obtain ⟨rfl, hcall⟩ := Text.first_unique hk' hk hbelow
    obtain ⟨rfl, rfl⟩ := Call.text_append_inj hcall hr hr'
    exact .inl ⟨rfl, rfl, rfl, rfl⟩
  · -- the first line of the request ends within `d`
    right
    obtain ⟨t, rfl, rfl⟩ : ∃ t, d = l' ++ '\n' :: t ∧ w = t ++ l := by
      rcases Text.char_cases hw with h | ⟨w', _, hl_eq⟩
      · exact h
      · exact absurd (hl_eq ▸ by simp) hl
    refine ⟨by simp, ?_⟩
    have hprefix {p q : Text} (h : c'.text ++ r' = p ++ '\n' :: q) : c'.text <+: p :=
      (Text.prefix_append_cons c'.newline_notMem_text).mp ⟨r', h⟩
    rcases Text.first_cases hk' hbelow.symm with ⟨rfl, hcall⟩ | ⟨w', hw', hcall⟩
    · obtain ⟨z, rfl⟩ := hprefix hcall.symm
      exact ⟨z, by simp⟩
    · obtain ⟨z, rfl⟩ := hprefix hcall
      refine ⟨z ++ '\n' :: k, ?_⟩
      have hlines : (l' ++ '\n' :: t) ++ l = l' ++ '\n' :: (k' ++ '\n' :: (c'.text ++ z)) := by
        rw [List.append_assoc, List.cons_append, hw']
      rw [hlines]
      simp

/-- The first request is found alike with another text behind its address. -/
theorem find?_of_rest {before rest rest' : Text} {m : Match Part}
    (h : pattern.find? (before ++ (m.text ++ rest)) = some (before, m, rest))
    (hrest' : ∀ x ∈ rest'.head?, inPath x = false) :
    ∃ m', pattern.find? (before ++ (m.text ++ rest')) = some (before, m', rest') ∧
      ofMatch m' = ofMatch m := by
  obtain ⟨l, k, c, htext, hl, hk, hparts, _⟩ := exists_lines_of_find? h
  have hsome : pattern.find? (before ++ (m.text ++ rest')) ≠ none := fun hnone =>
    find?_eq_none_iff_takes.mp hnone before m.text rest' (by simp) (fits_of_find? h).takes
  obtain ⟨⟨b, m', r⟩, hfind⟩ := Option.ne_none_iff_exists'.mp hsome
  obtain ⟨l', k', c', htext', hl', hk', hparts', hr⟩ := exists_lines_of_find? hfind
  have hwhole : b ++ (m'.text ++ r) = before ++ (m.text ++ rest') := by
    rw [← List.append_assoc]
    exact text_of_find? hfind
  obtain ⟨d, rfl⟩ : b <+: before := List.prefix_of_prefix_length_le ⟨_, hwhole⟩ ⟨_, rfl⟩
    (find?_length_le hfind (fits_of_find? h).takes rfl)
  -- what is found now begins at `d`, and there it would have been found before
  have hfirst {z : Text} (hz : d ++ (m.text ++ rest) = m'.text ++ z) : d = [] := by
    have hlen := find?_length_le h (fits_of_find? hfind).takes (b := b) (r := z)
      (by rw [List.append_assoc, hz])
    rw [List.length_append] at hlen
    exact List.length_eq_zero_iff.mp (by omega)
  have heq : (d ++ l) ++ '\n' :: (k ++ '\n' :: (c.text ++ rest')) =
      l' ++ '\n' :: (k' ++ '\n' :: (c'.text ++ r)) := by
    rw [List.append_assoc] at hwhole
    simpa [htext, htext'] using (List.append_cancel_left hwhole).symm
  rcases request_cases hl hk hl' hk' hrest' hr heq with ⟨rfl, rfl, rfl, rfl⟩ | ⟨hne, z, hz⟩
  · obtain rfl : d = [] := hfirst (z := rest) (by simp [htext, htext'])
    refine ⟨m', by simpa using hfind, ?_⟩
    rw [hparts, hparts']
    rfl
  · refine absurd (hfirst (z := z ++ '\n' :: (c.text ++ rest)) ?_) hne
    rw [htext', ← List.append_assoc _ z, ← hz, htext]
    simp

/-- As far as a request that it finds, the pass does the same with any text behind the address. -/
theorem annotate_of_rest (names : Names) {s done : Text} {e : Text × Match Part}
    (he : e ∈ Cut.withBefore done (pattern.cut s).found) :
    ∃ a rest, e.1 = done ++ a ∧ s = a ++ (e.2.text ++ rest) ∧ ∃ x : Edited, ∀ rest' : Text,
      (∀ c ∈ rest'.head?, inPath c = false) → annotate names (a ++ (e.2.text ++ rest')) =
        x ++ (⟨(ofMatch e.2).annotated names, 1⟩ ++ annotate names rest') := by
  induction s using cut.induct pattern generalizing done with
  | case1 s h => simp [cut_of_find?_eq_none h, Cut.withBefore] at he
  | case2 s before m rest h hm => simp [cut_of_find?_eq_some_nil h hm, Cut.withBefore] at he
  | case3 s before m rest h hm ih =>
    obtain rfl : before ++ (m.text ++ rest) = s := by
      rw [← List.append_assoc]
      exact text_of_find? h
    have hfirst {rest' : Text} (hrest' : ∀ c ∈ rest'.head?, inPath c = false) :
        annotate names (before ++ (m.text ++ rest')) =
          ⟨before ++ (ofMatch m).annotated names, 1⟩ ++ annotate names rest' := by
      obtain ⟨m', hfind, hparts⟩ := find?_of_rest h hrest'
      rw [annotate, edit_of_find?_eq_some not_takes_nil _ hfind, hparts]
      rfl
    rw [cut_of_find?_eq_some h hm, Cut.withBefore, List.mem_cons] at he
    rcases he with rfl | he
    · refine ⟨before, rest, rfl, rfl, ⟨before, 0⟩, fun rest' hrest' => ?_⟩
      rw [hfirst hrest']
      ext1 <;> simp
    · obtain ⟨a, rest₁, hdone, rfl, x, hx⟩ := ih he
      obtain ⟨_, _, _, _, _, _, _, hhead⟩ := exists_lines_of_find? h
      refine ⟨before ++ (m.text ++ a), rest₁, by simp [hdone], by simp,
        ⟨before ++ (ofMatch m).annotated names, 1⟩ ++ x, fun rest' hrest' => ?_⟩
      have hne : e.2.text ≠ [] := fun hnil =>
        not_takes_nil (hnil ▸ (fits_of_mem_cut (Cut.mem_taken_of_mem_withBefore he)).takes)
      have hhead' : ∀ c ∈ (a ++ (e.2.text ++ rest')).head?, inPath c = false := by
        obtain ⟨d, t, hd⟩ := List.exists_cons_of_ne_nil (show a ++ e.2.text ≠ [] by simp [hne])
        rw [← List.append_assoc, hd] at hhead ⊢
        exact hhead
      have hassoc : (before ++ (m.text ++ a)) ++ (e.2.text ++ rest') =
          before ++ (m.text ++ (a ++ (e.2.text ++ rest'))) := by
        simp
      rw [hassoc, hfirst hhead', hx rest' hrest']
      ext1 <;> simp [Nat.add_assoc]

/-! ## The requests that are logged -/

theorem exists_call_of_mem_cut {s : Text} {m : Match Part} (h : m ∈ (pattern.cut s).taken) :
    ∃ c : Call, (ofMatch m).call = c.text := by
  obtain ⟨m₁, m₂, rfl, hm₁, hm₂⟩ := fits_append.mp (fits_of_mem_cut h)
  obtain ⟨c, rfl⟩ := fits_callPattern.mp hm₂
  exact ⟨c, by rw [ofMatch_append hm₁]⟩

/-- The request is logged with the method `GET`, whatever text stands behind its address. -/
def LogsGet (names : Names) (before : Text) (m : Match Part) : Prop :=
  let r := ofMatch m
  ∃ x : Edited, ∀ rest : Text, (∀ c ∈ rest.head?, inPath c = false) →
    annotate names (before ++ (m.text ++ rest)) =
      x ++ (⟨r.header ++ (Shell.command names.helper ["GET".toList, r.url] ++ r.call), 1⟩ ++
        annotate names rest)

/--
The words of a request that is logged are fixed as far as the address, and it is a request with the
method `GET` and without a body exactly if the options behind the address leave it so. The pass does
not look at them.
-/
theorem isPlainGet_iff (names : Names) {s : Text} {e : Text × Match Part}
    (he : e ∈ Cut.withBefore [] (pattern.cut s).found) :
    ∃ rest, s = e.1 ++ (e.2.text ++ rest) ∧ LogsGet names e.1 e.2 ∧
      ∃ front ∈ leadingWords, ∃ address options,
        (ofMatch e.2).words rest = front ++ address :: options ∧ CurlCall.urlOpening <+: address ∧
          (IsPlainGet ((ofMatch e.2).words rest) ↔ IsPlainGet options) := by
  obtain ⟨a, rest, hbefore, hs, x, hx⟩ := annotate_of_rest names he
  obtain rfl : e.1 = a := hbefore
  obtain ⟨c, hcall⟩ := exists_call_of_mem_cut (Cut.mem_taken_of_mem_withBefore he)
  obtain ⟨front, hfront, t, options, hwords⟩ := exists_words hcall rest
  refine ⟨rest, hs, ⟨x, fun rest' hrest' => ?_⟩, front, hfront, _, options, hwords,
    List.prefix_append _ t, ?_⟩
  · rw [hx rest' hrest', annotated, List.append_assoc]
    rfl
  · rw [hwords]
    exact isPlainGet_words hfront t options

/-! ## Requests with options behind the address -/

theorem inPath_of_mem_plainPath : ∀ c ∈ BodyRequest.plainCall.url.path, inPath c = true := by
  decide

theorem plainOption_mem : [] ∈ ["-X GET ".toList, []] := by
  decide

/-- A request without a body for the address of `BodyRequest.plainCall`, as far as the address. -/
def plainCall : Call where
  option := []
  url := { BodyRequest.plainCall.url with inPath_of_mem := inPath_of_mem_plainPath }
  option_mem := plainOption_mem

/-- A test case with this request and a text behind its address. -/
def scriptWith (rest : Text) : Text :=
  BodyRequest.plainHeader ++ (plainCall.text ++ rest)

/-- The request is found whatever stands behind its address. -/
theorem exists_mem_cut_scriptWith {rest : Text} (h : ∀ c ∈ rest.head?, inPath c = false) :
    ∃ e ∈ Cut.withBefore [] (pattern.cut (scriptWith rest)).found,
      scriptWith rest = e.1 ++ (e.2.text ++ rest) ∧
        ofMatch e.2 = ⟨BodyRequest.plainHeader, plainCall.text, plainCall.url.text⟩ := by
  have hplain : (pattern.find? (scriptWith [])).map (fun x => (x.1, ofMatch x.2.1, x.2.2)) =
      some ([], ⟨BodyRequest.plainHeader, plainCall.text, plainCall.url.text⟩, []) := by
    decide +kernel
  obtain ⟨⟨before, m, end'⟩, hfind, hx⟩ := Option.map_eq_some_iff.mp hplain
  simp only [Prod.mk.injEq] at hx
  obtain ⟨rfl, hparts, rfl⟩ := hx
  have htext : scriptWith [] = m.text := by simpa using (text_of_find? hfind).symm
  have hbase : pattern.find? ([] ++ (m.text ++ [])) = some ([], m, []) := by
    rw [List.nil_append, List.append_nil, ← htext]
    exact hfind
  obtain ⟨m', hfind', hparts'⟩ := find?_of_rest hbase h
  have hscript : [] ++ (m.text ++ rest) = scriptWith rest := by
    rw [← htext, scriptWith, scriptWith]
    simp
  rw [hscript] at hfind'
  have hne : m'.text ≠ [] := fun hnil => not_takes_nil (hnil ▸ (fits_of_find? hfind').takes)
  refine ⟨([], m'), ?_, (text_of_find? hfind').symm.trans (List.append_assoc _ _ _), ?_⟩
  · rw [cut_of_find?_eq_some hfind' hne]
    exact List.mem_cons_self
  · rw [hparts', hparts]

/-- Options that send a header and name the method `GET`. -/
def plainOptions : Text :=
  " \\\n-H \"X: -d y\" -X GET)\n".toList

theorem isPlainGet_scriptWith :
    ∃ e ∈ Cut.withBefore [] (pattern.cut (scriptWith plainOptions)).found,
      ∃ rest, scriptWith plainOptions = e.1 ++ (e.2.text ++ rest) ∧ LogsGet {} e.1 e.2 ∧
        ∃ front ∈ leadingWords, ∃ address options,
          (ofMatch e.2).words rest = front ++ address :: options ∧ IsPlainGet options := by
  have hhead : ∀ c ∈ plainOptions.head?, inPath c = false := by
    decide
  obtain ⟨e, he, hscript, hparts⟩ := exists_mem_cut_scriptWith hhead
  obtain ⟨rest, hrest, hlogs, front, hfront, address, options, hwords, _, hiff⟩ :=
    isPlainGet_iff {} he
  obtain rfl : rest = plainOptions :=
    List.append_cancel_left (List.append_cancel_left (hrest.symm.trans hscript))
  have hplain : IsPlainGet ((ofMatch e.2).words plainOptions) := by
    rw [hparts]
    decide +kernel
  exact ⟨e, he, plainOptions, hscript, hlogs, front, hfront, address, options, hwords,
    hiff.mp hplain⟩

/-- The option for a body on the line of the address. -/
def bodyOptions : Text :=
  " -d 'y')\n".toList

/-- The option for another method on a continuation line. -/
def methodOptions : Text :=
  " \\\n-X DELETE)\n".toList

/-- The request is logged with the method `GET`, and these options behind its address deny it. -/
def LoggedAgainst (options : Text) : Prop :=
  ∃ e ∈ Cut.withBefore [] (pattern.cut (scriptWith options)).found,
    scriptWith options = e.1 ++ (e.2.text ++ options) ∧
      ¬ IsPlainGet ((ofMatch e.2).words options) ∧
        (annotate {} (scriptWith options)).text = BodyRequest.plainHeader ++
          ("print_request \"GET\" \"$BASE_URL_A/x\"\n".toList ++ (plainCall.text ++ options))

theorem loggedAgainst {options : Text} (hhead : ∀ c ∈ options.head?, inPath c = false)
    (hwords : ¬ IsPlainGet
      (words ⟨BodyRequest.plainHeader, plainCall.text, plainCall.url.text⟩ options))
    (hlogged : (annotate {} (scriptWith options)).text = BodyRequest.plainHeader ++
      ("print_request \"GET\" \"$BASE_URL_A/x\"\n".toList ++ (plainCall.text ++ options))) :
    LoggedAgainst options := by
  obtain ⟨e, he, hscript, hparts⟩ := exists_mem_cut_scriptWith hhead
  exact ⟨e, he, hscript, hparts ▸ hwords, hlogged⟩

/-- What is logged with the method `GET` can have a body or another method. -/
theorem not_isPlainGet_scriptWith : LoggedAgainst bodyOptions ∧ LoggedAgainst methodOptions := by
  constructor
  · exact loggedAgainst (by decide) (by decide +kernel) (by decide +kernel)
  · exact loggedAgainst (by decide) (by decide +kernel) (by decide +kernel)

end CurlLog.BodilessRequest
