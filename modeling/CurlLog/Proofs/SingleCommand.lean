import CurlLog.Proofs.Selection

/-!
# Whether a logged request is one command

The line that logs a request names the method and the address that the match began with, and the
variable holds the body that it ended with. Both belong to one command only if the match did not
leave it. `SingleCommand` says so on the text of the request, and `singleCommand_iff` gives the
exact condition: the word of the address may not hold a parenthesis, something has to stand between
that word and the options, and no second command may begin before the body.
-/

namespace CurlLog.BodyRequest

open Pattern

/-- How a command begins whose answer is kept. -/
def commandOpening : Text :=
  "RESPONSE=$(curl".toList

/-- What stands between the beginning of a command and its method. -/
def optionsOpening : Text :=
  " -s -w \"\\n%\x7bhttp_code\x7d\" -X ".toList

/-- The options that stand before the body. -/
def contentOption : Text :=
  "\n-H \"Content-Type: application/json\" \\\n".toList

/-- The option with the body. -/
def bodyOption (r : BodyRequest) : Text :=
  "-d ".toList ++ Shell.singleQuoted r.body

/-- `v` stands between the beginning of the request and its body. -/
def Between (r : BodyRequest) (v : Text) : Prop :=
  r.call = commandOpening ++ (v ++ r.bodyOption)

/-- The request is one command, and the address is a whole word of it. -/
structure SingleCommand (r : BodyRequest) : Prop where
  /-- Before the body the command neither ends nor begins again. -/
  inside : ∃ v, r.Between v ∧ ')' ∉ v ∧ Text.occurs commandOpening v = false
  /-- White space or a backslash follows the address. -/
  whole : ∃ d y,
    r.call = commandOpening ++ (optionsOpening ++ (r.method ++ ' ' :: (r.url ++ d :: y))) ∧
      (isBlank d = true ∨ d = '\\')

/-! ## The condition -/

/-- A character that the word of an address can have. -/
def isAddressChar (c : Char) : Bool :=
  !isBlank c && c != '\\'

/-- What follows the method. -/
def arguments (r : BodyRequest) : Text :=
  r.call.drop (commandOpening ++ (optionsOpening ++ (r.method ++ [' ']))).length

/-- The word that begins with the address. -/
def addressWord (r : BodyRequest) : Text :=
  r.arguments.takeWhile isAddressChar

/-- What follows that word. -/
def afterAddress (r : BodyRequest) : Text :=
  r.arguments.dropWhile isAddressChar

theorem opening_eq : CurlCall.opening ++ "-X ".toList = commandOpening ++ optionsOpening := by
  decide

theorem bodyOpening_eq : bodyOpening = contentOption ++ "-d '".toList := by
  decide

theorem paren_notMem_optionsOpening : ')' ∉ optionsOpening := by
  decide

theorem paren_notMem_contentOption : ')' ∉ contentOption := by
  decide

theorem paren_notMem_of_mem_methods {w : Text} (h : w ∈ methods) : ')' ∉ w := by
  revert w
  decide

section

variable {c : Call} {h : Text}

theorem call_request : (c.request h).call =
    commandOpening ++ (optionsOpening ++ (c.method ++ ' ' ::
      (c.url.text ++ (c.gap ++ (contentOption ++ (c.request h).bodyOption))))) := by
  have hopening (x : Text) : CurlCall.opening ++ ("-X ".toList ++ x) =
      commandOpening ++ (optionsOpening ++ x) := by
    rw [← List.append_assoc, opening_eq, List.append_assoc]
  simp only [Call.request, Call.text, Lead.text, Call.tail, bodyOpening_eq, bodyOption,
    Shell.singleQuoted, List.append_assoc, List.cons_append, hopening]
  rfl

theorem arguments_request : (c.request h).arguments =
    c.url.text ++ (c.gap ++ (contentOption ++ (c.request h).bodyOption)) := by
  rw [arguments, call_request]
  have hassoc (x : Text) : commandOpening ++ (optionsOpening ++ (c.method ++ ' ' :: x)) =
      (commandOpening ++ (optionsOpening ++ (c.method ++ [' ']))) ++ x := by
    simp only [List.append_assoc, List.cons_append, List.nil_append]
  rw [hassoc]
  exact List.drop_left

theorem between_iff {v : Text} : (c.request h).Between v ↔
    v = optionsOpening ++ (c.method ++ ' ' :: (c.url.text ++ (c.gap ++ contentOption))) := by
  rw [Between, call_request]
  constructor
  · intro heq
    have heq := List.append_cancel_left heq
    rw [← List.append_cancel_right_eq v (c.request h).bodyOption, ← heq]
    simp only [List.append_assoc, List.cons_append]
  · rintro rfl
    simp only [List.append_assoc, List.cons_append]

theorem isAddressChar_url : ∀ x ∈ c.url.text, isAddressChar x = true := by
  intro x hx
  have hblank := c.url.isBlank_of_mem x hx
  have hslash : x ≠ '\\' := by
    rintro rfl
    exact c.url.stop_notMem (by decide) (by decide) (by decide) hx
  simpa [isAddressChar, hblank] using hslash

/-- The word goes on after the address as far as the gap has such characters. -/
theorem word_of_gap {t : Text} {d : Char} {g : Text} (hgap : c.gap = t ++ d :: g)
    (ht : ∀ x ∈ t, isAddressChar x = true) (hd : isAddressChar d = false) :
    (c.request h).addressWord = c.url.text ++ t ∧
      (c.request h).afterAddress = d :: (g ++ (contentOption ++ (c.request h).bodyOption)) := by
  have hall : ∀ x ∈ c.url.text ++ t, isAddressChar x = true := by
    intro x hx
    rcases List.mem_append.mp hx with hx | hx
    · exact isAddressChar_url x hx
    · exact ht x hx
  have harg : (c.request h).arguments =
      (c.url.text ++ t) ++ d :: (g ++ (contentOption ++ (c.request h).bodyOption)) := by
    rw [arguments_request, hgap]
    simp only [List.append_assoc, List.cons_append]
  have hneg : ¬ isAddressChar d = true := by simp [hd]
  rw [addressWord, afterAddress, harg, List.takeWhile_append_of_pos hall,
    List.dropWhile_append_of_pos hall, List.takeWhile_cons_of_neg hneg,
    List.dropWhile_cons_of_neg hneg, List.append_nil]
  exact ⟨rfl, rfl⟩

/-- A gap of address characters alone belongs to the word, and the options follow at once. -/
theorem afterAddress_of_all (hall : ∀ x ∈ c.gap, isAddressChar x = true) :
    (c.request h).afterAddress = contentOption ++ (c.request h).bodyOption := by
  have harg : (c.request h).arguments =
      (c.url.text ++ c.gap) ++ (contentOption ++ (c.request h).bodyOption) := by
    rw [arguments_request, List.append_assoc]
  rw [afterAddress, harg, List.dropWhile_append_of_pos]
  · exact List.dropWhile_cons_of_neg (by decide)
  · intro x hx
    rcases List.mem_append.mp hx with hx | hx
    · exact isAddressChar_url x hx
    · exact hall x hx

/-- The widest reading leaves no address character to a gap that has others. -/
theorem Call.Widest.gap_begins {rest t : Text} {d : Char} {g : Text} (hc : c.Widest rest)
    (hgap : c.gap = t ++ d :: g) (ht : ∀ x ∈ t, isAddressChar x = true) : t = [] := by
  refine Classical.byContradiction fun hne => ?_
  refine hc.url t (d :: g ++ (bodyOpening ++ (c.body ++ '\'' :: rest))) ?_ hne ht ?_
  · simp [Call.tail, hgap]
  · refine ⟨d :: g, _, rfl, by simp, fun hmem => c.paren_notMem_gap ?_, ?_⟩
    · rw [hgap]
      exact List.mem_append_right t hmem
    · exact quoted_iff.mpr ⟨_, _, rfl, c.body_ne_nil, c.quote_notMem_body⟩

/-- What stands before the body holds a parenthesis only if the address does. -/
theorem paren_mem_between {v : Text} (hv : (c.request h).Between v) :
    ')' ∈ v ↔ ')' ∈ c.url.text := by
  obtain rfl := between_iff.mp hv
  have hmethod := paren_notMem_of_mem_methods c.method_mem
  simp [paren_notMem_optionsOpening, paren_notMem_contentOption, hmethod, c.paren_notMem_gap]

/-- The address is a whole word exactly if no address character follows it. -/
theorem whole_iff {d : Char} {g : Text} (hgap : c.gap = d :: g) :
    (∃ e y, (c.request h).call =
      commandOpening ++ (optionsOpening ++ (c.method ++ ' ' :: (c.url.text ++ e :: y))) ∧
        (isBlank e = true ∨ e = '\\')) ↔ isAddressChar d = false := by
  have hchar (e : Char) : (isBlank e = true ∨ e = '\\') ↔ isAddressChar e = false := by
    cases he : isBlank e <;> simp [isAddressChar, he]
  simp only [hchar]
  constructor
  · rintro ⟨e, y, heq, he⟩
    rw [call_request, hgap] at heq
    simp only [List.append_cancel_left_eq, List.cons_append, List.cons.injEq, true_and] at heq
    rw [heq.1, he]
  · intro hd
    refine ⟨d, g ++ (contentOption ++ (c.request h).bodyOption), ?_, hd⟩
    rw [call_request, hgap, List.cons_append]

/-- The request of the widest reading is one command exactly under three conditions on its text. -/
theorem Call.Widest.singleCommand_request_iff {rest : Text} (hc : c.Widest rest) :
    (c.request h).SingleCommand ↔
      ')' ∉ (c.request h).addressWord ∧
        (c.request h).afterAddress ≠ contentOption ++ (c.request h).bodyOption ∧
          ∀ v, (c.request h).Between v → Text.occurs commandOpening v = false := by
  cases hfind : c.gap.find? (fun x => !isAddressChar x) with
  | none =>
    -- the gap belongs to the word, and the address has lost its end to it
    have hall : ∀ x ∈ c.gap, isAddressChar x = true := by simpa using hfind
    refine iff_of_false (fun hs => ?_) (fun hs => hs.2.1 (afterAddress_of_all hall))
    obtain ⟨d, g, hgap⟩ := List.exists_cons_of_ne_nil c.gap_ne_nil
    have hd : isAddressChar d = true := hall d (by simp [hgap])
    simp [(whole_iff hgap).mp hs.whole] at hd
  | some d =>
    obtain ⟨hd, t, g, hgap, ht⟩ := List.find?_eq_some_iff_append.mp hfind
    have hd : isAddressChar d = false := by simpa using hd
    have ht : ∀ x ∈ t, isAddressChar x = true := by simpa using ht
    obtain rfl := hc.gap_begins hgap ht
    obtain ⟨hword, hafter⟩ := word_of_gap (h := h) hgap ht hd
    have hgap_cons : c.gap = d :: g := hgap
    rw [hword, hafter, List.append_nil]
    constructor
    · rintro ⟨⟨v, hv, hparen, hsecond⟩, _⟩
      refine ⟨fun hmem => hparen ((paren_mem_between hv).mpr hmem), fun heq => ?_, fun w hw => ?_⟩
      · have hlen := congrArg List.length heq
        simp only [List.length_cons, List.length_append] at hlen
        omega
      · rwa [between_iff.mp hw, ← between_iff.mp hv]
    · rintro ⟨hparen, _, hsecond⟩
      have hv := between_iff (c := c) (h := h).mpr rfl
      exact ⟨⟨_, hv, fun hmem => hparen ((paren_mem_between hv).mp hmem), hsecond _ hv⟩,
        (whole_iff hgap_cons).mpr hd⟩

end

/--
A request that the pass edits is one command exactly if the word of its address holds no
parenthesis, something stands between that word and the options, and no second command begins
before the body.
-/
theorem singleCommand_iff {s : Text} {m : Match Part} (hm : m ∈ (pattern.cut s).taken) :
    (ofMatch m).SingleCommand ↔
      ')' ∉ (ofMatch m).addressWord ∧
        (ofMatch m).afterAddress ≠ contentOption ++ (ofMatch m).bodyOption ∧
          ∀ v, (ofMatch m).Between v → Text.occurs commandOpening v = false := by
  obtain ⟨c, rest, hrequest, hwidest⟩ := exists_call_of_mem_cut hm
  rw [hrequest]
  exact hwidest.singleCommand_request_iff

/-- The header of a test case without a title. -/
def plainHeader : Text :=
  "# TC-A-1:\necho \">>> TC-A-1:\"\n".toList

/-- A request with a body of one character. -/
def plainCall : Call where
  method := "POST".toList
  url := ⟨['A'], ['x'], by decide, by decide, by decide, by decide⟩
  method_mem := by decide
  gap := " \\".toList
  body := ['y']
  gap_ne_nil := lineEnd_ne_nil
  paren_notMem_gap := paren_notMem_lineEnd
  body_ne_nil := by decide
  quote_notMem_body := by decide

/-- A test case with this request. -/
def plainScript : Text :=
  plainHeader ++ (plainCall.text ++ [')', '\n'])

theorem singleCommand_plainScript :
    ∃ m ∈ (pattern.cut plainScript).taken, (ofMatch m).SingleCommand := by
  have htaken : (pattern.cut plainScript).taken.map ofMatch = [plainCall.request plainHeader] := by
    rw [← scan_eq_cut]
    decide +kernel
  obtain ⟨m, hm, hrequest⟩ : ∃ m ∈ (pattern.cut plainScript).taken,
      ofMatch m = plainCall.request plainHeader :=
    List.mem_map.mp (htaken ▸ List.mem_singleton.mpr rfl)
  refine ⟨m, hm, (singleCommand_iff hm).mpr ?_⟩
  rw [hrequest]
  refine ⟨by decide +kernel, by decide +kernel, fun v hv => ?_⟩
  rw [between_iff.mp hv]
  decide +kernel

/-- How a request without a body begins. -/
def bodylessLead : Lead where
  method := "DELETE".toList
  url := ⟨['A'], ['w'], by decide, by decide, by decide, by decide⟩
  method_mem := by decide

/-- A test case whose request has no body, and after it one whose request has. -/
def bodylessScript : Text :=
  plainHeader ++ (bodylessLead.text ++ ')' :: '\n' :: plainScript)

/-- The body of the second request is logged with the method and the address of the first. -/
theorem not_singleCommand_bodylessScript :
    ∃ m ∈ (pattern.cut bodylessScript).taken, ¬ (ofMatch m).SingleCommand ∧
      (ofMatch m).method = bodylessLead.method ∧
        (ofMatch m).url = bodylessLead.url.text ++ [')'] ∧ (ofMatch m).body = plainCall.body := by
  have htaken : (pattern.cut bodylessScript).taken.map
      (fun m => ((ofMatch m).method, (ofMatch m).url, (ofMatch m).body)) =
        [(bodylessLead.method, bodylessLead.url.text ++ [')'], plainCall.body)] := by
    rw [← scan_eq_cut]
    decide +kernel
  obtain ⟨m, hm, hread⟩ := List.mem_map.mp (htaken ▸ List.mem_singleton.mpr rfl)
  simp only [Prod.mk.injEq] at hread
  obtain ⟨hmethod, hurl, hbody⟩ := hread
  obtain ⟨c, rest, hrequest, hwidest⟩ := exists_call_of_mem_cut hm
  refine ⟨m, hm, ?_, hmethod, hurl, hbody⟩
  rw [hrequest]
  rintro ⟨⟨v, hv, hparen, _⟩, _⟩
  refine hparen ((paren_mem_between hv).mpr ?_)
  have hc : c.url.text = bodylessLead.url.text ++ [')'] := by
    rw [← hurl, hrequest]
    rfl
  simp [hc]

end CurlLog.BodyRequest
