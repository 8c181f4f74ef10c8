import CurlLog.Proofs.Rewriting
import CurlLog.Proofs.Script.Block

/-!
# Requests with a body, block by block

The pass over requests with a body begins a match in the first header that it finds, and the gap of
that header may run over other test cases. What it changes is known from the request alone, so
blocks without a request with a body are passed over (`Idle`), and the pass goes on behind each
request.

Only the end of a request depends on what follows it. A body that ends like the text before a body
(`BodyCase.Leaks`) is taken for a part of the gap as soon as another quote stands behind it. Where
that does not happen (`Block.Tight`) the pass goes over the blocks one by one
(`Block.annotate_source`), and where it does the text behind the request is moved into the variable
(`Block.annotate_of_leaks`).
-/

namespace CurlLog

open Pattern BodyRequest

/-! ## Requests with a body -/

/-- No request with a body begins at the start of a line, whatever follows. -/
def Idle (x : Text) : Prop :=
  ∀ p q z, x = p ++ q → q ≠ [] → Text.WholeLines p → ¬ OpensCall (q ++ z)

theorem idle_nil : Idle [] := by
  intro p q z h hq _ _
  exact hq (List.append_eq_nil_iff.mp h.symm).2

theorem Idle.append {x y : Text} (hx : Idle x) (hy : Idle y) : Idle (x ++ y) := by
  intro p q z h hq hp
  rcases List.append_eq_append_iff.mp h with ⟨t, rfl, rfl⟩ | ⟨t, rfl, rfl⟩
  · exact hy t q z rfl hq hp.of_append
  · by_cases ht : t = []
    · subst ht
      exact hy [] y z rfl hq Text.wholeLines_nil
    · rw [List.append_assoc]
      exact hx p t (y ++ z) rfl ht hp

theorem Idle.free {x : Text} (h : Idle x) (z : Text) : Free x z :=
  fun p q hx hq hp => h p q z hx hq hp.wholeLines

/-- A line is idle if no request begins at its start. -/
theorem idle_line {l : Text} (hl : '\n' ∉ l) (h : ∀ z, ¬ OpensCall (l ++ '\n' :: z)) :
    Idle (l ++ ['\n']) := by
  intro p q z heq hq hp hopens
  rcases hp with rfl | ⟨t, rfl⟩
  · obtain rfl : l ++ ['\n'] = q := heq
    exact h z (by simpa using hopens)
  · -- the only line end is the last character
    rw [List.append_assoc] at heq
    rcases Text.first_cases hl heq.symm with ⟨_, hnil⟩ | ⟨w, _, hnil⟩
    · exact hq hnil
    · simp at hnil

theorem not_opensCall_of_ne {d : Char} (hd : d ≠ 'R') (z : Text) : ¬ OpensCall (d :: z) := by
  rintro ⟨l, y, h, _⟩
  obtain ⟨t, ht⟩ := l.text_cons
  rw [ht] at h
  exact hd (List.head_eq_of_cons_eq h)

theorem idle_cons {d : Char} (hd : d ≠ 'R') {l : Text} (hl : '\n' ∉ d :: l) :
    Idle (d :: l ++ ['\n']) :=
  idle_line hl fun _ => not_opensCall_of_ne hd _

namespace Header

theorem newline_notMem_markLine (h : Header) : '\n' ∉ h.markLine := by
  rw [markLine, List.mem_append, not_or]
  exact ⟨h.id.newline_notMem_mark, h.newline_notMem_remark⟩

theorem newline_notMem_titleLine (h : Header) : '\n' ∉ h.titleLine := by
  rw [titleLine, List.mem_append, List.mem_append, not_or, not_or]
  exact ⟨h.titleId.newline_notMem_title, h.newline_notMem_title, by decide⟩

theorem markLine_cons (h : Header) : ∃ t, h.markLine = '#' :: t :=
  ⟨_, rfl⟩

theorem titleLine_cons (h : Header) : ∃ t, h.titleLine = 'e' :: t := by
  obtain ⟨t, ht⟩ := h.titleId.title_cons
  rw [titleLine, ht]
  exact ⟨_, rfl⟩

theorem text_eq (h : Header) : h.text = (h.markLine ++ ['\n']) ++ (h.titleLine ++ ['\n']) := by
  rw [text, List.append_assoc]
  rfl

theorem wholeLines_append (h : Header) (x : Text) : Text.WholeLines (x ++ h.text) := by
  rw [text_eq, ← List.append_assoc, ← List.append_assoc]
  exact Text.wholeLines_append_newline _

theorem wholeLines (h : Header) : Text.WholeLines h.text :=
  h.wholeLines_append []

theorem idle (h : Header) : Idle h.text := by
  obtain ⟨t, ht⟩ := h.markLine_cons
  obtain ⟨u, hu⟩ := h.titleLine_cons
  have hmark : Idle (h.markLine ++ ['\n']) := by
    have hnewline := h.newline_notMem_markLine
    rw [ht] at hnewline ⊢
    exact idle_cons (by decide) hnewline
  have htitle : Idle (h.titleLine ++ ['\n']) := by
    have hnewline := h.newline_notMem_titleLine
    rw [hu] at hnewline ⊢
    exact idle_cons (by decide) hnewline
  rw [text_eq]
  exact hmark.append htitle

theorem armed (h : Header) (x : Text) : Armed (x ++ h.text) := by
  refine ⟨x, h.text, rfl, TestCase.spells_header.mpr
    ⟨h.id, h.titleId, h.remark, h.title, ?_, fun _ _ => rfl, fun _ _ => rfl⟩⟩
  simp [text, markLine, titleLine]

end Header

theorem idle_close : Idle [')', '\n'] :=
  idle_cons (d := ')') (l := []) (by decide) (by decide)

theorem BodilessCase.idle (b : BodilessCase) : Idle b.text := by
  have hcall : Idle (b.call.text ++ [')'] ++ ['\n']) := by
    refine idle_line ?_ fun z => ?_
    · rw [List.mem_append, not_or]
      exact ⟨b.call.newline_notMem_text, by decide⟩
    · rw [List.append_assoc]
      exact BodilessRequest.not_opensCall_call b.call _
  rw [List.append_assoc] at hcall
  exact b.header.idle.append hcall

namespace Success

theorem indent_cons : indent = ' ' :: "   ".toList := by
  decide

theorem newline_notMem_indent : '\n' ∉ indent := by
  decide

theorem newline_notMem_message (s : Success) :
    '\n' ∉ indent ++ SuccessMessage.message s.id SuccessMessage.plainClosing := by
  rw [List.mem_append, not_or]
  exact ⟨newline_notMem_indent, SuccessMessage.newline_notMem_message s.id⟩

/-- A line of the block, which begins with a blank. -/
theorem idle_indent {l : Text} (hl : '\n' ∉ indent ++ l) : Idle (indent ++ l ++ ['\n']) := by
  rw [indent_cons] at hl ⊢
  exact idle_cons (by decide) hl

theorem idle_printing (s : Success) : Idle s.printing := by
  unfold printing
  split
  · have hfilter : filter = " .".toList ++ ['\n'] := by decide
    have hline : '\n' ∉ indent ++ (ResponseLabel.bodyCommand ++ " .".toList) := by decide
    rw [ResponseLabel.printing, hfilter, ← List.append_assoc, List.append_assoc indent]
    exact idle_indent hline
  · exact idle_nil

theorem text_eq (s : Success) : s.text =
    (indent ++ SuccessMessage.message s.id SuccessMessage.plainClosing ++ ['\n']) ++
      ((indent ++ ResponseLabel.counting ++ ['\n']) ++ s.printing) := by
  rw [text, textWith]
  simp only [List.append_assoc, List.cons_append, List.nil_append]

theorem idle (s : Success) : Idle s.text := by
  have hcounting : '\n' ∉ indent ++ ResponseLabel.counting := by decide
  rw [text_eq]
  exact (idle_indent s.newline_notMem_message).append
    ((idle_indent hcounting).append s.idle_printing)

end Success

theorem Filler.idle (f : Filler) : Idle f.text := by
  refine idle_line f.newline_notMem fun z => ?_
  rintro ⟨l, y, h, _⟩
  have hcommand : '\n' ∉ "RESPONSE=$(curl".toList := by decide
  have hprefix : "RESPONSE=$(curl".toList <+: f.line ++ '\n' :: z := by
    obtain ⟨w, hw⟩ : ∃ w, CurlCall.opening = "RESPONSE=$(curl".toList ++ w :=
      ⟨" -s -w \"\\n%\x7bhttp_code\x7d\" ".toList, by decide⟩
    rw [h, Lead.text, hw, List.append_assoc, List.append_assoc]
    exact List.prefix_append _ _
  have hinfix := ((Text.prefix_append_cons hcommand).mp hprefix).isInfix
  exact absurd (Text.occurs_iff_infix.mpr hinfix) (ne_true_of_eq_false f.command_notIn)

/-! ## The body that a request ends in -/

/-- The body ends like the text before a body, and no parenthesis stops the gap before that. -/
def BodyCase.Leaks (b : BodyCase) : Prop :=
  '\n' :: options <:+ b.body ∧ ')' ∉ b.body

instance (b : BodyCase) : Decidable b.Leaks :=
  inferInstanceAs (Decidable (_ ∧ _))

/--
Another body that can be read behind the address begins behind the quote that closes the body of the
request, and the body leaks.
-/
theorem BodyCase.other_body (b : BodyCase) {v z rest : Text} (hne : v ≠ []) (hparen : ')' ∉ v)
    (heq : bodyOpening ++ (b.body ++ '\'' :: ')' :: rest) = v ++ (bodyOpening ++ z)) :
    b.Leaks ∧ z = ')' :: rest := by
  have hk : '\'' ∉ '\n' :: options := by decide
  have hk' : ')' ∉ '\n' :: options := by decide
  rw [bodyOpening_eq_options] at heq
  have heq : (v ++ '\n' :: options) ++ '\'' :: z =
      ('\n' :: options) ++ '\'' :: (b.body ++ '\'' :: ')' :: rest) := by
    simpa using heq.symm
  have hv : ')' ∉ v ++ '\n' :: options := by
    rw [List.mem_append, not_or]
    exact ⟨hparen, hk'⟩
  -- the quote before the other body is the one behind this body
  rcases Text.first_cases hk heq with ⟨hnil, _⟩ | ⟨w, hw, heq⟩
  · exact absurd (by simpa using hnil) hne
  rw [hw] at hv
  rcases Text.first_cases b.quote_notMem_body heq.symm with ⟨rfl, rfl⟩ | ⟨w', rfl, hclose⟩
  · have hsuffix : '\n' :: options <:+ '\'' :: b.body := by
      have hlong : '\n' :: options <:+ ('\n' :: options) ++ '\'' :: b.body := ⟨v, hw⟩
      rcases List.suffix_or_suffix_of_suffix hlong (List.suffix_append _ _) with h | h
      · exact h
      · exact absurd (h.subset (by simp)) hk
    refine ⟨⟨?_, fun hmem => hv (by simp [hmem])⟩, rfl⟩
    rcases List.suffix_cons_iff.mp hsuffix with heq | h
    · exact absurd (heq ▸ by simp) hk
    · exact h
  · obtain _ | ⟨c, w'⟩ := w'
    · exact absurd (List.head_eq_of_cons_eq hclose) (by decide)
    · obtain rfl : ')' = c := List.head_eq_of_cons_eq hclose
      exact absurd (by simp) hv

/-- The address of the request is not read further than its end. -/
theorem BodyCase.address_end (b : BodyCase) {t y r : Text} (hne : t ≠ [])
    (heq : b.call.tail ++ r = t ++ y) : ∃ x ∈ t, isBlank x = true := by
  obtain ⟨d, t, rfl⟩ := List.exists_cons_of_ne_nil hne
  obtain rfl : ' ' = d := List.head_eq_of_cons_eq heq
  exact ⟨' ', by simp, by decide⟩

/-- The reading of a request that ends with its own body is the widest if the body does not leak. -/
theorem BodyCase.widest (b : BodyCase) {rest : Text} (h : b.Leaks → '\'' ∉ rest) :
    b.call.Widest (')' :: '\n' :: rest) := by
  constructor
  · intro t y heq hne ht _
    obtain ⟨x, hx, hblank⟩ := b.address_end hne heq
    simpa [hblank] using ht x hx
  · rintro ⟨v, z, heq, hne, hparen, hquoted⟩
    obtain ⟨hleaks, rfl⟩ := b.other_body hne hparen heq
    have hmem := hquoted.2
    simp only [List.mem_cons] at hmem
    exact h hleaks ((hmem.resolve_left (by decide)).resolve_left (by decide))

theorem BodyCase.bodyFollows_of_leaks (b : BodyCase) {rest : Text} (hleaks : b.Leaks)
    (hquote : '\'' ∈ rest) :
    BodyFollows (bodyOpening ++ (b.body ++ '\'' :: ')' :: rest)) := by
  obtain ⟨⟨w, hw⟩, hparen⟩ := hleaks
  have hopening : bodyOpening ≠ [] := by decide
  have hk : ')' ∉ bodyOpening := by decide
  refine ⟨bodyOpening ++ w, ')' :: rest, ?_, by simp [hopening], ?_, by simp, by simp [hquote]⟩
  · rw [← hw, bodyOpening_eq_options]
    simp
  · rw [← hw, List.mem_append, not_or] at hparen
    simp [hk, hparen.1]

/-- If there is a quote behind a body that leaks, the body that is read begins behind it. -/
theorem BodyCase.exists_call_of_leaks (b : BodyCase) {rest : Text} (hleaks : b.Leaks)
    (hquote : '\'' ∈ rest) : ∃ (c : Call) (r t : Text),
      b.call.text ++ ')' :: rest = c.text ++ r ∧ c.Widest r ∧ c.body = ')' :: t := by
  have hfollows := b.bodyFollows_of_leaks hleaks hquote
  have hopens : OpensCall (b.call.text ++ ')' :: rest) :=
    ⟨b.call.toLead, _, by rw [Call.text, List.append_assoc], b.call.bodyFollows_tail _⟩
  obtain ⟨⟨m, r⟩, hm⟩ := Option.ne_none_iff_exists'.mp (match?_call_ne_none_iff.mpr hopens)
  obtain ⟨c, _, heq, hc⟩ := match?_call_sound hm
  have hcalls := heq
  rw [Call.text, Call.text, List.append_assoc, List.append_assoc] at heq
  obtain ⟨_, _, heq⟩ := Lead.text_append_inj heq
  -- both readings have the whole address
  have htail : b.call.tail ++ ')' :: rest = c.tail ++ r := by
    rcases List.append_eq_append_iff.mp heq with ⟨t, ht, htail⟩ | ⟨t, ht, htail⟩
    · by_cases hne : t = []
      · rwa [hne] at htail
      · obtain ⟨x, hx, hblank⟩ := b.address_end hne htail
        have hin := c.url.inPath_of_mem x (by simp [ht, hx])
        simp [hblank] at hin
    · have hle := hc.path_le heq.symm
      rw [ht, List.length_append] at hle
      rw [List.length_eq_zero_iff.mp (show t.length = 0 by omega)] at htail
      exact htail.symm
  have hle := hc.gap_le htail.symm
  have hbody : b.call.body = b.body := rfl
  simp only [Call.tail, List.append_assoc, List.cons_append, List.nil_append, hbody] at htail
  rcases List.append_eq_append_iff.mp htail with ⟨v, hv, htail⟩ | ⟨v, hv, htail⟩
  · have hne : v ≠ [] := by
      rintro rfl
      rw [htail] at hfollows
      exact hc.gap hfollows
    have hparen : ')' ∉ v := fun hmem => c.paren_notMem_gap (by simp [hv, hmem])
    obtain ⟨_, hz⟩ := b.other_body hne hparen htail
    obtain ⟨d, t, ht⟩ := List.exists_cons_of_ne_nil c.body_ne_nil
    rw [ht] at hz
    obtain rfl : d = ')' := List.head_eq_of_cons_eq hz
    exact ⟨c, r, t, hcalls, hc, ht⟩
  · rw [hv, List.length_append] at hle
    rw [List.length_eq_zero_iff.mp (show v.length = 0 by omega), List.nil_append] at htail
    rw [← htail] at hfollows
    exact absurd hfollows hc.gap

/-! ## The pass over requests with a body -/

namespace Block

/-- A body that leaks has no quote behind it. -/
def Tight (blocks : List Block) : Prop :=
  ∀ l b r, blocks = l ++ bodyCase b :: r → b.Leaks → '\'' ∉ source r

theorem tight_of_not_leaks {blocks : List Block} (h : ∀ b, bodyCase b ∈ blocks → ¬ b.Leaks) :
    Tight blocks :=
  fun l b r hr hleaks => absurd hleaks (h b (by simp [hr]))

theorem tight_singleton (b : Block) : Tight [b] := by
  intro l c r h _ hmem
  have hlen := congrArg List.length h
  simp only [List.length_append, List.length_cons, List.length_nil] at hlen
  obtain rfl : r = [] := List.length_eq_zero_iff.mp (by omega)
  simp at hmem

theorem quote_mem_text (b : BodyCase) : '\'' ∈ (bodyCase b).text := by
  have hmem : '\'' ∈ b.call.text := by
    rw [Call.text_eq_front]
    simp [Shell.singleQuoted]
  simp [text, BodyCase.text, hmem]

/-- The first body that leaks has a quote behind it, if there is such a body at all. -/
theorem exists_of_not_tight {blocks : List Block} (h : ¬ Tight blocks) :
    ∃ l b r, blocks = l ++ bodyCase b :: r ∧ b.Leaks ∧ '\'' ∈ source r ∧
      ∀ c, bodyCase c ∈ l → ¬ c.Leaks := by
  induction blocks with
  | nil =>
    refine absurd (fun l b r hnil => ?_) h
    simp at hnil
  | cons block blocks ih =>
    by_cases hfirst : ∃ b, block = bodyCase b ∧ b.Leaks ∧ '\'' ∈ source blocks
    · obtain ⟨b, rfl, hleaks, hquote⟩ := hfirst
      exact ⟨[], b, blocks, rfl, hleaks, hquote, by simp⟩
    · have htail : ¬ Tight blocks := by
        intro htight
        refine h fun l b r hr hleaks hquote => ?_
        obtain _ | ⟨d, l⟩ := l
        · obtain ⟨rfl, rfl⟩ := List.cons.inj hr
          exact hfirst ⟨b, rfl, hleaks, hquote⟩
        · obtain ⟨rfl, rfl⟩ := List.cons.inj hr
          exact htight l b r rfl hleaks hquote
      obtain ⟨l, b, r, rfl, hleaks, hquote, hl⟩ := ih htail
      refine ⟨block :: l, b, r, rfl, hleaks, hquote, fun c hc hc' => ?_⟩
      rcases List.mem_cons.mp hc with rfl | hc
      · -- the body has its own quotes behind it
        have hmem : '\'' ∈ source (l ++ bodyCase b :: r) := by
          rw [source, List.map_append, List.flatten_append, List.map_cons, List.flatten_cons]
          simp [quote_mem_text b]
        exact hfirst ⟨c, rfl, hc', hmem⟩
      · exact hl c hc hc'

/-- The block after the pass over requests with a body. -/
def withVariable (names : Names) : Block → Edited
  | bodyCase b =>
    ⟨b.header.text ++ (b.call.inserted names ++ (b.call.front ++
      (options ++ Shell.variableWord names.bodyVar)) ++ [')', '\n']), 1⟩
  | block => ⟨block.text, 0⟩

end Block

theorem BodyCase.count_quote (b : BodyCase) : b.call.text.count '\'' = 2 := by
  have hmethod : ∀ w ∈ methods, '\'' ∉ w := by decide
  have hservice : '\'' ∉ b.address.service := fun h =>
    absurd (b.address.isUpper_of_mem _ h) (by decide)
  have hpath : '\'' ∉ b.address.path := fun h => by
    simpa using (b.address.inPath_of_mem _ h).2
  have hopening : '\'' ∉ CurlCall.opening := by decide
  have hoption : '\'' ∉ "-X ".toList := by decide
  have hurlOpening : '\'' ∉ CurlCall.urlOpening := by decide
  have hgap : '\'' ∉ " \\".toList := by decide
  have hoptions : '\'' ∉ options := by decide
  have hurl : '\'' ∉ b.call.url.text := by
    simp only [CurlCall.Url.text, List.mem_append, List.mem_cons, not_or]
    exact ⟨hurlOpening, hservice, by decide, hpath⟩
  have hfront : '\'' ∉ b.call.front ++ options := by
    simp only [Call.front, Lead.text, List.mem_append, List.mem_cons, List.not_mem_nil, or_false,
      not_or]
    exact ⟨⟨⟨hopening, hoption, hmethod _ b.method_mem, by decide, hurl⟩, hgap, by decide⟩,
      hoptions⟩
  rw [b.call.count_quote, List.count_eq_zero.mpr hfront]

/--
The pass goes over blocks one by one, whatever it makes of the text `z` behind them, if no body that
leaks has a quote behind it.
-/
theorem annotate_source_append (names : Names) {z : Text} {e : Edited}
    (hz : ∀ x, Idle x → BodyRequest.annotate names (x ++ z) = ⟨x, 0⟩ ++ e) {x : Text} (hx : Idle x)
    {blocks : List Block} (h : ∀ l b r, blocks = l ++ .bodyCase b :: r → b.Leaks →
      '\'' ∉ Block.source r ++ z) :
    BodyRequest.annotate names (x ++ (Block.source blocks ++ z)) =
      ⟨x, 0⟩ ++ (Edited.join (blocks.map (Block.withVariable names)) ++ e) := by
  induction blocks generalizing x with
  | nil =>
    rw [List.map_nil, Edited.join_nil, Edited.nil_append]
    exact hz x hx
  | cons block blocks ih =>
    have htail : ∀ l b r, blocks = l ++ .bodyCase b :: r → b.Leaks → '\'' ∉ Block.source r ++ z :=
      fun l c r hr => h (block :: l) c r (by rw [hr]; rfl)
    have idle (ht : Idle block.text) (hblock : block.withVariable names = ⟨block.text, 0⟩) :
        BodyRequest.annotate names (x ++ (Block.source (block :: blocks) ++ z)) =
          ⟨x, 0⟩ ++ (Edited.join ((block :: blocks).map (Block.withVariable names)) ++ e) := by
      rw [Block.source_cons, List.append_assoc, ← List.append_assoc, ih (hx.append ht) htail,
        List.map_cons, Edited.join_cons, hblock]
      ext1 <;> simp
    cases block with
    | bodyCase b =>
      have hnext : nextCall (x ++ (Block.source (.bodyCase b :: blocks) ++ z)) =
          some (x ++ b.header.text, b.call.toMatch, [')', '\n'] ++ (Block.source blocks ++ z)) := by
        refine nextCall_eq_some_iff_free.mpr ⟨?_, b.header.armed x, ?_, ?_⟩
        · simp [Block.source_cons, Block.text, BodyCase.text]
        · exact b.widest fun hleaks => h [] b blocks rfl hleaks
        · exact (hx.append b.header.idle).free _
      rw [annotate_of_nextCall names hnext, ih idle_close htail,
        Call.rewritten_request b.count_quote, List.map_cons, Edited.join_cons]
      ext1 <;> simp [Block.withVariable, Nat.add_assoc]
    | bodilessCase b => exact idle b.idle rfl
    | success s => exact idle s.idle rfl
    | filler f => exact idle f.idle rfl

namespace Block

variable (names : Names)

/-- The pass over requests with a body goes over a script block by block. -/
theorem annotate_source {blocks : List Block} (h : Tight blocks) :
    BodyRequest.annotate names (source blocks) = Edited.join (blocks.map (withVariable names)) := by
  have hnil (x : Text) (hx : Idle x) :
      BodyRequest.annotate names (x ++ []) = ⟨x, 0⟩ ++ (⟨[], 0⟩ : Edited) := by
    rw [List.append_nil, annotate_of_nextCall_eq_none (nextCall_eq_none_iff_free.mpr (hx.free []))]
    ext1 <;> simp
  have hbodies :=
    @annotate_source_append names _ _ hnil _ idle_nil blocks (by simpa [Tight] using h)
  rw [List.nil_append, List.append_nil] at hbodies
  rw [hbodies]
  ext1 <;> simp

theorem annotate_text (block : Block) :
    BodyRequest.annotate names block.text = block.withVariable names := by
  have h := annotate_source names (tight_singleton block)
  rw [source_cons, source_nil, List.append_nil] at h
  rw [h]
  ext1 <;> simp [Edited.join]

/-- Where a body leaks, another body is moved into the variable. -/
theorem annotate_of_leaks {l r : List Block} {b : BodyCase} (hl : ∀ c, bodyCase c ∈ l → ¬ c.Leaks)
    (hleaks : b.Leaks) (hquote : '\'' ∈ source r) :
    ∃ t, (BodyRequest.annotate names (source (l ++ bodyCase b :: r))).text =
      (Edited.join (l.map (withVariable names))).text ++
        (b.header.text ++ (names.bodyVar ++ '=' :: '\'' :: ')' :: t)) := by
  have hrest : '\'' ∈ '\n' :: source r := by simp [hquote]
  obtain ⟨c, y, t, hcalls, hc, hbody⟩ := b.exists_call_of_leaks hleaks hrest
  have hbehind (x : Text) (hx : Idle x) :
      BodyRequest.annotate names (x ++ (b.header.text ++ (c.text ++ y))) = ⟨x, 0⟩ ++
        (⟨b.header.text ++ (c.request []).rewritten names, 1⟩ ++ BodyRequest.annotate names y) := by
    have hnext : nextCall (x ++ (b.header.text ++ (c.text ++ y))) =
        some (x ++ b.header.text, c.toMatch, y) := by
      refine nextCall_eq_some_iff_free.mpr ⟨by simp, b.header.armed x, hc, ?_⟩
      exact (hx.append b.header.idle).free _
    rw [annotate_of_nextCall names hnext]
    ext1 <;> simp
  have hsource : source (l ++ bodyCase b :: r) =
      source l ++ (b.header.text ++ (c.text ++ y)) := by
    rw [← hcalls]
    simp [source, text, BodyCase.text]
  have hbodies := @annotate_source_append names _ _ hbehind _ idle_nil l fun l' c r' h hc' =>
    absurd hc' (hl c (by simp [h]))
  rw [List.nil_append, Edited.nil_append] at hbodies
  refine ⟨t ++ '\'' :: '\n' ::
    (Shell.command names.helper [c.method, c.url.text, '$' :: names.bodyVar] ++
      ((c.request []).callWithVariable names ++ (BodyRequest.annotate names y).text)), ?_⟩
  rw [hsource, hbodies]
  simp [rewritten, assignment, logLine, Shell.assignment, Shell.singleQuoted, Call.request, hbody]

end Block

end CurlLog
