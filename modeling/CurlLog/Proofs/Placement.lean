import CurlLog.Proofs.LogLines
import CurlLog.Proofs.Selection

/-!
# Requests with a body among new lines

The gaps of a request with a body and of its header may run over requests without a body, and then
the lines that log those come to stand inside them. They change nothing about which requests with a
body are found: a text ends with a header with the new lines exactly if it does without them
(`LogStep.armed_iff`), a body that follows with them follows without them (`LogStep.bodyFollows`),
and no new place for a request comes up (`Free.logs_left`, `Free.logs_right`).
-/

namespace CurlLog

open Pattern TestCase

namespace BodyRequest

/-! ## Headers -/

/-- A mark stands before a line that begins with a title. -/
def Headed (a : Text) : Prop :=
  ∃ (i j : Id) (p q : Text), a = p ++ '\n' :: q ∧ i.mark <:+: p ∧ j.title <+: q

/-- A header ends with a quote and a line end, behind a mark and a title. -/
theorem armed_iff {a : Text} : Armed a ↔ ['"', '\n'] <:+ a ∧ Headed a := by
  constructor
  · rintro ⟨x, _, rfl, h⟩
    obtain ⟨i, j, y, z, rfl, _⟩ := spells_header.mp h
    refine ⟨⟨x ++ (i.mark ++ (y ++ '\n' :: (j.title ++ z))), by simp⟩, i, j,
      x ++ (i.mark ++ y), j.title ++ (z ++ ['"', '\n']), by simp, ⟨x, y, by simp⟩,
      List.prefix_append _ _⟩
  · rintro ⟨⟨e, he⟩, i, j, _, _, rfl, ⟨x, y, rfl⟩, w, rfl⟩
    -- the title ends with a colon, so the quote and the line end stand behind it
    obtain ⟨t, ht⟩ := j.title_eq
    have hlast (u : Text) (d : Char) (hd : d ≠ ':') :
        x ++ (i.mark ++ y) ++ '\n' :: j.title ≠ u ++ [d] := by
      intro h
      rw [ht, ← List.cons_append, ← List.append_assoc] at h
      exact hd (by simpa using (List.append_inj' h rfl).2.symm)
    have hend : (x ++ (i.mark ++ y) ++ '\n' :: j.title) ++ w = (e ++ ['"']) ++ ['\n'] := by
      simpa using he.symm
    obtain ⟨w, rfl, hw⟩ := Text.last_cases hend
      fun h => hlast (e ++ ['"']) '\n' (by decide) (by simpa [h] using hend)
    obtain ⟨z, rfl, _⟩ := Text.last_cases hw
      fun h => hlast e '"' (by decide) (by simpa [h] using hw)
    refine ⟨x, _, ?_, spells_header.mpr ⟨i, j, y, z, rfl, ?_, ?_⟩⟩ <;> simp

/-! ## Places for a request -/

/-- No request begins in `a` behind a header, if `b` follows. -/
def Free (a b : Text) : Prop :=
  ∀ p q, a = p ++ q → q ≠ [] → Armed p → ¬ OpensCall (q ++ b)

theorem not_opensCall_nil : ¬ OpensCall [] := by
  rintro ⟨l, y, h, _⟩
  have hopening : CurlCall.opening ≠ [] := by decide
  simp [Lead.text, hopening] at h

theorem nextCall_eq_none_iff_free {s : Text} : nextCall s = none ↔ Free s [] := by
  rw [nextCall_eq_none_iff]
  constructor
  · intro h p q hs _ hp hq
    rw [List.append_nil] at hq
    exact match?_call_ne_none_iff.mpr hq (h p q hs hp)
  · intro h p q hs hp
    refine Classical.byContradiction fun hq => ?_
    have hopens := match?_call_ne_none_iff.mp hq
    refine h p q hs ?_ hp (by rwa [List.append_nil])
    rintro rfl
    exact not_opensCall_nil hopens

/-- A round ends in a request if a header stands before it and no request begins earlier. -/
theorem nextCall_eq_some_iff_free {s a rest : Text} {c : Call} :
    nextCall s = some (a, c.toMatch, rest) ↔
      s = a ++ (c.text ++ rest) ∧ Armed a ∧ c.Widest rest ∧ Free a (c.text ++ rest) := by
  rw [nextCall_eq_some_iff, c.text_toMatch]
  have hmatch : callPattern.match? (c.text ++ rest) = some (c.toMatch, rest) ↔ c.Widest rest := by
    rw [match?_call_eq_some_iff]
    constructor
    · rintro ⟨c', hc, _, hwidest⟩
      rwa [c.toMatch_injective hc]
    · exact fun hwidest => ⟨c, rfl, rfl, hwidest⟩
  rw [hmatch]
  refine and_congr_right fun hs => and_congr_right fun _ => and_congr_right fun _ => ?_
  constructor
  · rintro h p q rfl hq hp hopens
    have hle := h p (q ++ (c.text ++ rest)) (by simp [hs]) hp (match?_call_ne_none_iff.mpr hopens)
    have hlen := List.length_pos_iff.mpr hq
    simp only [List.length_append] at hle
    omega
  · intro h p q hpq hp hq
    refine Nat.not_lt.mp fun hlt => ?_
    rcases List.append_eq_append_iff.mp (hs.symm.trans hpq) with ⟨w, rfl, _⟩ | ⟨w, rfl, rfl⟩
    · simp only [List.length_append] at hlt
      omega
    · refine h p w rfl ?_ hp (match?_call_ne_none_iff.mp hq)
      rintro rfl
      simp at hlt

theorem Armed.wholeLines {a : Text} (h : Armed a) : Text.WholeLines a := by
  obtain ⟨e, rfl⟩ := (armed_iff.mp h).1
  rw [List.append_cons]
  exact Text.wholeLines_append_newline _

end BodyRequest

namespace BodilessRequest

open BodyRequest (Armed BodyFollows Free Headed)

variable {names : Names} {s t : Text}

/-- No title begins like a request or like the line that logs it. -/
theorem not_title_prefix_call (j : Id) (c : Call) (r : Text) : ¬ j.title <+: c.text ++ r := by
  rintro ⟨z, hz⟩
  obtain ⟨u, hu⟩ := c.text_cons
  obtain ⟨v, hv⟩ := j.title_cons
  rw [hu, hv, List.cons_append, List.cons_append] at hz
  exact absurd (List.head_eq_of_cons_eq hz) (by decide)

theorem not_title_prefix_logLine (hhelper : Shell.IsIdentifier names.helper) (j : Id) (c : Call)
    (r : Text) : ¬ j.title <+: c.logLine names ++ r := by
  rintro ⟨z, hz⟩
  obtain ⟨u, hu⟩ := logLine_eq names c
  obtain ⟨v, hv⟩ := j.title_cons
  have hz : names.helper ++ ' ' :: ('"' :: 'G' :: (u ++ r)) =
      ['e', 'c', 'h', 'o'] ++ ' ' :: ('"' :: '>' :: (v ++ z)) := by
    rw [hu, hv] at hz
    simpa using hz.symm
  obtain ⟨_, htail⟩ := Text.first_unique (by decide) (hhelper.notMem (by decide)) hz
  exact absurd (List.head_eq_of_cons_eq (List.tail_eq_of_cons_eq htail)) (by decide)

theorem LogStep.headed (h : LogStep names s t) (hs : Headed s) : Headed t := by
  obtain ⟨a, c, r⟩ := h
  obtain ⟨i, j, p, q, heq, hi, hj⟩ := hs
  rcases Text.char_cases heq.symm with ⟨w, rfl, hw⟩ | ⟨w, rfl, hw⟩
  · -- the mark stands before the place of the new line, or between it and the title
    refine ⟨i, j, a ++ '\n' :: (c.logLine names ++ w), q, by simp [hw], ?_, hj⟩
    rw [Text.infix_append_cons i.newline_notMem_mark] at hi ⊢
    rcases hi with hi | hi
    · exact Or.inl hi
    · exact Or.inr (hi.trans (List.suffix_append _ w).isInfix)
  · obtain _ | ⟨d, w⟩ := w
    · obtain rfl : q = c.text ++ r := List.tail_eq_of_cons_eq hw
      exact absurd hj (not_title_prefix_call j c r)
    · obtain ⟨rfl, rfl⟩ : '\n' = d ∧ q = w ++ '\n' :: (c.text ++ r) := by simpa using hw
      rw [Text.prefix_append_cons j.newline_notMem_title] at hj
      exact ⟨i, j, p, w ++ '\n' :: (c.logLine names ++ (c.text ++ r)), by simp, hi,
        hj.trans (List.prefix_append _ _)⟩

theorem LogStep.headed_of (hhelper : Shell.IsIdentifier names.helper) (h : LogStep names s t)
    (ht : Headed t) : Headed s := by
  obtain ⟨a, c, r⟩ := h
  obtain ⟨i, j, p, q, heq, hi, hj⟩ := ht
  rcases Text.char_cases heq.symm with ⟨w, rfl, hw⟩ | ⟨w, rfl, hw⟩
  · -- the title stands behind the new line, and the mark is not in it
    obtain ⟨l, hline, hl⟩ := logLine_newline hhelper c
    rw [hline, List.append_assoc] at hw
    rcases Text.first_cases hl hw.symm with ⟨_, rfl⟩ | ⟨w', rfl, hw'⟩
    · exact absurd hj (not_title_prefix_call j c r)
    · have hbelow : c.text ++ r = w' ++ '\n' :: q := hw'
      refine ⟨i, j, a ++ '\n' :: w', q, by simp [hbelow], ?_, hj⟩
      rw [Text.infix_append_cons i.newline_notMem_mark,
        Text.infix_append_cons i.newline_notMem_mark] at hi
      rw [Text.infix_append_cons i.newline_notMem_mark]
      rcases hi with hi | hi | hi
      · exact Or.inl hi
      · refine absurd (hi.trans ?_) (mark_not_infix_logLine hhelper c i)
        exact hline ▸ (List.prefix_append l ['\n']).isInfix
      · exact Or.inr hi
  · obtain _ | ⟨d, w⟩ := w
    · obtain rfl : q = c.logLine names ++ (c.text ++ r) := List.tail_eq_of_cons_eq hw
      exact absurd hj (not_title_prefix_logLine hhelper j c _)
    · obtain ⟨rfl, rfl⟩ : '\n' = d ∧ q = w ++ '\n' :: (c.logLine names ++ (c.text ++ r)) := by
        simpa using hw
      rw [Text.prefix_append_cons j.newline_notMem_title] at hj
      exact ⟨i, j, p, w ++ '\n' :: (c.text ++ r), by simp, hi, hj.trans (List.prefix_append _ _)⟩

/-- A new line does not change whether the text ends with a header. -/
theorem LogStep.armed_iff (hhelper : Shell.IsIdentifier names.helper) (h : LogStep names s t) :
    Armed t ↔ Armed s := by
  have hend : ['"', '\n'] <:+ t ↔ ['"', '\n'] <:+ s := h.suffix_iff (by decide)
  rw [BodyRequest.armed_iff, BodyRequest.armed_iff, hend]
  exact and_congr_right fun _ => ⟨h.headed_of hhelper, h.headed⟩

/-! ## Bodies -/

/-- The options before a body stand on two lines, which both begin with a hyphen. -/
theorem bodyOpening_eq :
    ∃ k k', BodyRequest.bodyOpening = '\n' :: (('-' :: k) ++ '\n' :: '-' :: k') ∧
      '\n' ∉ '-' :: k ∧ '\n' ∉ '-' :: k' :=
  ⟨"H \"Content-Type: application/json\" \\".toList, "d '".toList, by decide, by decide, by decide⟩

/-- A line that does not begin with a hyphen begins behind the options. -/
theorem eq_bodyOpening_append {e : Char} (he : e ≠ '-') {w z b : Text}
    (h : BodyRequest.bodyOpening ++ z = w ++ '\n' :: e :: b) :
    ∃ w', w = BodyRequest.bodyOpening ++ w' ∧ z = w' ++ '\n' :: e :: b := by
  rcases Text.char_cases h with ⟨t, ht, heq⟩ | hbehind
  · -- the two lines of the options are the only ones that begin inside
    obtain ⟨k, k', hopening, hk, hk'⟩ := bodyOpening_eq
    have hminus : ∃ u, t = '-' :: u := by
      rw [hopening] at ht
      rcases Text.first_cases (p := []) (by simp) ht.symm with ⟨_, rfl⟩ | ⟨w₁, _, hw₁⟩
      · exact ⟨_, rfl⟩
      · rcases Text.first_cases hk hw₁.symm with ⟨_, rfl⟩ | ⟨w₂, _, hw₂⟩
        · exact ⟨_, rfl⟩
        · exact absurd (hw₂ ▸ by simp) hk'
    obtain ⟨u, rfl⟩ := hminus
    exact absurd (List.head_eq_of_cons_eq heq) he
  · exact hbehind

/-- A body that follows after a new line was added followed before. -/
theorem LogStep.bodyFollows (hhelper : Shell.IsIdentifier names.helper) (h : LogStep names s t)
    (ht : BodyFollows t) : BodyFollows s := by
  obtain ⟨a, c, r⟩ := h
  obtain ⟨v, z, heq, hne, hparen, hhead, hmem⟩ := ht
  rcases Text.char_cases heq.symm with ⟨w, rfl, hw⟩ | ⟨w, rfl, hw⟩
  · -- the options stand behind the new line
    obtain ⟨l, hline, hl⟩ := logLine_newline hhelper c
    obtain ⟨u, hu⟩ := c.text_cons
    obtain ⟨k, k', hopening, _⟩ := bodyOpening_eq
    have hsplit : w ++ '\n' :: ('-' :: k ++ '\n' :: '-' :: k' ++ z) =
        l ++ '\n' :: (c.text ++ r) := by
      rw [hline, hopening] at hw
      simpa using hw.symm
    rcases Text.first_cases hl hsplit with ⟨_, hcall⟩ | ⟨w', rfl, hw'⟩
    · rw [hu] at hcall
      exact absurd (List.head_eq_of_cons_eq hcall) (by decide)
    · refine ⟨a ++ '\n' :: w', z, by simp [hw', hopening], by simp, ?_, hhead, hmem⟩
      simp only [List.mem_append, List.mem_cons, not_or] at hparen ⊢
      exact ⟨hparen.1, hparen.2.1, hparen.2.2.2.2⟩
  · -- the new line stands behind the options
    obtain ⟨d, l, hline, _, hd⟩ := logLine_cons hhelper c
    have hsplit : BodyRequest.bodyOpening ++ z = w ++ '\n' :: d :: (l ++ (c.text ++ r)) := by
      rw [hw, hline]
      rfl
    obtain ⟨w', rfl, rfl⟩ := eq_bodyOpening_append hd hsplit
    have hz : w' ++ '\n' :: d :: (l ++ (c.text ++ r)) =
        w' ++ '\n' :: (c.logLine names ++ (c.text ++ r)) := by
      rw [hline]
      rfl
    rw [hz] at hhead hmem
    refine ⟨v, w' ++ '\n' :: (c.text ++ r), by simp, hne, hparen, ?_, ?_⟩
    · cases w' with
      | nil => exact hhead
      | cons e w' => exact hhead
    · refine Classical.byContradiction fun hs => ?_
      exact (LogStep.mk w' c r).notMem (by decide) (hhelper.notMem (by decide)) hs hmem

/-- A request with a body that is there after a new line was added was there before. -/
theorem LogStep.opensCall (hhelper : Shell.IsIdentifier names.helper) (h : LogStep names s t)
    (ht : BodyRequest.OpensCall t) : BodyRequest.OpensCall s := by
  obtain ⟨l, y, rfl, hy⟩ := ht
  obtain ⟨y', rfl, hstep⟩ := h.eq_append_left l.newline_notMem_text
  exact ⟨l, y', rfl, hstep.bodyFollows hhelper hy⟩

theorem Logs.bodyFollows (hhelper : Shell.IsIdentifier names.helper) (h : Logs names s t)
    (ht : BodyFollows t) : BodyFollows s := by
  induction h with
  | refl => exact ht
  | tail _ hstep ih => exact ih (hstep.bodyFollows hhelper ht)

theorem Logs.armed_iff (hhelper : Shell.IsIdentifier names.helper) (h : Logs names s t) :
    Armed t ↔ Armed s := by
  induction h with
  | refl => rfl
  | tail _ hstep ih => rw [hstep.armed_iff hhelper, ih]

/-! ## Places for a request with a body -/

/-- A request with a body and one without differ in their methods. -/
theorem lead_append_ne_call (l : BodyRequest.Lead) (y : Text) (c : Call) (r : Text) :
    l.text ++ y ≠ c.text ++ r := by
  intro h
  simp only [Call.text, BodyRequest.Lead.text, List.append_assoc, List.append_cancel_left_eq] at h
  have hmethod : ∀ w ∈ BodyRequest.methods, ∃ d u, w = d :: u ∧ d ≠ 'G' := by
    simp [BodyRequest.methods]
  obtain ⟨d, u, hd, hne⟩ := hmethod _ l.method_mem
  have hoption := c.option_mem
  simp only [List.mem_cons, List.not_mem_nil, or_false] at hoption
  rcases hoption with hoption | hoption
  · have hget : "-X GET ".toList = "-X ".toList ++ 'G' :: "ET ".toList := by decide
    rw [hoption, hget, List.append_assoc, hd] at h
    have h := List.append_cancel_left h
    exact hne (List.head_eq_of_cons_eq h)
  · rw [hoption] at h
    exact absurd (List.head_eq_of_cons_eq h) (by decide)

theorem not_opensCall_call (c : Call) (r : Text) : ¬ BodyRequest.OpensCall (c.text ++ r) := by
  rintro ⟨l, y, h, _⟩
  exact lead_append_ne_call l y c r h.symm

/-- The line that logs a request is none itself. -/
theorem not_opensCall_logLine (hhelper : Shell.IsIdentifier names.helper) (c : Call) (z : Text) :
    ¬ BodyRequest.OpensCall (c.logLine names ++ z) := by
  rintro ⟨l, y, h, _⟩
  obtain ⟨u, hu⟩ := logLine_eq names c
  have hopening : ∃ w, CurlCall.opening = "RESPONSE=$(curl".toList ++ ' ' :: w :=
    ⟨"-s -w \"\\n%\x7bhttp_code\x7d\" ".toList, by decide⟩
  obtain ⟨w, hw⟩ := hopening
  have hcommand : ' ' ∉ "RESPONSE=$(curl".toList := by decide
  rw [BodyRequest.Lead.text, hw, hu, List.append_assoc, List.append_assoc, List.append_assoc] at h
  obtain ⟨hname, _⟩ := Text.first_unique hcommand (hhelper.notMem (by decide)) h
  have hmem : '=' ∈ names.helper := by
    rw [hname]
    decide
  exact hhelper.notMem (by decide) hmem

theorem LogStep.free_left (hhelper : Shell.IsIdentifier names.helper) (h : LogStep names s t)
    {b : Text} (hs : Free s b) : Free t b := by
  obtain ⟨a, c, r⟩ := h
  intro p q heq hq hp hopens
  obtain ⟨e, rfl⟩ := (BodyRequest.armed_iff.mp hp).1
  have hline : (e ++ ['"']) ++ '\n' :: q = a ++ '\n' :: (c.logLine names ++ (c.text ++ r)) := by
    simp [heq]
  rcases Text.char_cases hline with ⟨w, hw, hbelow⟩ | ⟨w, rfl, hw⟩
  · -- the header ends in the new line or behind it
    obtain ⟨l, hl, hnewline⟩ := logLine_newline hhelper c
    have hend : w ++ '\n' :: q = l ++ '\n' :: (c.text ++ r) := by
      rw [← hbelow, hl, List.append_assoc]
      rfl
    rcases Text.first_cases hnewline hend with ⟨_, rfl⟩ | ⟨w', rfl, hcall⟩
    · rw [List.append_assoc] at hopens
      exact not_opensCall_call c (r ++ b) hopens
    · rcases Text.char_cases hcall with ⟨_, ht, _⟩ | ⟨w, rfl, rfl⟩
      · exact c.newline_notMem_text (by simp [ht])
      · have hstep : LogStep names (a ++ '\n' :: (c.text ++ (w ++ ['\n']))) (e ++ ['"', '\n']) := by
          have hp : e ++ ['"', '\n'] =
              a ++ '\n' :: (c.logLine names ++ (c.text ++ (w ++ ['\n']))) := by
            rw [List.append_cons, hw, hl]
            simp
          rw [hp]
          exact .mk a c _
        exact hs _ q (by simp) hq ((hstep.armed_iff hhelper).mp hp) hopens
  · -- the header ends before the new line
    obtain _ | ⟨d, w⟩ := w
    · obtain rfl : q = c.logLine names ++ (c.text ++ r) := List.tail_eq_of_cons_eq hw
      rw [List.append_assoc] at hopens
      exact not_opensCall_logLine hhelper c _ hopens
    · obtain ⟨rfl, rfl⟩ : '\n' = d ∧ q = w ++ '\n' :: (c.logLine names ++ (c.text ++ r)) := by
        simpa using hw
      have hstep : LogStep names _ _ := (LogStep.mk w c r).append_right b
      exact hs _ (w ++ '\n' :: (c.text ++ r)) (by simp) (by simp) hp
        (hstep.opensCall hhelper hopens)

theorem LogStep.free_right (hhelper : Shell.IsIdentifier names.helper) (h : LogStep names s t)
    {a : Text} (hs : Free a s) : Free a t :=
  fun p q heq hq hp hopens => hs p q heq hq hp ((h.append_left q).opensCall hhelper hopens)

/-- New lines make no place for a request with a body. -/
theorem Logs.free (hhelper : Shell.IsIdentifier names.helper) {a a' : Text}
    (ha : Logs names a a') (hs : Logs names s t) (h : Free a s) : Free a' t := by
  have hleft : Free a' s := by
    induction ha with
    | refl => exact h
    | tail _ hstep ih => exact hstep.free_left hhelper ih
  induction hs with
  | refl => exact hleft
  | tail _ hstep ih => exact hstep.free_right hhelper ih

/-- The widest reading of a request is the widest with the new lines in its gap and behind it. -/
theorem Logs.widest (hhelper : Shell.IsIdentifier names.helper) {c c' : BodyRequest.Call}
    (h : c.Widest s) (hbody : c'.body = c.body) (htail : Logs names (c.tail ++ s) (c'.tail ++ t))
    (hrest : Logs names s t) : c'.Widest t := by
  constructor
  · intro x y heq hne hx hfollows
    rw [heq] at htail
    have hnewline : '\n' ∉ x := fun hmem => absurd (hx _ hmem) (by decide)
    obtain ⟨y', heq', hlogs⟩ := htail.eq_append_left hnewline
    exact h.url x y' heq' hne hx (hlogs.bodyFollows hhelper hfollows)
  · intro hfollows
    refine h.gap ?_
    have hlogs := hrest.append_left (BodyRequest.bodyOpening ++ (c.body ++ ['\'']))
    simp only [List.append_assoc, List.cons_append, List.nil_append] at hlogs
    rw [hbody] at hfollows
    exact hlogs.bodyFollows hhelper hfollows

end BodilessRequest

end CurlLog
