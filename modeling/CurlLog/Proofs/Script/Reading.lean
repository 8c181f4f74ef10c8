import CurlLog.Proofs.Pattern.Occurrences
import CurlLog.Proofs.Script.BodilessRequest

/-!
# Reading a line without patterns

Whether a line has a mark, prints a title or begins with a request can be read off it from left to
right: each run of letters or digits goes on as far as it can, and no choice is ever taken back.

* `TestCase.hasMark` and `TestCase.isTitle` read the two lines of a header (`hasMark_iff`,
  `isTitle_iff`).
* `BodilessRequest.address?` reads a request and gives its address (`address?_eq_some_iff`).
-/

namespace CurlLog

namespace Text

/-- The longest run of a class at the front, of one character at least, and what follows it. -/
def run? (inClass : Char → Bool) (s : Text) : Option (Text × Text) :=
  if s.takeWhile inClass = [] then none else some (s.takeWhile inClass, s.dropWhile inClass)

theorem run?_eq_some_iff {inClass : Char → Bool} {s t rest : Text} :
    run? inClass s = some (t, rest) ↔
      s = t ++ rest ∧ (t ≠ [] ∧ ∀ c ∈ t, inClass c = true) ∧
        ∀ c ∈ rest.head?, inClass c = false := by
  have hwhole := List.takeWhile_append_dropWhile (p := inClass) (l := s)
  have hclass : ∀ c ∈ s.takeWhile inClass, inClass c = true :=
    List.all_eq_true.mp List.all_takeWhile
  have hhead : ∀ c ∈ (s.dropWhile inClass).head?, inClass c = false := by
    intro c hc
    have := List.head?_dropWhile_not inClass s
    rw [Option.mem_def.mp hc] at this
    simpa using this
  rw [run?]
  constructor
  · intro h
    split at h
    · simp at h
    · next hne =>
      simp only [Option.some.injEq, Prod.mk.injEq] at h
      obtain ⟨rfl, rfl⟩ := h
      exact ⟨hwhole.symm, ⟨hne, hclass⟩, hhead⟩
  · rintro ⟨hs, ⟨hne, ht⟩, hrest⟩
    obtain ⟨htake, hdrop⟩ := Pattern.run_unique_of_head? (hwhole.trans hs) hclass ht hhead hrest
    rw [htake, hdrop, if_neg hne]

end Text

namespace TestCase

open Text

/-- What follows an identifier and a colon at the front of the text. -/
def afterId? (s : Text) : Option Text := do
  let s ← after? "TC-".toList s
  let (_, s) ← run? Char.isUpper s
  let s ← after? "-".toList s
  let (_, s) ← run? isDecimalDigit s
  after? ":".toList s

theorem afterId?_eq_some_iff {s rest : Text} :
    afterId? s = some rest ↔ ∃ i : Id, s = i.text ++ ':' :: rest := by
  simp only [afterId?, Option.bind_eq_bind, Option.bind_eq_some_iff, Prod.exists,
    after?_eq_some_iff, run?_eq_some_iff]
  constructor
  · rintro ⟨_, rfl, l, _, ⟨rfl, ⟨hl, hu⟩, _⟩, _, rfl, n, _, ⟨rfl, ⟨hn, hd⟩, _⟩, rfl⟩
    exact ⟨⟨l, n, hl, hn, hu, hd⟩, by simp [Id.text]⟩
  · rintro ⟨i, rfl⟩
    have hcolon : isDecimalDigit ':' = false := by decide
    refine ⟨i.letters ++ '-' :: (i.digits ++ ':' :: rest), by simp [Id.text], i.letters, _,
      ⟨rfl, ⟨i.letters_ne_nil, i.isUpper_of_mem⟩, by simp⟩, _, rfl, i.digits, _,
      ⟨rfl, ⟨i.digits_ne_nil, i.isDecimalDigit_of_mem⟩, by simpa using hcolon⟩, rfl⟩

theorem Id.mark_append (i : Id) (y : Text) : i.mark ++ y = "# ".toList ++ (i.text ++ ':' :: y) := by
  show ("# ".toList ++ (i.text ++ [':'])) ++ y = _
  rw [List.append_assoc, List.append_assoc, List.singleton_append]

theorem Id.title_append (i : Id) (y : Text) :
    i.title ++ y = "echo \">>> ".toList ++ (i.text ++ ':' :: y) := by
  show ("echo \">>> ".toList ++ (i.text ++ [':'])) ++ y = _
  rw [List.append_assoc, List.append_assoc, List.singleton_append]

/-- Whether a mark stands somewhere in the line. -/
def hasMark (l : Text) : Bool :=
  (suffixes l).any fun s => ((after? "# ".toList s).bind afterId?).isSome

/-- Whether the line prints a title: it ends with a quote, behind the colon of its identifier. -/
def isTitle (k : Text) : Bool :=
  ((after? "echo \">>> ".toList k).bind afterId?).any fun z => z.getLast? == some '"'

theorem hasMark_iff {l : Text} : hasMark l = true ↔ Marked l := by
  have hfront (s : Text) :
      ((after? "# ".toList s).bind afterId?).isSome = true ↔ BeginsMarked s := by
    simp only [Option.isSome_iff_exists, Option.bind_eq_some_iff, after?_eq_some_iff,
      afterId?_eq_some_iff]
    constructor
    · rintro ⟨y, _, rfl, i, rfl⟩
      exact ⟨i, y, (i.mark_append y).symm⟩
    · rintro ⟨i, y, rfl⟩
      exact ⟨y, _, i.mark_append y, i, rfl⟩
  simp only [hasMark, List.any_eq_true, mem_suffixes, hfront]
  constructor
  · rintro ⟨s, ⟨x, hl⟩, hs⟩
    exact ⟨x, s, hl, hs⟩
  · rintro ⟨x, s, hl, hs⟩
    exact ⟨s, ⟨x, hl⟩, hs⟩

theorem isTitle_iff {k : Text} : isTitle k = true ↔ Titled k := by
  simp only [isTitle, Option.any_eq_true, Option.bind_eq_some_iff, after?_eq_some_iff,
    afterId?_eq_some_iff, beq_iff_eq, List.getLast?_eq_some_iff]
  constructor
  · rintro ⟨_, ⟨_, rfl, i, rfl⟩, z, rfl⟩
    exact ⟨i, z, (i.title_append _).symm⟩
  · rintro ⟨i, z, rfl⟩
    exact ⟨z ++ ['"'], ⟨_, i.title_append _, i, rfl⟩, z, rfl⟩

end TestCase

namespace BodilessRequest

open Text

/-- The address of a request at the front of the line. The option for the method may be missing. -/
def address? (q : Text) : Option Text := do
  let s ← after? CurlCall.opening q
  let s ← after? CurlCall.urlOpening ((after? "-X GET ".toList s).getD s)
  let (service, s) ← run? Char.isUpper s
  let s ← after? "/".toList s
  let (path, _) ← run? inPath s
  some (CurlCall.urlOpening ++ (service ++ '/' :: path))

/-- The option is read wherever it stands, since no address begins like it. -/
theorem after?_option (c : Call) (r : Text) :
    (after? "-X GET ".toList (c.option ++ (c.url.text ++ r))).getD (c.option ++ (c.url.text ++ r)) =
      c.url.text ++ r := by
  have hoption := c.option_mem
  simp only [List.mem_cons, List.not_mem_nil, or_false] at hoption
  rcases hoption with h | h
  · rw [h, after?_append, Option.getD_some]
  · rw [h]
    rfl

/-- The address is that of the request whose address goes on as far as it can. -/
theorem address?_eq_some_iff {q u : Text} : address? q = some u ↔
    ∃ (c : Call) (r : Text), q = c.text ++ r ∧ (∀ x ∈ r.head?, inPath x = false) ∧
      u = c.url.text := by
  simp only [address?, Option.bind_eq_bind, Option.bind_eq_some_iff, Prod.exists,
    after?_eq_some_iff, run?_eq_some_iff, Option.some.injEq]
  constructor
  · rintro ⟨s, rfl, _, hurl, service, _, ⟨rfl, ⟨hs, hservice⟩, _⟩, _, rfl, path, r,
      ⟨rfl, ⟨hp, hpath⟩, hr⟩, rfl⟩
    obtain ⟨option, hmem, hoption⟩ : ∃ o ∈ ["-X GET ".toList, []],
        s = o ++ (after? "-X GET ".toList s).getD s := by
      cases h : after? "-X GET ".toList s with
      | some s' => exact ⟨_, List.mem_cons_self, after?_eq_some_iff.mp h⟩
      | none => exact ⟨[], by simp, rfl⟩
    refine ⟨⟨option, ⟨service, path, hs, hp, hservice, hpath⟩, hmem⟩, r, ?_, hr, rfl⟩
    rw [hoption, hurl]
    simp [Call.text, CurlCall.Url.text]
  · rintro ⟨c, r, rfl, hr, rfl⟩
    refine ⟨c.option ++ (c.url.text ++ r), by simp [Call.text],
      c.url.service ++ '/' :: (c.url.path ++ r), ?_, c.url.service, '/' :: (c.url.path ++ r),
      ⟨rfl, ⟨c.url.service_ne_nil, c.url.isUpper_of_mem⟩, by simp⟩, c.url.path ++ r, rfl,
      c.url.path, r, ⟨rfl, ⟨c.url.path_ne_nil, c.url.inPath_of_mem⟩, hr⟩, rfl⟩
    rw [after?_option]
    simp [CurlCall.Url.text]

end BodilessRequest

end CurlLog
