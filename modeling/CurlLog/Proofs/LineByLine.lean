import CurlLog.Proofs.Script.Reading
import CurlLog.Proofs.SecondRun
import Mathlib.Data.List.Defs

/-!
# Requests without a body, line by line

`annotateLines` says without patterns what becomes of requests without a body: the text is split at
its line ends, and before a line that begins with a request stands a line that logs it, if the two
lines before have a mark and print a title. The pass does the same
(`annotate_eq_annotateLines`), as long as each mark stands behind white space. Without this an
address that ends in a number sign could take the first character of a mark.
-/

namespace CurlLog

namespace Text

/-! ## Splitting at line ends -/

/-- The lines as they stand below another line: with a line end before each. -/
def linesBelow (ls : List Text) : Text :=
  ls.flatMap ('\n' :: ·)

@[simp] theorem linesBelow_nil : linesBelow [] = [] := rfl

@[simp] theorem linesBelow_cons (l : Text) (ls : List Text) :
    linesBelow (l :: ls) = '\n' :: (l ++ linesBelow ls) := rfl

/-- With line ends between the lines only the first one is missing. -/
theorem linesBelow_eq_cons_intercalate {ls : List Text} (h : ls ≠ []) :
    linesBelow ls = '\n' :: ['\n'].intercalate ls := by
  induction ls with
  | nil => exact absurd rfl h
  | cons l ls ih =>
    cases ls with
    | nil => simp
    | cons l' ls =>
      rw [linesBelow_cons, ih (List.cons_ne_nil l' ls), List.intercalate_cons_cons]
      simp

theorem linesBelow_splitOn (t : Text) : linesBelow (t.splitOn '\n') = '\n' :: t := by
  rw [linesBelow_eq_cons_intercalate (List.splitOn_ne_nil '\n' t), List.intercalate_splitOn]

/-- No line has a line end. -/
theorem notMem_of_mem_splitOn {d : Char} {s l : Text} (h : l ∈ s.splitOn d) : d ∉ l := by
  induction s generalizing l with
  | nil =>
    obtain rfl : l = [] := by simpa [List.splitOn, List.splitOnP_nil] using h
    exact List.not_mem_nil
  | cons c s ih =>
    rw [List.splitOn, List.splitOnP_cons_eq_if_modifyHead] at h
    obtain ⟨first, rest, hs⟩ := List.exists_cons_of_ne_nil (List.splitOn_ne_nil d s)
    have hs' : List.splitOnP (· == d) s = first :: rest := hs
    have hfirst : d ∉ first := ih (hs ▸ List.mem_cons_self)
    have hrest (l : Text) (hl : l ∈ rest) : d ∉ l := ih (hs ▸ List.mem_cons_of_mem first hl)
    rw [hs'] at h
    by_cases hc : c = d
    · simp only [hc, beq_self_eq_true, if_true, List.mem_cons] at h
      rcases h with rfl | rfl | h
      · exact List.not_mem_nil
      · exact hfirst
      · exact hrest l h
    · simp only [beq_eq_false_iff_ne.mpr hc, Bool.false_eq_true, if_false, List.modifyHead_cons,
        List.mem_cons] at h
      rcases h with rfl | h
      · simp [Ne.symm hc, hfirst]
      · exact hrest l h

end Text

namespace BodilessRequest

open TestCase Text

variable {names : Names}

/-! ## What is logged before a line -/

/-- The address that is logged before the line `q`, if the two lines before it are a header. -/
def loggedAddress? (l k q : Text) : Option Text :=
  if hasMark l && isTitle k then address? q else none

/-- What is logged before each line. Before the first line there are two empty ones. -/
def loggedAddresses (ls : List Text) : List (Option Text) :=
  List.zipWith3 loggedAddress? ([] :: [] :: ls) ([] :: ls) ls

/-- A line, with the line that logs an address before it. -/
def loggedLine (names : Names) (address : Option Text) (q : Text) : Text :=
  (address.elim [] fun u => Shell.command names.helper ["GET".toList, u]) ++ q

/-- The text with a line before each request that is logged, and the number of these lines. -/
def annotateLines (names : Names) (t : Text) : Edited :=
  let ls := t.splitOn '\n'
  ⟨['\n'].intercalate (List.zipWith (loggedLine names) (loggedAddresses ls) ls),
    (loggedAddresses ls).countP Option.isSome⟩

/-- A request is logged exactly under its header, with the whole of its address. -/
theorem loggedAddress?_eq_some_iff {l k q u : Text} : loggedAddress? l k q = some u ↔
    Marked l ∧ Titled k ∧ ∃ (c : Call) (r : Text), q = c.text ++ r ∧
      (∀ x ∈ r.head?, inPath x = false) ∧ u = c.url.text := by
  rw [loggedAddress?, Option.ite_none_right_eq_some, Bool.and_eq_true, hasMark_iff, isTitle_iff,
    address?_eq_some_iff, and_assoc]

theorem not_opensCall_of_eq_none {l k q : Text} (h : loggedAddress? l k q = none) (hl : Marked l)
    (hk : Titled k) : ¬ OpensCall q := by
  intro hq
  obtain ⟨c, r, hq, hr⟩ := hq.exists_call
  have hsome := loggedAddress?_eq_some_iff.mpr ⟨hl, hk, c, r, hq, hr, rfl⟩
  simp [h] at hsome

/-! ## The pass from line to line -/

/-- What becomes of lines under the two lines `l` and `k`, with a line end before each. -/
def below (names : Names) (l k : Text) : List Text → Edited
  | [] => ⟨[], 0⟩
  | q :: qs =>
    ⟨'\n' :: loggedLine names (loggedAddress? l k q) q, (loggedAddress? l k q).toList.length⟩ ++
      below names k q qs

/-- Line by line under two lines, and all lines at once. -/
theorem below_eq (names : Names) (l k : Text) (qs : List Text) :
    below names l k qs =
      (let us := List.zipWith3 loggedAddress? (l :: k :: qs) (k :: qs) qs
       ⟨linesBelow (List.zipWith (loggedLine names) us qs), us.countP Option.isSome⟩) := by
  induction qs generalizing l k with
  | nil => rfl
  | cons q qs ih =>
    have hcount (u : Option Text) : u.toList.length = if u.isSome then 1 else 0 := by
      cases u <;> rfl
    rw [below, ih, List.zipWith3, hcount]
    ext1
    · rfl
    · simp [List.countP_cons, Nat.add_comm]

/-- A request on the line under a title is one with the line end before it as well. -/
theorem opensCall_of_opensCase {k q : Text} {qs : List Text} (hk : '\n' ∉ k)
    (h : OpensCase (k ++ '\n' :: (q ++ linesBelow qs))) : Titled k ∧ OpensCall q := by
  obtain ⟨k', c, r, heq, hk', htitle⟩ := h
  obtain ⟨rfl, hcall⟩ := Text.first_unique hk' hk heq
  refine ⟨htitle, ?_⟩
  cases qs with
  | nil => exact ⟨c, r, by simpa using hcall⟩
  | cons q' qs =>
    have hprefix : c.text <+: q ++ '\n' :: (q' ++ linesBelow qs) := ⟨r, hcall.symm⟩
    obtain ⟨r', hr'⟩ := (Text.prefix_append_cons c.newline_notMem_text).mp hprefix
    exact ⟨c, r', hr'.symm⟩

/-- A line end ends an address. -/
theorem inPath_head?_linesBelow {r : Text} (qs : List Text)
    (h : ∀ x ∈ r.head?, inPath x = false) : ∀ x ∈ (r ++ linesBelow qs).head?, inPath x = false := by
  cases r with
  | nil =>
    cases qs with
    | nil => simp
    | cons q qs =>
      have hnewline : inPath '\n' = false := by decide
      simpa using hnewline
  | cons d r => simpa using h

/-- Under two lines the pass goes on line by line. -/
theorem annotate_below (names : Names) {l k : Text} {qs : List Text} (hl : '\n' ∉ l) (hk : '\n' ∉ k)
    (hqs : ∀ q ∈ qs, '\n' ∉ q) (h : ¬ MarkJoined (l ++ '\n' :: (k ++ linesBelow qs))) :
    annotate names (l ++ '\n' :: (k ++ linesBelow qs)) =
      ⟨l ++ '\n' :: k, 0⟩ ++ below names l k qs := by
  induction qs generalizing l k with
  | nil =>
    have hcase : ¬ OpensCase k := by
      rintro ⟨k', c, r, rfl, _⟩
      simp at hk
    rw [linesBelow_nil, List.append_nil, annotate_line hl fun _ => hcase,
      annotate_of_find?_eq_none (find?_of_newline_notMem hk)]
    ext1 <;> simp [below]
  | cons q qs ih =>
    have hq : '\n' ∉ q := hqs q List.mem_cons_self
    have hjoined : ¬ MarkJoined (k ++ '\n' :: (q ++ linesBelow qs)) :=
      fun hj => h (hj.mono ⟨l ++ ['\n'], [], by simp⟩)
    have hrest := ih hk hq (fun q hq => hqs q (List.mem_cons_of_mem _ hq)) hjoined
    rw [linesBelow_cons, below]
    cases hlogged : loggedAddress? l k q with
    | some u =>
      obtain ⟨hmark, htitle, c, r, rfl, hr, rfl⟩ := loggedAddress?_eq_some_iff.mp hlogged
      -- behind the request the pass goes on as it does when the request itself comes second
      have hbehind : annotate names (r ++ linesBelow qs) =
          ⟨r, 0⟩ ++ below names k (c.text ++ r) qs := by
        have hcall : ¬ MarkJoined (c.text ++ (r ++ linesBelow qs)) :=
          fun hj => hjoined (hj.mono ⟨k ++ ['\n'], [], by simp⟩)
        have hlogs : Logs names (r ++ linesBelow qs) (r ++ linesBelow qs) := .refl
        rw [List.append_assoc, annotate_line hk fun _ => not_opensCase_call c _,
          annotate_append (seam_call c hlogs hcall),
          annotate_of_find?_eq_none (find?_of_newline_notMem c.newline_notMem_text)] at hrest
        ext1
        · simpa using congrArg Edited.text hrest
        · simpa using congrArg Edited.count hrest
      have hend := inPath_head?_linesBelow qs hr
      rw [List.append_assoc, annotate_request names c hl hmark hk htitle hend, hbehind]
      ext1
      · simp [loggedLine, Call.logLine]
      · simp
    | none =>
      have hcase (hmark : Marked l) : ¬ OpensCase (k ++ '\n' :: (q ++ linesBelow qs)) := by
        intro hcase
        obtain ⟨htitle, hcall⟩ := opensCall_of_opensCase hk hcase
        exact not_opensCall_of_eq_none hlogged hmark htitle hcall
      rw [annotate_line hl hcase, hrest]
      ext1
      · simp [loggedLine]
      · simp

theorem not_marked_nil : ¬ Marked [] := by
  rintro ⟨x, l, hl, i, y, rfl⟩
  simp [Id.mark] at hl

/-- Two empty lines before a text make no difference. -/
theorem annotate_newlines (names : Names) (t : Text) :
    annotate names ('\n' :: '\n' :: t) = ⟨['\n', '\n'], 0⟩ ++ annotate names t := by
  have hline (s : Text) : annotate names ('\n' :: s) = ⟨['\n'], 0⟩ ++ annotate names s :=
    annotate_line (l := []) List.not_mem_nil fun h => absurd h not_marked_nil
  rw [hline, hline]
  ext1 <;> simp

/-- Under two empty lines the whole text goes line by line. -/
theorem below_splitOn (names : Names) (t : Text) :
    below names [] [] (t.splitOn '\n') = ⟨['\n'], 0⟩ ++ annotateLines names t := by
  obtain ⟨q, qs, hls⟩ := List.exists_cons_of_ne_nil (List.splitOn_ne_nil '\n' t)
  have hlines : linesBelow (List.zipWith (loggedLine names) (loggedAddresses (t.splitOn '\n'))
      (t.splitOn '\n')) = '\n' :: (annotateLines names t).text := by
    rw [linesBelow_eq_cons_intercalate (by simp [hls, loggedAddresses, List.zipWith3])]
    rfl
  rw [below_eq]
  ext1
  · exact hlines
  · exact (Nat.zero_add _).symm

/-! ## Which lines these are -/

/-- Line `i` begins with a request for `u`, under a line with a mark and a line with a title. -/
def LoggedAt (ls : List Text) (i : Nat) (u : Text) : Prop :=
  ∃ l k q, 2 ≤ i ∧ ls[i - 2]? = some l ∧ ls[i - 1]? = some k ∧ ls[i]? = some q ∧
    Marked l ∧ Titled k ∧ ∃ (c : Call) (r : Text), q = c.text ++ r ∧
      (∀ x ∈ r.head?, inPath x = false) ∧ u = c.url.text

theorem getElem?_zipWith3_eq_some_iff {f : Text → Text → Text → Option Text} {as bs cs : List Text}
    {i : Nat} {x : Option Text} : (List.zipWith3 f as bs cs)[i]? = some x ↔
      ∃ a b c, as[i]? = some a ∧ bs[i]? = some b ∧ cs[i]? = some c ∧ f a b c = x := by
  induction cs generalizing as bs i with
  | nil => cases as <;> cases bs <;> simp [List.zipWith3]
  | cons c cs ih =>
    cases as with
    | nil => simp [List.zipWith3]
    | cons a as =>
      cases bs with
      | nil => simp [List.zipWith3]
      | cons b bs => cases i <;> simp [List.zipWith3, ih]

theorem loggedAddresses_eq_some_iff {ls : List Text} {i : Nat} {u : Text} :
    (loggedAddresses ls)[i]? = some (some u) ↔ LoggedAt ls i u := by
  simp only [loggedAddresses, getElem?_zipWith3_eq_some_iff, loggedAddress?_eq_some_iff, LoggedAt]
  constructor
  · rintro ⟨l, k, q, hl, hk, hq, hmark, hrest⟩
    -- the empty lines before the text have no mark
    match i, hl, hk, hq with
    | 0, hl, _, _ => exact absurd (Option.some.inj hl ▸ hmark) not_marked_nil
    | 1, hl, _, _ => exact absurd (Option.some.inj hl ▸ hmark) not_marked_nil
    | i + 2, hl, hk, hq => exact ⟨l, k, q, by omega, hl, hk, hq, hmark, hrest⟩
  · rintro ⟨l, k, q, hi, hl, hk, hq, hrest⟩
    obtain ⟨i, rfl⟩ := Nat.exists_eq_add_of_le' hi
    exact ⟨l, k, q, hl, hk, hq, hrest⟩

/--
If each mark stands behind white space, the pass goes line by line: it logs a request exactly if
the two lines before it have a mark and print a title, and all lines stay as they were.
-/
theorem annotate_line_by_line (names : Names) {t : Text} (h : MarksApart t) :
    annotate names t = annotateLines names t ∧
      ∀ i u, (loggedAddresses (t.splitOn '\n'))[i]? = some (some u) ↔
        LoggedAt (t.splitOn '\n') i u := by
  refine ⟨?_, fun _ _ => loggedAddresses_eq_some_iff⟩
  have hjoined : ¬ MarkJoined ('\n' :: '\n' :: t) := by
    have hnewlines : ¬ MarkJoined ['\n', '\n'] := by decide
    have hlines := Text.wholeLines_append_newline ['\n']
    exact fun hj => ((joined_wholeLines hlines).mp hj).elim hnewlines (marksApart_iff.mp h)
  have hbelow : annotate names ('\n' :: linesBelow (t.splitOn '\n')) =
      ⟨['\n'], 0⟩ ++ below names [] [] (t.splitOn '\n') :=
    annotate_below names (l := []) (k := []) List.not_mem_nil List.not_mem_nil
      (fun q => notMem_of_mem_splitOn) (by simpa [linesBelow_splitOn] using hjoined)
  rw [linesBelow_splitOn, annotate_newlines, below_splitOn] at hbelow
  ext1
  · simpa using congrArg Edited.text hbelow
  · simpa using congrArg Edited.count hbelow

/-- Two test cases, the comment of the second one behind the request of the first. -/
def chainedScript : Text :=
  ("# TC-A-1:\necho \">>> TC-A-1:\"\n" ++
    "RESPONSE=$(curl -s -w \"\\n%\x7bhttp_code\x7d\" $BASE_URL_A/x) # TC-B-2:\n" ++
    "echo \">>> TC-B-2:\"\n" ++
    "RESPONSE=$(curl -s -w \"\\n%\x7bhttp_code\x7d\" -X GET $BASE_URL_B/y)\n").toList

theorem annotate_chainedScript :
    MarksApart chainedScript ∧ annotate {} chainedScript = annotateLines {} chainedScript ∧
      loggedAddresses (chainedScript.splitOn '\n') =
        [none, none, some "$BASE_URL_A/x".toList, none, some "$BASE_URL_B/y".toList, none] :=
  have happart : MarksApart chainedScript := by decide +kernel
  ⟨happart, (annotate_line_by_line {} happart).1, by decide +kernel⟩

end BodilessRequest

end CurlLog
