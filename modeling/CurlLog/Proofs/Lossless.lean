import CurlLog.Proofs.Places
import CurlLog.Proofs.SingleCommand
import CurlLog.Proofs.Text.Replacement

/-!
# Taking the edits back

A pass edits its places, and each edit can be taken back (`Site.undo`): the insertion is deleted and
the body put where the variable stands.

`Pass.lossless` says that a pass makes its edits and nothing else, and that going through its text
from place to place and taking each edit back (`Places.undo`) gives the text as it was. For the
bodies this needs a variable that the text does not use; the other passes can be taken back on every
text.
-/

namespace CurlLog

open Pattern

namespace Site

/-- Puts the body in the place of each variable. -/
def restore (names : Names) : Site → Text → Text
  | bodyRequest r =>
    Text.replaceAll (Shell.variableWord names.bodyVar) (Shell.singleQuoted r.body)
  | _ => id

/-- Takes the edit back: the insertion is deleted, and what stands behind it is restored. -/
def undo (names : Names) (s : Site) (t : Text) : Text :=
  t.take s.front.length ++ s.restore names (t.drop (s.front.length + (s.inserted names).length))

variable {names : Names} {s : Site}

/-- An edit can be taken back if what stands behind the insertion can be restored. -/
theorem undo_edited (h : s.restore names (s.emitted names) = s.back) :
    s.undo names (s.edited names) = s.original := by
  have htake : (s.edited names).take s.front.length = s.front := List.take_left
  have hdrop : (s.edited names).drop (s.front.length + (s.inserted names).length) =
      s.emitted names := by
    rw [edited, ← List.append_assoc, ← List.length_append, List.drop_left]
  rw [undo, htake, hdrop, h, original]

/-- A variable that the request does not use stands for the body and for nothing else. -/
theorem restore_bodyRequest {r : BodyRequest} (hvar : Shell.IsIdentifier names.bodyVar)
    (h : ¬ ('$' :: names.bodyVar) <:+: r.call) :
    (bodyRequest r).restore names ((bodyRequest r).emitted names) = r.call := by
  have hquote : '"' ∉ '$' :: names.bodyVar := by
    have hname : '"' ∉ names.bodyVar := hvar.notMem (by decide)
    simp [hname]
  exact Text.replaceAll_replaceAll (List.cons_ne_nil _ _) hquote (List.cons_ne_nil _ _) h

/-- What is kept behind the insertion needs no restoring. -/
theorem restore_of_ne (h : s.pass ≠ .bodyRequests) :
    s.restore names (s.emitted names) = s.back := by
  rw [emitted_eq_back h]
  cases s with
  | bodyRequest r => exact absurd rfl h
  | bodilessRequest r => rfl
  | successMessage caseId => rfl
  | responseLabel lead printing => rfl

end Site

namespace Places

/-- Goes through an edited text from place to place, keeps the gaps and takes the edits back. -/
def undo (names : Names) : List (Text × Site) → Text → Text
  | [], t => t
  | (gap, s) :: found, t =>
    let behind := t.drop gap.length
    let n := (s.edited names).length
    t.take gap.length ++ (s.undo names (behind.take n) ++ undo names found (behind.drop n))

theorem undo_text {names : Names} {p : Places}
    (h : ∀ e ∈ p.found, e.2.undo names (e.2.edited names) = e.2.original) :
    undo names p.found (p.text (Site.edited names)) = p.text Site.original := by
  obtain ⟨found, rest⟩ := p
  induction found with
  | nil => rfl
  | cons e found ih =>
    obtain ⟨gap, s⟩ := e
    have hsite : s.undo names (s.edited names) = s.original := h (gap, s) (by simp)
    have hfound := ih fun e he => h e (by simp [he])
    simp only [undo, text_cons, List.take_left, List.drop_left, hsite]
    rw [hfound]

end Places

namespace Pass

/-- The pass edits its places, each by an insertion that can be taken back, and nothing else. -/
structure Lossless (names : Names) (pass : Pass) (t : Text) : Prop where
  /-- The gaps and what is read at the places make up the text. -/
  original : (pass.places t).text Site.original = t
  /-- The gaps stay, each place is edited, and the count is the number of the places. -/
  edited : pass.run names t =
    ⟨(pass.places t).text (Site.edited names), (pass.places t).found.length⟩
  /-- Each place has the shape that the pass looks for, and its edit can be taken back. -/
  sites : ∀ e ∈ (pass.places t).found, e.2.pass = pass ∧ e.2.Read ∧
    e.2.undo names (e.2.edited names) = e.2.original
  /-- With every edit taken back the text is as it was. -/
  undone : Places.undo names (pass.places t).found (pass.run names t).text = t

section

variable {names : Names} {pass : Pass} {t : Text}

/-- A pass is lossless if what stands behind each of its insertions can be restored. -/
theorem Edits.lossless_of_restore (h : pass.Edits names t) (hrestore : ∀ e ∈ (pass.places t).found,
    e.2.restore names (e.2.emitted names) = e.2.back) : pass.Lossless names t := by
  have hundo : ∀ e ∈ (pass.places t).found, e.2.undo names (e.2.edited names) = e.2.original :=
    fun e he => Site.undo_edited (hrestore e he)
  refine ⟨h.original, h.edited, ?_, ?_⟩
  · intro e he
    obtain ⟨hpass, hread⟩ := h.sites e he
    exact ⟨hpass, hread, hundo e he⟩
  · rw [h.edited]
    exact (Places.undo_text hundo).trans h.original

theorem lossless_bodyRequests (hvar : Shell.IsIdentifier names.bodyVar)
    (hfresh : ¬ ('$' :: names.bodyVar) <:+: t) : bodyRequests.Lossless names t := by
  have hedits := edits names bodyRequests t
  refine hedits.lossless_of_restore fun e he => ?_
  obtain ⟨hpass, _⟩ := hedits.sites e he
  have hinfix : e.2.original <:+: t := by
    have h := Places.infix_text he Site.original
    rwa [hedits.original] at h
  cases hsite : e.2 with
  | bodyRequest r =>
    refine Site.restore_bodyRequest hvar fun h => hfresh (h.trans (List.IsInfix.trans ?_ hinfix))
    rw [hsite]
    exact (List.suffix_append r.header r.call).isInfix
  | _ => exact Site.restore_of_ne (by rw [hsite] at hpass; simp [Site.pass] at hpass)

/-- The passes that keep what stands behind their insertions are lossless on every text. -/
theorem lossless_of_ne (h : pass ≠ bodyRequests) : pass.Lossless names t := by
  have hedits := edits names pass t
  refine hedits.lossless_of_restore fun e he => Site.restore_of_ne ?_
  rw [(hedits.sites e he).1]
  exact h

theorem lossless_bodilessRequests : bodilessRequests.Lossless names t :=
  lossless_of_ne (by decide)

theorem lossless_successMessages : successMessages.Lossless names t :=
  lossless_of_ne (by decide)

theorem lossless_responseLabels : responseLabels.Lossless names t :=
  lossless_of_ne (by decide)

end

/--
A pass makes its edits and nothing else, and they can be taken back. The variable for the bodies has
to be one that the text does not use.
-/
theorem lossless (names : Names) (pass : Pass) (t : Text)
    (h : pass = bodyRequests → Shell.IsIdentifier names.bodyVar ∧
      Text.occurs ('$' :: names.bodyVar) t = false) : pass.Lossless names t := by
  cases pass with
  | bodyRequests =>
    obtain ⟨hvar, hfresh⟩ := h rfl
    refine lossless_bodyRequests hvar fun hmem => ?_
    rw [← Text.occurs_iff_infix, hfresh] at hmem
    exact absurd hmem (by decide)
  | bodilessRequests => exact lossless_bodilessRequests
  | successMessages => exact lossless_successMessages
  | responseLabels => exact lossless_responseLabels

/-- A request with its body in one of its options, too. -/
def echoingCall : BodyRequest.Call :=
  { BodyRequest.plainCall with
    gap := " -u '$1' \\".toList
    body := "$1".toList
    gap_ne_nil := by decide
    paren_notMem_gap := by decide
    body_ne_nil := by decide
    quote_notMem_body := by decide }

/-- A test case with this request. -/
def echoingScript : Text :=
  BodyRequest.plainHeader ++ (echoingCall.text ++ [')', '\n'])

theorem lossless_echoingScript :
    (Shell.IsIdentifier (Names.bodyVar {}) ∧
      Text.occurs ('$' :: Names.bodyVar {}) echoingScript = false) ∧
    (run {} bodyRequests echoingScript).count = 1 ∧
    bodyRequests.Lossless {} echoingScript := by
  have hvar : Shell.IsIdentifier (Names.bodyVar {}) := by decide
  have hfresh : Text.occurs ('$' :: Names.bodyVar {}) echoingScript = false := by decide +kernel
  exact ⟨⟨hvar, hfresh⟩, by decide +kernel,
    lossless {} bodyRequests echoingScript fun _ => ⟨hvar, hfresh⟩⟩

end Pass

end CurlLog
