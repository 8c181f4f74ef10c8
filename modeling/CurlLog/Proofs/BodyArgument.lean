import CurlLog.Proofs.Rewriting
import CurlLog.Proofs.SingleCommand

/-!
# What the variable takes the place of

A request ends with the option that has the body. The variable should take the place of the body
there, and nowhere else (`EditsBodyOnly`). What is replaced is each text that reads like the quoted
body, from left to right. So the option is edited alone exactly if that text stands nowhere before
the end of the request (`editsBodyOnly_iff`).

If it does, another argument with the same quoted text is replaced with the body, or a text that
shares a quote with the body is replaced in its stead, and the body stays
(`not_editsBodyOnly_overlappingCall`). In each case the request stays as it is between the texts
that are replaced.
-/

namespace CurlLog

open Pattern

namespace BodyRequest

/-- Of the request, only the quoted body at the end gives way to the variable. -/
def EditsBodyOnly (names : Names) (r : BodyRequest) : Prop :=
  ∃ front, r.call = front ++ r.bodyOption ∧
    r.callWithVariable names = front ++ ("-d ".toList ++ Shell.variableWord names.bodyVar)

/-- The quoted body stands nowhere in the request but at its end. -/
def BodyLastOnly (r : BodyRequest) : Prop :=
  Text.LastOnly (Shell.singleQuoted r.body) r.call

/-- The request stays as it is between the texts that the variable takes the place of. -/
def KeepsPieces (names : Names) (r : BodyRequest) : Prop :=
  ∃ pieces : List Text, 1 < pieces.length ∧
    r.call = (Shell.singleQuoted r.body).intercalate pieces ∧
    r.callWithVariable names = (Shell.variableWord names.bodyVar).intercalate pieces

theorem singleQuoted_ne_nil (s : Text) : Shell.singleQuoted s ≠ [] :=
  List.cons_ne_nil _ _

instance (r : BodyRequest) : Decidable r.BodyLastOnly :=
  decidable_of_iff _ (Text.lastOnly_iff (singleQuoted_ne_nil r.body)).symm

/-- A request ends with the option that has its body. -/
theorem Call.exists_front (c : Call) (header : Text) :
    ∃ front, (c.request header).call = front ++ (c.request header).bodyOption := by
  have hbetween := (between_iff (c := c) (h := header)).mpr rfl
  exact ⟨_, hbetween.trans (List.append_assoc _ _ _).symm⟩

section

variable {names : Names} {r : BodyRequest} {front : Text} (hcall : r.call = front ++ r.bodyOption)
include hcall

/-- The variable takes the place of the body if nothing before it reads like the quoted body. -/
theorem callWithVariable_eq_iff : r.callWithVariable names =
    front ++ ("-d ".toList ++ Shell.variableWord names.bodyVar) ↔ r.BodyLastOnly := by
  have hsplit : r.call = (front ++ "-d ".toList) ++ Shell.singleQuoted r.body := by
    rw [hcall, bodyOption, List.append_assoc]
  rw [callWithVariable, BodyLastOnly, hsplit, ← List.append_assoc]
  exact Text.replaceAll_append_iff (by decide)

/-- The variable takes the place only of texts that read like the quoted body. -/
theorem keepsPieces_of_call : r.KeepsPieces names := by
  have hbody : Shell.singleQuoted r.body <:+: r.call :=
    ⟨front ++ "-d ".toList, [], by simp [hcall, bodyOption]⟩
  obtain ⟨pieces, _, hpieces, hreplace, hmore⟩ :=
    Text.exists_pieces (singleQuoted_ne_nil r.body) (Shell.variableWord names.bodyVar) r.call
  exact ⟨pieces, hmore hbody, hpieces, hreplace⟩

theorem editsBodyOnly_iff_bodyLastOnly : r.EditsBodyOnly names ↔ r.BodyLastOnly := by
  constructor
  · rintro ⟨front', hcall', hvariable⟩
    exact (callWithVariable_eq_iff hcall').mp hvariable
  · exact fun h => ⟨front, hcall, (callWithVariable_eq_iff hcall).mpr h⟩

end

/--
The pass edits the body argument alone exactly if the quoted body stands nowhere else in the
request. In any case it edits only texts that read like the quoted body.
-/
theorem editsBodyOnly_iff (names : Names) {s : Text} {m : Match Part}
    (hm : m ∈ (pattern.cut s).taken) :
    ((ofMatch m).EditsBodyOnly names ↔ (ofMatch m).BodyLastOnly) ∧
      (ofMatch m).KeepsPieces names := by
  obtain ⟨c, _, hrequest, _⟩ := exists_call_of_mem_cut hm
  obtain ⟨front, hcall⟩ := c.exists_front (m.part .header)
  rw [hrequest]
  exact ⟨editsBodyOnly_iff_bodyLastOnly hcall, keepsPieces_of_call hcall⟩

/-! ## Requests with other arguments in single quotes -/

/-- A test case with a request. -/
def scriptOf (c : Call) : Text :=
  plainHeader ++ (c.text ++ [')', '\n'])

theorem exists_mem_cut_scriptOf {c : Call}
    (h : (pattern.scan (scriptOf c)).taken.map ofMatch = [c.request plainHeader]) :
    ∃ m ∈ (pattern.cut (scriptOf c)).taken, ofMatch m = c.request plainHeader := by
  rw [scan_eq_cut] at h
  exact List.mem_map.mp (h ▸ List.mem_singleton.mpr rfl)

/-- A request with a user. -/
def userCall : Call :=
  { plainCall with
    gap := " -u 'z' \\".toList
    gap_ne_nil := by decide
    paren_notMem_gap := by decide }

theorem editsBodyOnly_userCall :
    ∃ m ∈ (pattern.cut (scriptOf userCall)).taken, (ofMatch m).EditsBodyOnly {} := by
  obtain ⟨m, hm, hrequest⟩ := exists_mem_cut_scriptOf (c := userCall) (by decide +kernel)
  refine ⟨m, hm, (editsBodyOnly_iff {} hm).1.mpr ?_⟩
  rw [hrequest]
  decide +kernel

/-- A request with the quoted body in a header, too. -/
def repeatingCall : Call :=
  { plainCall with
    gap := " -H \"X: 'y'\" \\".toList
    gap_ne_nil := by decide
    paren_notMem_gap := by decide }

/-- A request whose body reads like what stands between the user and the body. -/
def overlappingCall : Call :=
  { userCall with
    body := " \\\n".toList ++ options
    body_ne_nil := by decide
    quote_notMem_body := by decide }

/-- Where the quoted body stands elsewhere too, the request is edited elsewhere. -/
theorem exists_not_editsBodyOnly {c : Call} {emitted : Text}
    (hscan : (pattern.scan (scriptOf c)).taken.map ofMatch = [c.request plainHeader])
    (hlast : ¬ (c.request plainHeader).BodyLastOnly)
    (hemitted : (c.request plainHeader).callWithVariable {} = emitted) :
    ∃ m ∈ (pattern.cut (scriptOf c)).taken, ¬ (ofMatch m).EditsBodyOnly {} ∧
      (ofMatch m).callWithVariable {} = emitted := by
  obtain ⟨m, hm, hrequest⟩ := exists_mem_cut_scriptOf hscan
  obtain ⟨front, hcall⟩ := c.exists_front plainHeader
  refine ⟨m, hm, ?_, ?_⟩
  · rw [hrequest, editsBodyOnly_iff_bodyLastOnly hcall]
    exact hlast
  · rw [hrequest]
    exact hemitted

/-- In the first request the header is edited too, and in the second one the body stays. -/
theorem not_editsBodyOnly_overlappingCall :
    let word := Shell.variableWord "REQUEST_DATA".toList
    (∃ m ∈ (pattern.cut (scriptOf repeatingCall)).taken, ¬ (ofMatch m).EditsBodyOnly {} ∧
      (ofMatch m).callWithVariable {} = plainCall.toLead.text ++ (" -H \"X: ".toList ++
        (word ++ ("\" \\\n".toList ++ (options ++ word))))) ∧
    ∃ m ∈ (pattern.cut (scriptOf overlappingCall)).taken, ¬ (ofMatch m).EditsBodyOnly {} ∧
      (ofMatch m).callWithVariable {} = plainCall.toLead.text ++ (" -u 'z".toList ++
        (word ++ (" \\\n".toList ++ (options ++ ['\''])))) := by
  intro word
  constructor
  · exact exists_not_editsBodyOnly (by decide +kernel) (by decide +kernel) (by decide +kernel)
  · exact exists_not_editsBodyOnly (by decide +kernel) (by decide +kernel) (by decide +kernel)

end BodyRequest

end CurlLog
