import CurlLog.Pass
import CurlLog.Proofs.Script.BodilessRequest
import CurlLog.Proofs.Script.ResponseLabel
import CurlLog.Proofs.Selection

/-!
# The places that a pass edits

A pass cuts a text at the places that it edits. At each place (`Site`) it keeps what stands before
the insertion and inserts lines or words; what stands behind the insertion it keeps too, apart from
the body of a request, which gives way to the variable.

`Pass.edits` says that a pass makes these edits and nothing else, on every text and with all names.
So a property of the text that a pass makes is shown for one place, kind by kind, and then carried
over from the places to the text.
-/

namespace CurlLog

open Pattern

/-- A place that a pass edits, with what is read there. -/
inductive Site where
  | bodyRequest (r : BodyRequest)
  | bodilessRequest (r : BodilessRequest)
  /-- A success message, with its identifier. -/
  | successMessage (caseId : Text)
  /-- A message that is counted, and the command that prints the response body. -/
  | responseLabel (lead printing : Text)

namespace Site

/-- The pass that edits such places. -/
def pass : Site → Pass
  | bodyRequest _ => .bodyRequests
  | bodilessRequest _ => .bodilessRequests
  | successMessage _ => .successMessages
  | responseLabel _ _ => .responseLabels

/-- What stands before the insertion. -/
def front : Site → Text
  | bodyRequest r => r.header
  | bodilessRequest r => r.header
  | successMessage caseId => SuccessMessage.opening ++ (caseId ++ SuccessMessage.passed)
  | responseLabel lead _ => lead

/-- What stands behind the place of the insertion in the text as it was. -/
def back : Site → Text
  | bodyRequest r => r.call
  | bodilessRequest r => r.call
  | successMessage _ => Shell.greenClosing
  | responseLabel _ printing => printing

/-- What stands at the place in the text as it was. -/
def original (s : Site) : Text :=
  s.front ++ s.back

section

variable (names : Names)

/-- The insertion, made of what is read at the place. -/
def inserted : Site → Text
  | bodyRequest r => Shell.assignment names.bodyVar r.body ++
      Shell.command names.helper [r.method, r.url, '$' :: names.bodyVar]
  | bodilessRequest r => Shell.command names.helper ["GET".toList, r.url]
  | successMessage _ => SuccessMessage.status
  | responseLabel _ _ => ResponseLabel.labelLine names

/-- What stands behind the insertion. -/
def emitted : Site → Text
  | bodyRequest r =>
    Text.replaceAll (Shell.singleQuoted r.body) (Shell.variableWord names.bodyVar) r.call
  | s => s.back

/-- What stands at the place after the edit. -/
def edited (s : Site) : Text :=
  s.front ++ (s.inserted names ++ s.emitted names)

end

/-- What is read at the place has the shape that the pass looks for. -/
def Read : Site → Prop
  | bodyRequest r => Piece.Spells (TestCase.header fun _ => true) r.header ∧
      ∃ c : BodyRequest.Call, r = c.request r.header
  | bodilessRequest r => Piece.Spells (TestCase.header (· != '\n')) r.header ∧
      ∃ c : BodilessRequest.Call, r = ⟨r.header, c.text, c.url.text⟩
  | successMessage caseId => ∃ i : TestCase.Id, caseId = i.text
  | responseLabel lead printing => ∃ (i : TestCase.Id) (b b' : Text), ResponseLabel.Blank b ∧
      ResponseLabel.Blank b' ∧ lead = ResponseLabel.lead i b ∧ printing = ResponseLabel.printing b'

/-- Only the body of a request gives way to something. -/
theorem emitted_eq_back {s : Site} (h : s.pass ≠ .bodyRequests) (names : Names) :
    s.emitted names = s.back := by
  cases s with
  | bodyRequest r => exact absurd rfl h
  | bodilessRequest r => rfl
  | successMessage caseId => rfl
  | responseLabel lead printing => rfl

end Site

/-- A text taken apart at the places that a pass edits. -/
structure Places where
  /-- The places in order, each with what stands between it and the one before. -/
  found : List (Text × Site)
  /-- What follows the last place. -/
  rest : Text

namespace Places

/-- The text with a given text at each place. -/
def text (f : Site → Text) (p : Places) : Text :=
  (p.found.flatMap fun (gap, s) => gap ++ f s) ++ p.rest

@[simp] theorem text_cons (f : Site → Text) (gap : Text) (s : Site) (found : List (Text × Site))
    (rest : Text) : text f ⟨(gap, s) :: found, rest⟩ = gap ++ (f s ++ text f ⟨found, rest⟩) := by
  simp [text]

/-- What is put at a place stands in the text. -/
theorem infix_text {p : Places} {e : Text × Site} (h : e ∈ p.found) (f : Site → Text) :
    f e.2 <:+: p.text f := by
  obtain ⟨found, rest⟩ := p
  induction found with
  | nil => simp at h
  | cons e' found ih =>
    obtain ⟨gap, s⟩ := e'
    rw [text_cons]
    cases h with
    | head => exact ⟨gap, text f ⟨found, rest⟩, by simp⟩
    | tail _ h => exact (ih h).trans ⟨gap ++ f s, [], by simp⟩

variable {α : Type}

/-- The places of matches, with what `read` finds in each. -/
def ofCut (read : Match α → Site) (c : Cut α) : Places :=
  ⟨c.found.map fun (gap, m) => (gap, read m), c.rest⟩

theorem text_ofCut (read : Match α → Site) (f : Site → Text) (c : Cut α) :
    (ofCut read c).text f = c.replace fun m => f (read m) := by
  rw [text, ofCut, Cut.replace, List.flatMap_map]

theorem mem_found_ofCut {read : Match α → Site} {c : Cut α} {e : Text × Site}
    (h : e ∈ (ofCut read c).found) : ∃ m ∈ c.taken, e.2 = read m := by
  obtain ⟨⟨gap, m⟩, hm, rfl⟩ := List.mem_map.mp h
  exact ⟨m, List.mem_map_of_mem hm, rfl⟩

end Places

namespace Pass

/-- The places that a pass edits. -/
def places : Pass → Text → Places
  | bodyRequests, t =>
    .ofCut (fun m => .bodyRequest (BodyRequest.ofMatch m)) (BodyRequest.pattern.cut t)
  | bodilessRequests, t =>
    .ofCut (fun m => .bodilessRequest (BodilessRequest.ofMatch m)) (BodilessRequest.pattern.cut t)
  | successMessages, t =>
    .ofCut (fun m => .successMessage (m.part .caseId)) (SuccessMessage.pattern.cut t)
  | responseLabels, t =>
    .ofCut (fun m => .responseLabel (m.part .lead) (m.part .printing)) (ResponseLabel.pattern.cut t)

/-- The pass edits its places, each by an insertion, and nothing else. -/
structure Edits (names : Names) (pass : Pass) (t : Text) : Prop where
  /-- The gaps and what is read at the places make up the text. -/
  original : (pass.places t).text Site.original = t
  /-- The gaps stay, each place is edited, and the count is the number of the places. -/
  edited : pass.run names t =
    ⟨(pass.places t).text (Site.edited names), (pass.places t).found.length⟩
  /-- Each place is one of the pass and has the shape that the pass looks for. -/
  sites : ∀ e ∈ (pass.places t).found, e.2.pass = pass ∧ e.2.Read

/-- A pass that cuts at a pattern edits its places if each match is read as what it is. -/
theorem Edits.of_cut {α : Type} {p : Pattern α} {names : Names} {pass : Pass} {t : Text}
    {f : Match α → Text} {read : Match α → Site} (hrun : pass.run names t = p.edit f t)
    (hplaces : pass.places t = .ofCut read (p.cut t))
    (hmatch : ∀ m ∈ (p.cut t).taken, (read m).original = m.text ∧ (read m).edited names = f m ∧
      (read m).pass = pass ∧ (read m).Read) :
    pass.Edits names t := by
  refine ⟨?_, ?_, ?_⟩
  · rw [hplaces, Places.text_ofCut, Cut.replace_congr fun m hm => (hmatch m hm).1]
    exact replace_text_cut p t
  · rw [hrun, hplaces, Places.text_ofCut, Cut.replace_congr fun m hm => (hmatch m hm).2.1]
    ext1
    · exact text_edit p f t
    · rw [count_edit, Cut.count, Places.ofCut, List.length_map]
  · intro e he
    obtain ⟨m, hm, hread⟩ := Places.mem_found_ofCut (hplaces ▸ he)
    rw [hread]
    exact (hmatch m hm).2.2

section

variable {names : Names} {t : Text}

theorem edits_bodyRequests : bodyRequests.Edits names t := by
  have hplaces : bodyRequests.places t =
      .ofCut (fun m => .bodyRequest (BodyRequest.ofMatch m)) (BodyRequest.pattern.cut t) := rfl
  refine .of_cut rfl hplaces fun m hm => ?_
  have hfits := fits_of_mem_cut hm
  have htext : (BodyRequest.ofMatch m).header ++ (BodyRequest.ofMatch m).call = m.text :=
    (hfits.text_eq_part_append (by decide)).symm
  obtain ⟨c, _, hcall, _⟩ := BodyRequest.exists_call_of_mem_cut hm
  obtain ⟨m₁, m₂, rfl, h₁, h₂⟩ := fits_append.mp hfits
  have hheader : (m₁ ++ m₂).part .header = m₁.text := by
    rw [BodyRequest.part_header_append, BodyRequest.part_header_of_fits h₁,
      BodyRequest.part_header_of_call h₂, List.append_nil]
  refine ⟨htext, ?_, rfl, ?_, c, hcall⟩
  · simp [Site.edited, Site.front, Site.inserted, Site.emitted, BodyRequest.annotated,
      BodyRequest.assignment, BodyRequest.logLine, BodyRequest.callWithVariable]
  · show Piece.Spells _ ((m₁ ++ m₂).part .header)
    rw [hheader]
    exact h₁.spells_ofPart

theorem edits_bodilessRequests : bodilessRequests.Edits names t := by
  have hplaces : bodilessRequests.places t =
      .ofCut (fun m => .bodilessRequest (BodilessRequest.ofMatch m))
        (BodilessRequest.pattern.cut t) := rfl
  refine .of_cut rfl hplaces fun m hm => ?_
  have hfits := fits_of_mem_cut hm
  have htext : (BodilessRequest.ofMatch m).header ++ (BodilessRequest.ofMatch m).call = m.text :=
    (hfits.text_eq_part_append (by decide)).symm
  obtain ⟨m₁, m₂, rfl, h₁, h₂⟩ := fits_append.mp hfits
  obtain ⟨c, rfl⟩ := BodilessRequest.fits_callPattern.mp h₂
  have hread := BodilessRequest.ofMatch_append h₁ c
  refine ⟨htext, ?_, rfl, ?_⟩
  · simp [Site.edited, Site.front, Site.inserted, Site.emitted, Site.back,
      BodilessRequest.annotated, BodilessRequest.logLine]
  · show (Site.bodilessRequest (BodilessRequest.ofMatch (m₁ ++ c.toMatch))).Read
    rw [hread]
    exact ⟨h₁.spells_ofPart, c, rfl⟩

theorem edits_successMessages : successMessages.Edits names t := by
  have hplaces : successMessages.places t =
      .ofCut (fun m => .successMessage (m.part .caseId)) (SuccessMessage.pattern.cut t) := rfl
  refine .of_cut rfl hplaces fun m hm => ?_
  obtain ⟨i, hpart, htext⟩ := SuccessMessage.exists_id_of_fits (fits_of_mem_cut hm)
  refine ⟨?_, ?_, rfl, i, hpart⟩
  · rw [htext, SuccessMessage.message, SuccessMessage.plainClosing_eq, ← hpart]
    simp [Site.original, Site.front, Site.back]
  · rw [SuccessMessage.withStatus, SuccessMessage.statusClosing_eq]
    simp [Site.edited, Site.front, Site.inserted, Site.emitted, Site.back]

theorem edits_responseLabels : responseLabels.Edits names t := by
  have hplaces : responseLabels.places t =
      .ofCut (fun m => .responseLabel (m.part .lead) (m.part .printing))
        (ResponseLabel.pattern.cut t) := rfl
  refine .of_cut rfl hplaces fun m hm => ?_
  obtain ⟨i, b, b', hb, hb', hlead, hprinting, htext⟩ :=
    ResponseLabel.exists_of_fits (fits_of_mem_cut hm)
  refine ⟨?_, ?_, rfl, i, b, b', hb, hb', hlead, hprinting⟩
  · rw [htext, ← hlead, ← hprinting]
    rfl
  · simp [Site.edited, Site.front, Site.inserted, Site.emitted, Site.back, ResponseLabel.annotated]

end

/-- Every pass edits its places and nothing else, whatever the names are. -/
theorem edits (names : Names) (pass : Pass) (t : Text) : pass.Edits names t := by
  cases pass with
  | bodyRequests => exact edits_bodyRequests
  | bodilessRequests => exact edits_bodilessRequests
  | successMessages => exact edits_successMessages
  | responseLabels => exact edits_responseLabels

end Pass

end CurlLog
