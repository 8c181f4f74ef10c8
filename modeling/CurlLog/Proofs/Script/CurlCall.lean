import CurlLog.Proofs.Pattern.Parts
import CurlLog.Script.CurlCall

/-!
# Addresses of requests

An address as data: `CurlCall.Url` carries its own well-formedness, which is what the pieces of
`CurlCall.url` ask of a text. An address is one word, so that white space and the character at which
it stops are not in it.
-/

namespace CurlLog.CurlCall

open Pattern

/-- An address that ends at white space or at `stop`. -/
structure Url (stop : Char) where
  service : Text
  path : Text
  service_ne_nil : service ≠ []
  path_ne_nil : path ≠ []
  isUpper_of_mem : ∀ c ∈ service, c.isUpper = true
  inPath_of_mem : ∀ c ∈ path, (!isBlank c && c != stop) = true

/-- How every address begins. -/
def urlOpening : Text :=
  "$BASE_URL_".toList

variable {stop : Char}

namespace Url

/-- The address as it is written. -/
def text (w : Url stop) : Text :=
  urlOpening ++ (w.service ++ '/' :: w.path)

/-- The address as the pieces of the pattern take it. -/
theorem text_eq_parts (w : Url stop) :
    w.text = urlOpening ++ (w.service ++ ("/".toList ++ (w.path ++ []))) := by
  rw [List.append_nil]
  rfl

theorem text_ne_nil (w : Url stop) : w.text ≠ [] :=
  List.cons_ne_nil '$' _

/-- No white space is in an address. -/
theorem isBlank_of_mem (w : Url stop) : ∀ c ∈ w.text, isBlank c = false := by
  intro c hc
  have hopening : ∀ c ∈ urlOpening, isBlank c = false := by decide
  simp only [text, List.mem_append, List.mem_cons] at hc
  rcases hc with hc | hc | rfl | hc
  · exact hopening c hc
  · exact isBlank_of_isUpper (w.isUpper_of_mem c hc)
  · decide
  · have := w.inPath_of_mem c hc
    simp only [Bool.and_eq_true, Bool.not_eq_true'] at this
    exact this.1

theorem notMem_of_isBlank (w : Url stop) {d : Char} (hd : isBlank d = true) : d ∉ w.text := by
  intro h
  simp [w.isBlank_of_mem d h] at hd

/-- The character at which an address stops is not in it. -/
theorem stop_notMem (w : Url stop) (hu : stop.isUpper = false) (hs : stop ≠ '/')
    (ho : stop ∉ urlOpening) : stop ∉ w.text := by
  have hservice : stop ∉ w.service := fun h => by simp [w.isUpper_of_mem _ h] at hu
  have hpath : stop ∉ w.path := fun h => by simpa using w.inPath_of_mem _ h
  simp only [text, List.mem_append, List.mem_cons, not_or]
  exact ⟨ho, hservice, hs, hpath⟩

end Url

theorem newline_notMem_opening : '\n' ∉ opening := by
  decide

end CurlLog.CurlCall
