import CurlLog.Text.Basic

/-!
# Terminal codes

A terminal takes sequences that begin with the escape character as commands, for colours among
other things. The program writes some itself. A message that repeats what the program was given
goes through `shown`, which leaves out all that a terminal would act on, so that a message never
changes the terminal (`of_mem_shown`). A terminal reads a sequence character by character
(`TerminalState`); one that is not closed swallows what follows, at most as far as the next
escape character.
-/

namespace CurlLog.Cli

/-! ## Styles -/

/-- The sequence that sets a property of the characters after it. -/
def terminalCode (code : Nat) : Text :=
  '\x1b' :: '[' :: Text.ofNat code ++ ['m']

def plain : Text := terminalCode 0
def bold : Text := terminalCode 1
def dim : Text := terminalCode 2
def red : Text := terminalCode 31
def green : Text := terminalCode 32
def yellow : Text := terminalCode 33
def cyan : Text := terminalCode 36

/-- A text in a style, with plain characters after it. -/
def styled (style s : Text) : Text :=
  style ++ s ++ plain

/-! ## Classes of characters -/

/-- A control character: the characters before the blank, and the one that deletes. -/
def isControl (c : Char) : Bool :=
  c.toNat < 0x20 || c.toNat == 0x7F

/-- The control characters that only move to another place of the page. -/
def isSpacing (c : Char) : Bool :=
  c == '\t' || c == '\n' || c == '\x0c' || c == '\r'

/-- A character that can stand before the last one of a sequence. -/
def isIntermediate (c : Char) : Bool :=
  ' ' ≤ c && c ≤ '/'

/-- A character of the numbers in a sequence, and those that mark a private use. -/
def isParameter (c : Char) : Bool :=
  '0' ≤ c && c ≤ '?'

/-- A character that marks a private use of a sequence. -/
def isPrivate (c : Char) : Bool :=
  '<' ≤ c && c ≤ '?'

/-- A character that closes a sequence. -/
def isFinal (c : Char) : Bool :=
  '@' ≤ c && c ≤ '~'

/--
Whether the byte `9C` is part of the character in UTF-8. A terminal takes it for the end of a
string, wherever it stands.
-/
def endsString (c : Char) : Bool :=
  let n := c.toNat
  0x80 ≤ n && (n % 0x40 == 0x1C || (0x800 ≤ n && n / 0x40 % 0x40 == 0x1C)
    || (0x10000 ≤ n && n / 0x1000 % 0x40 == 0x1C))

/-! ## What a terminal shows -/

/-- Where in a sequence the terminal is. -/
inductive TerminalState where
  | ground
  /-- After the escape character. -/
  | escape
  /-- After the escape character and an intermediate one. -/
  | intermediate
  /-- In a sequence that a bracket opens. -/
  | sequence
  /-- At the head of a string for a device. -/
  | deviceHead
  /-- In the parameters of a string for a device. -/
  | deviceParameters
  /-- After an intermediate character at the head of a string for a device. -/
  | deviceIntermediate
  /-- In a string. -/
  | string
  /-- In a string that a bell closes, such as a title. -/
  | title
deriving DecidableEq, Repr

namespace TerminalState

/-- The state after a character that is not shown. -/
def after (state : TerminalState) (c : Char) : TerminalState :=
  if c = '\x1b' then escape
  else if c = '\x18' || c = '\x1a' then ground
  else match state with
    | ground => ground
    | escape =>
      if isIntermediate c then intermediate
      else if c = '[' then sequence
      else if c = ']' then title
      else if c = 'P' then deviceHead
      else if c = 'X' || c = '^' || c = '_' then string
      else if isParameter c || isFinal c then ground
      else escape
    | intermediate => if isParameter c || isFinal c then ground else intermediate
    | sequence => if isFinal c then ground else sequence
    | deviceHead =>
      if isIntermediate c then deviceIntermediate
      else if isParameter c then deviceParameters
      else if isFinal c then string
      else deviceHead
    | deviceParameters =>
      if isIntermediate c then deviceIntermediate
      else if isPrivate c || isFinal c then string
      else deviceParameters
    | deviceIntermediate =>
      if isParameter c || isFinal c then string else deviceIntermediate
    | string => if endsString c then ground else string
    | title => if c = '\x07' then ground else title

/-- Whether a character that comes in a state is shown. -/
def shows : TerminalState → Char → Bool
  | ground, c => !isControl c || isSpacing c
  | escape, c | intermediate, c | sequence, c => isSpacing c
  | _, _ => false

end TerminalState

/--
`shown` from a state on. Once a character is shown, those after it are too, up to the next control
character that does not move on the page, even where the state is not the ground; that control
character is then read in the state that was left. A character outside ASCII leads to the ground.
-/
def shownFrom (showing : Bool) (state : TerminalState) : Text → Text
  | [] => []
  | c :: s =>
    if (if showing then .ground else state : TerminalState).shows c then
      c :: shownFrom true (if c.toNat < 0x80 then state else .ground) s
    else shownFrom false (state.after c) s

/-- The text without control characters that do not move on the page, and without sequences. -/
def shown (s : Text) : Text :=
  shownFrom false .ground s

/-- A text without control characters is shown as it is. -/
theorem shown_eq_self {s : Text} (h : ∀ c ∈ s, isControl c = false) : shown s = s := by
  have ground (showing : Bool) : shownFrom showing .ground s = s := by
    induction s generalizing showing with
    | nil => rfl
    | cons c s ih =>
      have hc : TerminalState.ground.shows c = true := by
        simp [TerminalState.shows, h c (by simp)]
      rw [shownFrom]
      simp only [hc, ite_self, if_true]
      rw [ih fun d hd => h d (by simp [hd])]
  exact ground false

/-- Where a character is shown, it is also shown on the ground. -/
theorem TerminalState.shows_ground {state : TerminalState} {c : Char} (h : state.shows c = true) :
    ground.shows c = true := by
  cases state <;> simp_all [shows]

theorem of_mem_shownFrom {showing : Bool} {state : TerminalState} {s : Text} {d : Char}
    (h : d ∈ shownFrom showing state s) : TerminalState.ground.shows d = true := by
  induction s generalizing showing state with
  | nil => simp [shownFrom] at h
  | cons c s ih =>
    rw [shownFrom] at h
    by_cases hc : (if showing then .ground else state : TerminalState).shows c = true
    · rw [if_pos hc] at h
      rcases List.mem_cons.mp h with rfl | h
      · exact TerminalState.shows_ground hc
      · exact ih h
    · rw [if_neg hc] at h
      exact ih h

/-- Of the control characters only those that move on the page are left, so no sequence is. -/
theorem of_mem_shown {s : Text} {d : Char} (h : d ∈ shown s) :
    isControl d = false ∨ isSpacing d = true := by
  simpa [TerminalState.shows] using of_mem_shownFrom h

end CurlLog.Cli
