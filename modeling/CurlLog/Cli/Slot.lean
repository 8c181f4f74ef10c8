import CurlLog.Text.Basic

/-!
# What the command line takes

The command line takes a path, settings (options with a value) and switches (options without
one). Each has a spelling by which usage messages refer to it.
-/

namespace CurlLog.Cli

/-- An option that takes a value. -/
inductive Setting where
  | helper
  | bodyVar
  | responseLabel
  | format
deriving DecidableEq, Repr

/-- An option without a value. -/
inductive Switch where
  | summary
  | verbose
  | help
  | version
deriving DecidableEq, Repr

namespace Setting

def all : List Setting :=
  [helper, bodyVar, responseLabel, format]

/-- The name after the two dashes. -/
def name : Setting → Text
  | helper => "helper".toList
  | bodyVar => "body-var".toList
  | responseLabel => "response-label".toList
  | format => "format".toList

/-- The letter after a single dash. -/
def letter? : Setting → Option Char
  | format => some 'f'
  | _ => none

/-- What the value is called in the help. -/
def valueName : Setting → Text
  | helper => "HELPER".toList
  | bodyVar => "BODY_VAR".toList
  | responseLabel => "RESPONSE_LABEL".toList
  | format => "FORMAT".toList

def ofName? (name : Text) : Option Setting :=
  all.find? fun s => s.name == name

def ofLetter? (c : Char) : Option Setting :=
  all.find? fun s => s.letter? == some c

theorem ofName?_name (s : Setting) : ofName? s.name = some s := by
  cases s <;> decide

end Setting

namespace Switch

def all : List Switch :=
  [summary, verbose, help, version]

/-- The name after the two dashes. -/
def name : Switch → Text
  | summary => "summary".toList
  | verbose => "verbose".toList
  | help => "help".toList
  | version => "version".toList

/-- The letter after a single dash. -/
def letter : Switch → Char
  | summary => 's'
  | verbose => 'v'
  | help => 'h'
  | version => 'V'

def ofName? (name : Text) : Option Switch :=
  all.find? fun s => s.name == name

def ofLetter? (c : Char) : Option Switch :=
  all.find? fun s => s.letter == c

theorem ofName?_name (s : Switch) : ofName? s.name = some s := by
  cases s <;> decide

theorem ofLetter?_letter (s : Switch) : ofLetter? s.letter = some s := by
  cases s <;> decide

end Switch

/-- A place on the command line that usage messages can refer to. -/
inductive Slot where
  | path
  | setting (s : Setting)
  | switch (s : Switch)
deriving DecidableEq, Repr

/-- How usage messages spell a place. -/
def Slot.spelling : Slot → Text
  | path => "[PATH]".toList
  | setting s => "--".toList ++ s.name ++ " <".toList ++ s.valueName ++ ">".toList
  | switch s => "--".toList ++ s.name

end CurlLog.Cli
