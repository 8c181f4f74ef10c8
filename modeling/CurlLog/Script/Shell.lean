import CurlLog.Text.Basic

/-!
# Shell phrases

The forms of shell code that the annotations are made of: quoted words, a call of a function with
quoted words, and the line that prints a text in green.
-/

namespace CurlLog.Shell

/-- The text between single quotes. -/
def singleQuoted (s : Text) : Text :=
  '\'' :: s ++ ['\'']

/-- The text between double quotes. -/
def doubleQuoted (s : Text) : Text :=
  '"' :: s ++ ['"']

/-- The value of a variable, as one word. -/
def variableWord (name : Text) : Text :=
  doubleQuoted ('$' :: name)

/-- A line that sets a variable to a text in which nothing is expanded. -/
def assignment (name value : Text) : Text :=
  name ++ '=' :: singleQuoted value ++ ['\n']

/-- A line that calls a function with each of the words in double quotes. -/
def command (name : Text) (words : List Text) : Text :=
  name ++ words.flatMap (fun w => ' ' :: doubleQuoted w) ++ ['\n']

/-- How the command that prints a text in green begins. -/
def greenOpening : Text :=
  "echo -e \"$\x7bGREEN\x7d".toList

/-- How the command that prints a text in green ends. -/
def greenClosing : Text :=
  "$\x7bNC\x7d\"".toList

/-- The command that prints a text in green. -/
def green (s : Text) : Text :=
  greenOpening ++ s ++ greenClosing

end CurlLog.Shell
