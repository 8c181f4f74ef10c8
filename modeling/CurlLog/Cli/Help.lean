import CurlLog.Cli.Job

/-!
# Help and version

The help lists the path and the options, with the values that the environment gives now and with
the defaults.
-/

namespace CurlLog.Cli

/-- The version of the program. -/
def versionLine : Text :=
  "reqlog 0.1.0\n".toList

/-- The indentation of a description. -/
def descriptionIndent : Text :=
  List.replicate 10 ' '

/-- A text as it stands in a description: lines after the first are indented. -/
def inDescription (s : Text) : Text :=
  s.flatMap fun c => if c = '\n' then c :: descriptionIndent else [c]

/-- The default of an option, in its description. -/
def defaultNote (value : Text) : Text :=
  " [default: ".toList ++ value ++ "]".toList

/-- The variable of an option with its value, in the description of the option. -/
def variableNote (name : Text) (value : Option Text) : Text :=
  " [env: ".toList ++ name ++ '=' :: inDescription (value.getD []) ++ "]".toList

/-- The lines of an option: how it is written and what it does. -/
def optionLines (written description : Text) : Text :=
  "  ".toList ++ written ++ '\n' :: descriptionIndent ++ description ++ ['\n']

/-- How an option is written, in bold, with blanks in the place of a letter it has not. -/
def boldOption (letter? : Option Char) (name : Text) : Text :=
  (match letter? with
    | some c => styled bold ['-', c] ++ ", ".toList
    | none => "    ".toList) ++ styled bold ("--".toList ++ name)

/-- How a setting is written. -/
def Setting.written (s : Setting) : Text :=
  boldOption s.letter? s.name ++ " <".toList ++ s.valueName ++ ">".toList

/-- How a switch is written. -/
def Switch.written (s : Switch) : Text :=
  boldOption (some s.letter) s.name

/-- The help. -/
def helpText (env : Environment) : Text :=
  let defaults : Names := {}
  "Insert request logging into a shell API test script\n\n".toList
    ++ "Usage: reqlog [OPTIONS] [PATH]\n\n".toList
    ++ "Arguments:\n".toList
    ++ "  [PATH]  Path to the test script".toList ++ defaultNote defaultScript ++ "\n\n".toList
    ++ "Options:\n".toList
    ++ optionLines Setting.helper.written ("Name of the logging helper the script defines".toList
      ++ variableNote "REQLOG_HELPER".toList env.helper ++ defaultNote defaults.helper)
    ++ optionLines Setting.bodyVar.written ("Variable that receives each request body".toList
      ++ variableNote "REQLOG_BODY_VAR".toList env.bodyVar ++ defaultNote defaults.bodyVar)
    ++ optionLines Setting.responseLabel.written
      ("Label echoed before each response body".toList
        ++ variableNote "REQLOG_RESPONSE_LABEL".toList env.responseLabel
        ++ defaultNote defaults.responseLabel)
    ++ optionLines Switch.summary.written "Print per-pass rewrite counts to stderr".toList
    ++ optionLines Setting.format.written
      ("Summary format: text (default), json".toList ++ defaultNote defaultFormat)
    ++ optionLines Switch.verbose.written "Verbose output".toList
    ++ optionLines Switch.help.written "Print help".toList
    ++ optionLines Switch.version.written "Print version".toList

end CurlLog.Cli
