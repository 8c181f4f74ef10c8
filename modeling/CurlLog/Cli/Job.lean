import CurlLog.Cli.Arguments
import CurlLog.Names

/-!
# The job of a run

What a run works with. Each value comes from the arguments, or else from the environment, or else
it is the default. A value in the environment counts also when it is empty.
-/

namespace CurlLog.Cli

/-- The variables of the environment that a run looks at. -/
structure Environment where
  helper : Option Text := none
  bodyVar : Option Text := none
  responseLabel : Option Text := none
  /-- The name of a level. Other filters for log lines are left out. -/
  logLevel : Option Text := none
deriving DecidableEq, Repr

/-- The script that is annotated when no path is given. -/
def defaultScript : Text :=
  "test-all-apis.sh".toList

/-- The format of the summary when none is given. -/
def defaultFormat : Text :=
  "text".toList

/-- What a run works with. -/
structure Job where
  path : Text
  names : Names
  format : Text
  summary : Bool
  verbose : Bool
deriving DecidableEq, Repr

/-- The job that the arguments give in an environment. -/
def Given.job (env : Environment) (g : Given) : Job :=
  let defaults : Names := {}
  { path := g.path.getD defaultScript
    names :=
      { helper := (g.helper.or env.helper).getD defaults.helper
        bodyVar := (g.bodyVar.or env.bodyVar).getD defaults.bodyVar
        responseLabel := (g.responseLabel.or env.responseLabel).getD defaults.responseLabel }
    format := g.format.getD defaultFormat
    summary := g.summary
    verbose := g.verbose }

end CurlLog.Cli
