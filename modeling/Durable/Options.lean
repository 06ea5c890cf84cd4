/-
What the checks take the framework to be called.

The framework has a public module, which workflow code is written against, and an
internal one, which only routed calls use.
-/
import Durable.Tree.Printer

namespace Durable

/-- The names that the checks and the routing go by. -/
structure Options where
  /-- The organization of both modules of the framework. -/
  frameworkOrg : String := "ballerina"
  frameworkModule : String := "workflow"
  internalModule : String := "workflow.internal"
  /-- The prefix that routed calls reach the internal module by. -/
  internalAlias : String := "workflow_internal"
  /-- The method of the context that calls an activity. -/
  dispatchMethod : String := "callActivity"
  /-- The method of a service that runs the workflow. -/
  entryMethod : String := "execute"
deriving DecidableEq, Repr, Inhabited

namespace Options

/-- The import of the internal module under a prefix. -/
def importOfInternal (o : Options) (via : String) : Import where
  org := some ⟨o.frameworkOrg, .synthetic⟩
  path := (o.internalModule.toList.splitOn '.').map fun part => ⟨String.ofList part, .synthetic⟩
  rename := some ⟨via, .synthetic⟩
  span := .synthetic

/-- The text of the import of the internal module under its usual prefix. -/
def internalImport (o : Options) : String :=
  "import " ++ o.frameworkOrg ++ "/" ++ o.internalModule ++ " as " ++ o.internalAlias ++ ";"

end Options

end Durable
