/-
Checking a package.

Every rule is run over what it is about: the signatures and bodies of processes, the
signatures of activities, and the methods of workflow services.  All findings are
collected; the activity calls of a package without errors are also routed.
-/
import Durable.Rule.Service
import Durable.Rule.Body
import Durable.Rule.CallSite
import Durable.Routing

namespace Durable.Check

/-- What is wrong with a function of a module, by the role it plays. -/
def functionFindings (m : Model) (doc : DocId) (f : Function) : List Finding :=
  match m.role doc f.annotations with
  | .process =>
    Rule.processSignature m doc f ++ Rule.bodyFindings m doc f ++ Rule.dispatchedCalls m doc f
      ++ Rule.directCalls m doc f
  | .activity => Rule.activitySignature m doc f
  | .signal | .query | .unmarked => []

/-- What is wrong with a workflow service and the bodies of its entries. -/
def serviceFindings (m : Model) (doc : DocId) (s : Service) : List Finding :=
  Rule.serviceContract m doc s
    ++ (Rule.entries m s).flatMap fun f =>
      Rule.bodyFindings m doc f ++ Rule.dispatchedCalls m doc f

/-- What is wrong with a member. -/
def memberFindings (m : Model) (doc : DocId) : Member → List Finding
  | .function f => functionFindings m doc f
  | .service s => if m.isWorkflowService doc s then serviceFindings m doc s else []
  | _ => []

/-- The diagnostics of a document in source order of its members. -/
def documentDiagnostics (m : Model) (d : Document) : Diagnostics :=
  (d.tree.members.flatMap (memberFindings m d.id)).map (Diagnostic.ofFinding d.source)

/-- The diagnostics of a package in the order of their places. -/
def diagnostics (m : Model) : Diagnostics :=
  Diagnostics.sorted (m.package.documents.flatMap (documentDiagnostics m))

/-- The outcome of a check. -/
structure Outcome where
  diagnostics : Diagnostics
  /-- The routed documents, unless there are errors. -/
  routed : Option (List Routing.RoutedDocument)

/-- There are no errors. -/
def Outcome.isClean (o : Outcome) : Bool := !o.diagnostics.hasErrors

/-- The diagnostics of a package. -/
def analyze (p : Package) (o : Options) : Diagnostics := diagnostics (Model.build p o)

/-- The diagnostics of a package and, if none is an error, its routed documents. -/
def check (p : Package) (o : Options) : Outcome :=
  let m := Model.build p o
  let ds := diagnostics m
  { diagnostics := ds
    routed := if ds.hasErrors then none else some (Routing.routePackage m) }

end Durable.Check
