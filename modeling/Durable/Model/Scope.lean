/-
Local names.

A name is visible from behind its declaration to the end of the block it stands in.
`Node.bindsBehind` says which part of which node declares a name for the parts behind
it, and `Node.bindsInside` which names a node declares for all its parts; visibility is
then one walk over an outline, in which scopes are opened by going into a node and
closed by leaving it.
-/
import Durable.Tree.Outline

namespace Durable

/-- The name that a part of a node declares for the parts behind it: a parameter for what follows
it, a local variable for the rest of its block, and the variable of a loop or of a handler for the
block it belongs to.  The value of a local variable is part of its declaration, so the variable is
not visible there. -/
def Node.bindsBehind : Node → Node → Option String
  | .function _, .param p => some p.name.name
  | .block _, .stmt (.localVar d _) => some d.name.name
  | .stmt (.foreach _ name _ _ _), .expr _ => some name.name
  | .stmt (.attemptOnFail _ _ name _ _), .type _ => some name.name
  | _, _ => none

/-- The names that a node declares for all its parts: a service knows itself as `self`. -/
def Node.bindsInside : Node → List String
  | .service _ => ["self"]
  | _ => []

/-- A reference is to a local name that is in scope. -/
def NameRef.isLocalIn (r : NameRef) (scope : List String) : Bool :=
  r.via.isNone && scope.contains r.name.name

namespace Outline

mutual

/-- Every reference of an outline, in reading order, with whether it is to a local name, where the
names in `scope` are visible from outside. -/
def references (scope : List String) : Outline → List (NameRef × Bool)
  | .mk n parts =>
    let own := match n with
      | .ref r => [(r, r.isLocalIn scope)]
      | _ => []
    own ++ referencesOfParts n (n.bindsInside ++ scope) parts

/-- Every reference of the parts of a node. -/
def referencesOfParts (parent : Node) (scope : List String) : List Outline → List (NameRef × Bool)
  | [] => []
  | o :: os =>
    o.references scope
      ++ referencesOfParts parent ((parent.bindsBehind o.node).toList ++ scope) os

end

end Outline

end Durable
