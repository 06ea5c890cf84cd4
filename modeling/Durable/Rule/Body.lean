/-
What the body of an entry may do.

Bodies are replayed, so two things are refused: to touch a mutable variable of the
module inside a critical section, and to leave the type of an activity's result to be
inferred.
-/
import Durable.Diagnostic
import Durable.Model.Types

namespace Durable.Rule

variable (m : Model) (doc : DocId)

/-- What is around a node of a body. -/
structure Surroundings where
  /-- A critical section is open. -/
  inLock : Bool
  /-- The place of the word `var` of the nearest declaration around, if that has no other type. -/
  inferredType : Option Span

/-- A variable of a module that is isolated and may change: it is not configured, and not both final
and of a type whose values never change. -/
def isGuardedMutable (item : Item) (v : VarDecl) : Bool :=
  v.modifiers.has .isolated && !v.modifiers.has .configurable
    && !(v.modifiers.has .final && m.isReadonly item.doc v.type)

/-- What is wrong with a reference in a critical section. -/
def lockedReference (r : NameRef) : List Finding :=
  match m.symbol doc r with
  | .moduleVar item =>
    match m.package.moduleVar? item with
    | some v => if isGuardedMutable m item v then [⟨.mutableInLock r.asWritten, r.span⟩] else []
    | none => []
  | _ => []

/-- What is wrong with one node of a body, and what is around its parts. -/
def bodyNode (around : Surroundings) : Node → List Finding × Option Surroundings
  | .stmt (.lock _ _) => ([], some { around with inLock := true })
  | .localVar d =>
    ([], some { around with inferredType := if d.type.isInferred then some d.type.span else none })
  | .expr (.call callee _ _) =>
    match around.inferredType, m.activity? doc callee with
    | some span, some _ => ([⟨.activityBoundToVar, span⟩], some around)
    | _, _ => ([], some around)
  | .ref r => (if around.inLock then lockedReference m doc r else [], some around)
  | _ => ([], some around)

/-- What is wrong with a body. -/
def bodyFindings (f : Function) : List Finding :=
  f.body.outline.walk (bodyNode m doc) ⟨false, none⟩

end Durable.Rule
