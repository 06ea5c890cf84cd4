/-
Which values types hold.

Types are judged by their structure; names are followed to their definitions, across
documents and modules.  A name that leads out of the package is given the benefit of
the doubt, so that a missing library does not by itself break a rule.  Definitions may
be recursive, so names are followed to a fixed depth only.
-/
import Durable.Model.Basic

namespace Durable

/-- How many steps into a type are taken; each goes to a component or to a definition. -/
def typeDepth : Nat := 32

/-- The kinds of value that a type may hold. -/
structure Admitted where
  anydata : Bool
  error : Bool
  nil : Bool
deriving DecidableEq, Repr

namespace Admitted

/-- Plain data. -/
def plain : Admitted := ⟨true, false, true⟩

/-- Plain data or an error. -/
def plainOrError : Admitted := ⟨true, true, true⟩

/-- An error or nothing. -/
def errorOrNil : Admitted := ⟨false, true, true⟩

/-- The type of a reserved word stays within what is admitted. -/
def fitsBuiltin (a : Admitted) : BuiltinType → Bool
  | .int | .float | .decimal | .string | .boolean | .byte | .anydata | .json | .xml => a.anydata
  | .error => a.error
  | .never => true
  | .any | .readonly | .handle | .typedesc => false

end Admitted

namespace Model

variable (m : Model)

/-- A type stays within what is admitted, as far as `depth` steps into it show. -/
def fits : (depth : Nat) → DocId → Admitted → TypeDesc → Bool
  | 0, _, _, _ => true
  | depth + 1, doc, a, t =>
    match t with
    | .builtin b _ => a.fitsBuiltin b
    | .nil _ | .singleton .nil _ => a.nil
    | .singleton _ _ => a.anydata
    | .inferred _ => true
    | .paren inner _ => fits depth doc a inner
    | .optional inner _ => a.nil && fits depth doc a inner
    | .array inner _ | .map inner _ => a.anydata && fits depth doc .plain inner
    | .union members _ => members.all (fits depth doc a)
    | .intersection members _ => members.any (fits depth doc a)
    | .record _ fields rest _ =>
      a.anydata && fields.all (fun f => fits depth doc .plain f.type)
        && rest.all (fits depth doc .plain)
    | .future _ _ | .stream _ _ _ | .anyFunction _ | .function _ _ _ _ => false
    | .named r =>
      match m.resolveType doc r with
      | .defined doc d => fits depth doc a d.type
      | .framework _ => false
      | .external | .unresolved => true

/-- A type stays within what is admitted. -/
def isWithin (doc : DocId) (a : Admitted) (t : TypeDesc) : Bool := m.fits (typeDepth + 1) doc a t

/-- A subtype of `anydata`. -/
def isAnydata (doc : DocId) (t : TypeDesc) : Bool := m.isWithin doc .plain t

/-- A subtype of `anydata|error`. -/
def isAnydataOrError (doc : DocId) (t : TypeDesc) : Bool := m.isWithin doc .plainOrError t

/-- A subtype of `error?`. -/
def isErrorOrNil (doc : DocId) (t : TypeDesc) : Bool := m.isWithin doc .errorOrNil t

/-- Values of a type never change, as far as `depth` steps into it show. -/
def immutable : (depth : Nat) → DocId → TypeDesc → Bool
  | 0, _, _ => false
  | depth + 1, doc, t =>
    match t with
    | .builtin b _ =>
      match b with
      | .int | .float | .decimal | .string | .boolean | .byte | .error | .readonly | .never
      | .typedesc => true
      | .anydata | .any | .json | .xml | .handle => false
    | .nil _ | .singleton _ _ => true
    | .paren inner _ | .optional inner _ => immutable depth doc inner
    | .union members _ => members.all (immutable depth doc)
    | .intersection members _ => members.any (immutable depth doc)
    | .named r =>
      match m.resolveType doc r with
      | .defined doc d => immutable depth doc d.type
      | _ => false
    | _ => false

/-- Values of a type never change. -/
def isReadonly (doc : DocId) (t : TypeDesc) : Bool := m.immutable (typeDepth + 1) doc t

/-- A type denotes an item of the framework, through at most `depth` names and parentheses. -/
def denotes (item : FrameworkItem) : (depth : Nat) → DocId → TypeDesc → Bool
  | 0, _, _ => false
  | depth + 1, doc, t =>
    match t with
    | .paren inner _ => denotes item depth doc inner
    | .named r =>
      match m.resolveType doc r with
      | .framework found => found == item
      | .defined doc d => denotes item depth doc d.type
      | .external | .unresolved => false
    | _ => false

/-- A type denotes an item of the framework. -/
def isFrameworkType (doc : DocId) (item : FrameworkItem) (t : TypeDesc) : Bool :=
  m.denotes item (typeDepth + 1) doc t

/-- The type behind parentheses and names of the package, and the document to read it in, if it is
found in `depth` steps. -/
def unaliased : (depth : Nat) → DocId → TypeDesc → Option (DocId × TypeDesc)
  | 0, _, _ => none
  | depth + 1, doc, t =>
    match t with
    | .paren inner _ => unaliased depth doc inner
    | .named r =>
      match m.resolveType doc r with
      | .defined doc d => unaliased depth doc d.type
      | _ => some (doc, t)
    | _ => some (doc, t)

/-- A future of plain data. -/
def isAnydataFuture (doc : DocId) (t : TypeDesc) : Bool :=
  match m.unaliased typeDepth doc t with
  | some (doc, .future (some inner) _) => m.isAnydata doc inner
  | _ => false

/-- A record of events: it has fields, and all of them are futures of plain data. -/
def isEventsRecord (doc : DocId) (t : TypeDesc) : Bool :=
  match m.unaliased typeDepth doc t with
  | some (doc, .record _ fields rest _) =>
    !fields.isEmpty && fields.all (fun f => m.isAnydataFuture doc f.type)
      && rest.all (m.isAnydataFuture doc)
  | _ => false

/-! ### Workflow services -/

/-- An expression gives the framework's listener: it constructs it, or names a listener or a variable
that is typed by it or holds it. -/
def givesListener : (depth : Nat) → DocId → Expr → Bool
  | 0, _, _ => false
  | depth + 1, doc, e =>
    match e.unparenthesized with
    | .unary .check inner _ | .unary .checkPanic inner _ => givesListener depth doc inner
    | .construct (some t) _ _ => m.isFrameworkType doc .listener t
    | .name r =>
      match m.symbol doc r with
      | .listener item =>
        match m.package.listener? item with
        | some d =>
          d.type.any (m.isFrameworkType item.doc .listener)
            || givesListener depth item.doc d.value
        | none => false
      | .moduleVar item =>
        match m.package.moduleVar? item with
        | some v =>
          m.isFrameworkType item.doc .listener v.type
            || v.init.any (givesListener depth item.doc)
        | none => false
      | _ => false
    | _ => false

/-- A service is attached to the framework's listener. -/
def isWorkflowService (doc : DocId) (s : Service) : Bool :=
  s.listeners.any (m.givesListener (typeDepth + 1) doc)

end Model

end Durable
