/-
Routing the activity calls of workflow services through the engine.

In a workflow service, an activity call that initialises a local variable becomes a call
of the internal dispatch function with the activity's name in front of the arguments,
cast to the type the activity returns.  A service with such calls is annotated with the
table of its activities, and a document with such services imports the internal module.

The source text is edited in place: nothing that was written is moved to another line,
and a document without such calls is not changed at all.
-/
import Durable.Text.Edit
import Durable.Model.Types

namespace Durable

open Text (Edit)

/-! ### Types at the call site -/

/-- A reference through a prefix, unless it goes through one already. -/
def NameRef.qualify (via : String) (r : NameRef) : NameRef :=
  match r.via with
  | some _ => r
  | none => { r with via := some ⟨via, .synthetic⟩ }

mutual

/-- A type with its unqualified names taken through a prefix, so that a type declared beside an
activity is found from where the activity is called.  Defaults of record fields are left alone. -/
def TypeDesc.qualify (via : String) : TypeDesc → TypeDesc
  | .named r => .named (r.qualify via)
  | .optional t s => .optional (t.qualify via) s
  | .array t s => .array (t.qualify via) s
  | .map t s => .map (t.qualify via) s
  | .paren t s => .paren (t.qualify via) s
  | .union ts s => .union (qualifyTypes via ts) s
  | .intersection ts s => .intersection (qualifyTypes via ts) s
  | .future none s => .future none s
  | .future (some t) s => .future (some (t.qualify via)) s
  | .stream t none s => .stream (t.qualify via) none s
  | .stream t (some c) s => .stream (t.qualify via) (some (c.qualify via)) s
  | .function ps rest returns s =>
    .function (qualifyTypes via ps)
      (match rest with | some t => some (t.qualify via) | none => none)
      (match returns with | some t => some (t.qualify via) | none => none) s
  | .record closed fields rest s =>
    .record closed (qualifyFields via fields)
      (match rest with | some t => some (t.qualify via) | none => none) s
  | .builtin b s => .builtin b s
  | .nil s => .nil s
  | .inferred s => .inferred s
  | .anyFunction s => .anyFunction s
  | .singleton v s => .singleton v s

/-- Several types taken through a prefix. -/
def qualifyTypes (via : String) : List TypeDesc → List TypeDesc
  | [] => []
  | t :: ts => t.qualify via :: qualifyTypes via ts

/-- The types of record fields taken through a prefix. -/
def qualifyFields (via : String) : List RecordField → List RecordField
  | [] => []
  | .mk r t n o d s :: fields => .mk r (t.qualify via) n o d s :: qualifyFields via fields

end

namespace Routing

/-- The internal function that calls an activity by its name. -/
def dispatchFunction : String := "invokeActivity"

/-- The internal annotation that lists the activities of a service. -/
def tableTag : String := "Activities"

/-! ### Calls -/

/-- A call that is routed through the engine: the reference it was made by, the type it is cast to,
and where its arguments start. -/
structure RoutedCall where
  callee : NameRef
  returns : TypeDesc
  argsStart : Nat
  hasArgs : Bool

/-- The offset behind the first opening parenthesis at or behind an offset. -/
def behindParenthesis? (source : Source) (offset : Nat) : Option Nat := do
  let (_, after) ← Text.splitAtByte offset source.text.toList
  if after.contains '(' then
    some (offset + Text.byteLength (after.takeWhile (· != '(')) + 1)
  else none

/-- The type an activity returns, as it is written where the activity is called by a reference. -/
def returnTypeAt (callee : NameRef) (activity : Function) : TypeDesc :=
  match activity.returns, callee.via with
  | some t, some p => t.qualify p.name
  | some t, none => t
  | none, _ => .nil .synthetic

/-- The routed form of an expression, if it is a call of an activity. -/
def routedCall? (m : Model) (doc : DocId) (source : Source) : Expr → Option RoutedCall
  | .call callee args _ => do
    let (_, activity) ← m.activity? doc callee
    let argsStart ← behindParenthesis? source callee.span.stop
    pure ⟨callee, returnTypeAt callee activity, argsStart, !args.isEmpty⟩
  | _ => none

namespace RoutedCall

/-- The name under which the engine knows the activity: the reference as it is written. -/
def name (c : RoutedCall) : String := c.callee.asWritten

/-- What takes the place of the callee. -/
def head (via : String) (c : RoutedCall) : String :=
  "<" ++ c.returns.print ++ ">" ++ via ++ ":" ++ dispatchFunction

/-- What is put in front of the arguments. -/
def firstArg (c : RoutedCall) : String :=
  Text.quote c.name ++ (if c.hasArgs then ", " else "")

/-- The edits that route a call. -/
def edits (via : String) (c : RoutedCall) : List Edit :=
  [⟨c.callee.span, c.head via⟩, .insertion c.argsStart c.firstArg]

end RoutedCall

/-- What a node contributes to the routed calls of a service.  The parts of a routed call are left
as they are. -/
def routedNode (m : Model) (doc : DocId) (source : Source) (_ : Unit) :
    Node → List RoutedCall × Option Unit
  | .localVar d =>
    match d.init.bind (routedCall? m doc source) with
    | some c => ([c], none)
    | none => ([], some ())
  | _ => ([], some ())

/-- The calls of a service that are routed, in source order. -/
def routedCalls (m : Model) (doc : DocId) (source : Source) (s : Service) : List RoutedCall :=
  s.outline.walk (routedNode m doc source) ()

/-! ### Services -/

/-- The activities of some calls by their names, in the order of their first calls. -/
def activityTable : List RoutedCall → List (String × NameRef)
  | [] => []
  | c :: cs =>
    (c.name, .synthetic (c.callee.via.map (·.name)) c.callee.name.name)
      :: (activityTable cs).filter fun (name, _) => name != c.name

/-- The annotation that lists the activities of a service. -/
def tagOfTable (via : String) (table : List (String × NameRef)) : Annotation where
  name := .synthetic (some via) tableTag
  value := some (.mapping (table.map fun (name, r) => .string name .synthetic (.name r)) .synthetic)
  span := .synthetic

/-- The edits that route the calls of a service, and its table. -/
structure ServiceRouting where
  edits : List Edit
  table : List (String × NameRef)

/-- The routing of a service, if it is a workflow service with calls to route. -/
def routeService? (m : Model) (d : Document) (via : String) (s : Service) :
    Option ServiceRouting :=
  if m.isWorkflowService d.id s then
    let calls := routedCalls m d.id d.source s
    let table := activityTable calls
    if calls.isEmpty then none
    else some
      { edits :=
          .insertion s.span.start ((tagOfTable via table).print ++ " ")
            :: calls.flatMap (·.edits via)
        table }
  else none

/-! ### Documents -/

/-- A document whose activity calls have been routed. -/
structure RoutedDocument where
  path : String
  changed : Bool
  /-- The names of the activities that are now called through the engine, in the order of their
  first calls. -/
  activities : List String
  text : String
deriving DecidableEq, Repr, Inhabited

/-- The prefix by which a document reaches the internal module: one it imports it by, or the usual
one. -/
def internalAlias (m : Model) (d : Document) : String :=
  ((d.tree.imports.map Import.boundName).find? fun p => m.import? d.id p == some .internal).getD
    m.options.internalAlias

/-- The edit that imports the internal module: behind the last import on its line, or at the start
of the text. -/
def importEdit (m : Model) (d : Document) (via : String) : Edit :=
  let text := (m.options.importOfInternal via).print
  match d.tree.imports.getLast? with
  | some last => .insertion last.span.stop (" " ++ text)
  | none => .insertion 0 (text ++ " ")

/-- The services of a document. -/
def servicesOf (d : Document) : List Service :=
  d.tree.members.filterMap fun
    | .service s => some s
    | _ => none

/-- The edits of a document, and the names of the activities they route. -/
def documentEdits (m : Model) (d : Document) : List Edit × List String :=
  let via := internalAlias m d
  let routed := (servicesOf d).filterMap (routeService? m d via)
  let activities := distinct (routed.flatMap fun r => r.table.map (·.1))
  let imports := if m.imports d.id .internal then [] else [importEdit m d via]
  if routed.isEmpty then ([], [])
  else (routed.flatMap (·.edits) ++ imports, activities)

/-- A document with the calls of its workflow services routed. -/
def routeDocument (m : Model) (d : Document) : RoutedDocument :=
  let (edits, activities) := documentEdits m d
  { path := d.path
    changed := !activities.isEmpty
    activities
    text := Edit.applyAll d.source.text edits }

/-- Every document of a package, routed. -/
def routePackage (m : Model) : List RoutedDocument :=
  m.package.documents.map (routeDocument m)

end Routing

end Durable
