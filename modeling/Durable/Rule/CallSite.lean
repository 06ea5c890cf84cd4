/-
How activities may be called.

A process calls its activities through the context, which is given the activity and a
mapping of arguments by name.  The names are checked against the activity's parameters
as far as the mapping shows them.
-/
import Durable.Diagnostic
import Durable.Model.Types

namespace Durable.Rule

variable (m : Model) (doc : DocId)

/-- The activity that an expression names. -/
def namedActivity? (e : Expr) : Option Function :=
  match e.unparenthesized with
  | .name r => (m.activity? doc r).map (·.2)
  | _ => none

/-- The fields of a mapping that is passed by position. -/
def mappingFields? : Arg → Option (List MappingField)
  | .positional e =>
    match e.unparenthesized with
    | .mapping fields _ => some fields
    | _ => none
  | _ => none

/-- What is wrong with the names of the arguments for an activity.  A spread or a computed key may
supply any name, so then none can be missing. -/
def argumentNames (name : String) (activity : Function) (span : Span) (fields : List MappingField) :
    List Finding :=
  let provided := distinct (fields.filterMap (·.staticKey?))
  let missing := activity.params.filter fun p =>
    p.kind == .required && !provided.contains p.name.name
  let unknown := provided.filter fun k => !(activity.params.map (·.name.name)).contains k
  (if fields.all (·.staticKey?.isSome) then
      missing.map fun p => ⟨.missingArgument name p.name.name, span⟩
    else [])
    ++ unknown.map fun k => ⟨.unknownArgument name k, span⟩

/-- What is wrong with the arguments for an activity. -/
def activityArguments (activity : Function) (target : Expr) (args : Arg) : List Finding :=
  if activity.params.any (·.kind == .rest) then [⟨.restParams target.print, target.span⟩]
  else match mappingFields? args with
    | some fields => argumentNames target.print activity args.value.span fields
    | none => [⟨.uncheckedArguments, args.value.span⟩]

/-- What is wrong with a call through the context. -/
def dispatchedCall (method : Ident) : List Arg → List Finding
  | .positional target :: more =>
    match namedActivity? m doc target with
    | none => [⟨.targetNotActivity target.print, method.span⟩]
    | some activity =>
      match more with
      | args :: _ => activityArguments activity target args
      | [] => []
  | _ => []

/-- What is wrong with a node as a call through the context. -/
def dispatchedNode : Node → List Finding
  | .expr (.remoteCall _ method args _) =>
    if method.name = m.options.dispatchMethod then dispatchedCall m doc method args else []
  | _ => []

/-- What is wrong with the calls through the context in a body. -/
def dispatchedCalls (f : Function) : List Finding :=
  f.body.outline.nodes.flatMap (dispatchedNode m doc)

/-- What is wrong with a node as a call past the context. -/
def directNode : Node → List Finding
  | .expr (.call callee _ _) =>
    if (m.activity? doc callee).isSome then [⟨.directCall callee.asWritten, callee.span⟩] else []
  | _ => []

/-- The calls in a body that go past the context. -/
def directCalls (f : Function) : List Finding := f.body.outline.nodes.flatMap (directNode m doc)

end Durable.Rule
