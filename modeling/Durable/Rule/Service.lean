/-
What workflow services may look like from outside.

One remote method runs the workflow; the other remote methods are signals and queries.
All of them are isolated and take plain data.  Methods that are not remote are the
service's own affair, and resource methods have no place in a workflow.
-/
import Durable.Rule.Signature

namespace Durable.Rule

variable (m : Model) (doc : DocId)

/-- What is wrong with a remote method, whatever its name. -/
def remoteMethod (f : Function) : List Finding :=
  (if f.isIsolated then [] else [⟨.methodNotIsolated, f.span⟩])
    ++ paramFindings m doc .methodParam f.params
    ++ (if m.role doc f.annotations = .query then
        returnFinding (m.isAnydataOrError doc) .queryReturn f.returns
      else returnFinding (m.isErrorOrNil doc) .methodReturn f.returns)

/-- A method that runs the workflow. -/
def isEntry (f : Function) : Bool :=
  !f.isResource && f.isRemote && f.name.name == m.options.entryMethod

/-- A remote method other than the entry is a signal or a query. -/
def isMarked (f : Function) : Bool :=
  m.role doc f.annotations == .signal || m.role doc f.annotations == .query

/-- What is wrong with the methods of a service, given whether an entry came before them. -/
def methodFindings (hasEntry : Bool) : List Function → List Finding
  | [] => []
  | f :: fs =>
    if f.isResource then ⟨.resourceMethod, f.span⟩ :: methodFindings hasEntry fs
    else if !f.isRemote then methodFindings hasEntry fs
    else if isEntry m f then
      (if hasEntry then [⟨.secondEntryMethod, f.name.span⟩] else [])
        ++ remoteMethod m doc f ++ methodFindings true fs
    else
      (if isMarked m doc f then [] else [⟨.methodUnmarked, f.span⟩])
        ++ remoteMethod m doc f ++ methodFindings hasEntry fs

/-- The methods that run the workflow, in source order. -/
def entries (s : Service) : List Function := s.methods.filter (isEntry m)

/-- What is wrong with a service. -/
def serviceContract (s : Service) : List Finding :=
  methodFindings m doc false s.methods
    ++ (if (entries m s).isEmpty then [⟨.noEntryMethod, s.span⟩] else [])

end Durable.Rule
