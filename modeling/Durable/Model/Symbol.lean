/-
What names denote.
-/
import Durable.Package.Basic

namespace Durable

/-- A member of a module, by its document and its index there. -/
structure Item where
  doc : DocId
  index : Nat
deriving DecidableEq, Repr, Inhabited

/-- The place of a document in short. -/
def DocId.describe (d : DocId) : String := toString d.module ++ "." ++ toString d.document

/-- The place of a member in short. -/
def Item.describe (i : Item) : String := i.doc.describe ++ "." ++ toString i.index

/-- What the framework's modules declare, as far as the checks care. -/
inductive FrameworkItem where
  | process | activity | signal | query
  | context | listener
  /-- The internal function that calls an activity by its name. -/
  | invokeActivity
  /-- The internal annotation that lists the activities of a service. -/
  | activities
  | other
deriving DecidableEq, Repr

namespace FrameworkItem

/-- What a name denotes in the public module. -/
def ofPublic : String → FrameworkItem
  | "Process" => process
  | "Activity" => activity
  | "Signal" => signal
  | "Query" => query
  | "Context" => context
  | "Listener" => listener
  | _ => other

/-- What a name denotes in the internal module. -/
def ofInternal : String → FrameworkItem
  | "invokeActivity" => invokeActivity
  | "Activities" => activities
  | _ => other

/-- The name of an item. -/
def name : FrameworkItem → String
  | process => "Process" | activity => "Activity" | signal => "Signal" | query => "Query"
  | context => "Context" | listener => "Listener" | invokeActivity => "InvokeActivity"
  | activities => "Activities" | other => "Other"

end FrameworkItem

/-- What a reference to a value denotes. -/
inductive Symbol where
  /-- A parameter, a local variable, a loop variable, or the service itself. -/
  | localName
  | function (item : Item)
  | moduleVar (item : Item)
  | const (item : Item)
  | listener (item : Item)
  | framework (item : FrameworkItem)
  /-- Something declared outside the package. -/
  | external
  | unresolved
deriving DecidableEq, Repr

/-- What a symbol is, in short. -/
def Symbol.describe : Symbol → String
  | localName => "local"
  | function item => "function " ++ item.describe
  | moduleVar item => "var " ++ item.describe
  | const item => "const " ++ item.describe
  | listener item => "listener " ++ item.describe
  | framework item => "framework " ++ item.name
  | external => "external"
  | unresolved => "unresolved"

/-- What a reference to a type denotes. -/
inductive TypeTarget where
  /-- A type of the package, with the document whose imports its definition is read by. -/
  | defined (doc : DocId) (definition : TypeDef)
  | framework (item : FrameworkItem)
  | external
  | unresolved

/-- What a type is, in short. -/
def TypeTarget.describe : TypeTarget → String
  | defined doc definition => "defined " ++ doc.describe ++ " " ++ definition.name.name
  | framework item => "framework " ++ item.name
  | external => "external"
  | unresolved => "unresolved"

/-- What a prefix stands for. -/
inductive ImportTarget where
  /-- A module of the package, by its index. -/
  | module (index : Nat)
  | framework
  | internal
  | external (name : ModuleName)
deriving DecidableEq, Repr

/-- What an import leads to, in short. -/
def ImportTarget.describe : ImportTarget → String
  | module index => "module " ++ toString index
  | framework => "framework"
  | internal => "internal"
  | external name => "external " ++ name.render

/-- The part that a declaration plays in a workflow. -/
inductive Role where
  | process | activity | signal | query | unmarked
deriving DecidableEq, Repr

/-- The name of a role. -/
def Role.name : Role → String
  | process => "Process" | activity => "Activity" | signal => "Signal" | query => "Query"
  | unmarked => "Unmarked"

end Durable
