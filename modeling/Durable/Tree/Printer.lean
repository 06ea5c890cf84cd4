/-
Writing trees as text.

The layout is fixed: one member to a paragraph, four blanks of indentation, one
statement to a line.  No parentheses are added; a tree that was read holds the ones it
needs as nodes of their own.  Comments and the layout that was read are not part of a tree,
so printing a module keeps its meaning and not its looks; where looks matter the text
is edited in place instead.
-/
import Durable.Text.Quoted
import Durable.Tree.Basic

namespace Durable

/-- The text of a literal. -/
def Literal.print : Literal → String
  | nil => "()"
  | bool b => if b then "true" else "false"
  | int text => text
  | float text => text
  | string value => Text.quote value

/-! ### Types and expressions -/

mutual

/-- The text of a type. -/
def TypeDesc.print : TypeDesc → String
  | .builtin b _ => b.keyword.text
  | .nil _ => "()"
  | .inferred _ => "var"
  | .named r => r.asWritten
  | .optional t _ => t.print ++ "?"
  | .array t _ => t.print ++ "[]"
  | .union ts _ => "|".intercalate (printTypes ts)
  | .intersection ts _ => " & ".intercalate (printTypes ts)
  | .map t _ => "map<" ++ t.print ++ ">"
  | .future none _ => "future"
  | .future (some t) _ => "future<" ++ t.print ++ ">"
  | .stream item none _ => "stream<" ++ item.print ++ ">"
  | .stream item (some done) _ => "stream<" ++ item.print ++ ", " ++ done.print ++ ">"
  | .anyFunction _ => "function"
  | .function params rest returns _ =>
    let rest := match rest with
      | some t => [t.print ++ "..."]
      | none => []
    let returns := match returns with
      | some t => " returns " ++ t.print
      | none => ""
    "function (" ++ ", ".intercalate (printTypes params ++ rest) ++ ")" ++ returns
  | .record closed fields rest _ =>
    let rest := match rest with
      | some t => " " ++ t.print ++ "...;"
      | none => ""
    let (opening, closing) := if closed then ("record \x7b|", " |\x7d") else ("record \x7b", " \x7d")
    opening ++ printRecordFields fields ++ rest ++ closing
  | .singleton value _ => value.print
  | .paren t _ => "(" ++ t.print ++ ")"

/-- The texts of several types. -/
def printTypes : List TypeDesc → List String
  | [] => []
  | t :: ts => t.print :: printTypes ts

/-- The fields of a record type, each after a blank. -/
def printRecordFields : List RecordField → String
  | [] => ""
  | .mk isReadonly type name isOptional default _ :: fields =>
    let default := match default with
      | some e => " = " ++ e.print
      | none => ""
    " " ++ (if isReadonly then "readonly " else "") ++ type.print ++ " " ++ name.name
      ++ (if isOptional then "?" else "") ++ default ++ ";" ++ printRecordFields fields

/-- The text of an expression. -/
def Expr.print : Expr → String
  | .literal value _ => value.print
  | .name r => r.asWritten
  | .call callee args _ => callee.asWritten ++ "(" ++ ", ".intercalate (printArgs args) ++ ")"
  | .methodCall receiver method args _ =>
    receiver.print ++ "." ++ method.name ++ "(" ++ ", ".intercalate (printArgs args) ++ ")"
  | .remoteCall receiver method args _ =>
    receiver.print ++ "->" ++ method.name ++ "(" ++ ", ".intercalate (printArgs args) ++ ")"
  | .field target name _ => target.print ++ "." ++ name.name
  | .index target position _ => target.print ++ "[" ++ position.print ++ "]"
  | .mapping fields _ => "\x7b" ++ ", ".intercalate (printFields fields) ++ "\x7d"
  | .list items _ => "[" ++ ", ".intercalate (printExprs items) ++ "]"
  | .unary op operand _ => op.text ++ operand.print
  | .binary op left right _ => left.print ++ " " ++ op.mark.text ++ " " ++ right.print
  | .typeTest operand type _ => operand.print ++ " is " ++ type.print
  | .conditional condition ifTrue ifFalse _ =>
    condition.print ++ " ? " ++ ifTrue.print ++ " : " ++ ifFalse.print
  | .cast type operand _ => "<" ++ type.print ++ ">" ++ operand.print
  | .construct type args _ =>
    let type := match type with
      | some t => t.print
      | none => ""
    "new " ++ type ++ "(" ++ ", ".intercalate (printArgs args) ++ ")"
  | .paren inner _ => "(" ++ inner.print ++ ")"
  | .required _ => "?"

/-- The texts of several expressions. -/
def printExprs : List Expr → List String
  | [] => []
  | e :: es => e.print :: printExprs es

/-- The texts of the arguments of a call. -/
def printArgs : List Arg → List String
  | [] => []
  | .positional e :: args => e.print :: printArgs args
  | .named name e :: args => (name.name ++ " = " ++ e.print) :: printArgs args
  | .rest e :: args => ("..." ++ e.print) :: printArgs args

/-- The texts of the fields of a mapping. -/
def printFields : List MappingField → List String
  | [] => []
  | .word key e :: fields => (key.name ++ ": " ++ e.print) :: printFields fields
  | .string key _ e :: fields => (Text.quote key ++ ": " ++ e.print) :: printFields fields
  | .computed key e :: fields => ("[" ++ key.print ++ "]: " ++ e.print) :: printFields fields
  | .shorthand r :: fields => r.asWritten :: printFields fields
  | .spread e :: fields => ("..." ++ e.print) :: printFields fields

end

/-! ### Declarations -/

/-- The text of an annotation. -/
def Annotation.print (a : Annotation) : String :=
  "@" ++ a.name.asWritten ++ (match a.value with | some e => " " ++ e.print | none => "")

/-- The start of a line that stands `depth` levels deep. -/
def lineStart (depth : Nat) : String := "\n" ++ String.ofList (List.replicate (4 * depth) ' ')

/-- Annotations before a member, each on its own line. -/
def printAnnotations (depth : Nat) (as : List Annotation) : String :=
  String.join (as.map fun a => a.print ++ lineStart depth)

/-- Annotations before a parameter or a local variable, on its line. -/
def printInlineAnnotations (as : List Annotation) : String :=
  String.join (as.map fun a => a.print ++ " ")

/-- Modifiers, each followed by a blank. -/
def printModifiers (ms : Modifiers) : String :=
  String.join (ms.map fun (m, _) => m.keyword.text ++ " ")

/-- An initial value behind its sign, if there is one. -/
def printInit : Option Expr → String
  | some e => " = " ++ e.print
  | none => ""

/-- The text of a local variable's declaration. -/
def LocalVar.print (d : LocalVar) : String :=
  printInlineAnnotations d.annotations ++ (if d.isFinal then "final " else "") ++ d.type.print ++ " "
    ++ d.name.name ++ printInit d.init ++ ";"

/-! ### Statements -/

mutual

/-- The text of a statement that stands `depth` levels deep. -/
def Stmt.print (depth : Nat) : Stmt → String
  | .localVar d _ => d.print
  | .assign target op value _ => target.print ++ " " ++ op.mark.text ++ " " ++ value.print ++ ";"
  | .expr value _ => value.print ++ ";"
  | .lock body _ => "lock " ++ body.print depth
  | .ifElse condition body otherwise _ =>
    let otherwise := match otherwise with
      | some s => " else " ++ s.print depth
      | none => ""
    "if " ++ condition.print ++ " " ++ body.print depth ++ otherwise
  | .whileLoop condition body _ => "while " ++ condition.print ++ " " ++ body.print depth
  | .foreach type name items body _ =>
    "foreach " ++ type.print ++ " " ++ name.name ++ " in " ++ items.print ++ " " ++ body.print depth
  | .giveBack value _ =>
    "return" ++ (match value with | some e => " " ++ e.print | none => "") ++ ";"
  | .attempt body _ => "do " ++ body.print depth
  | .attemptOnFail body type name handler _ =>
    "do " ++ body.print depth ++ " on fail " ++ type.print ++ " " ++ name.name ++ " "
      ++ handler.print depth
  | .block body _ => body.print depth
  | .panic value _ => "panic " ++ value.print ++ ";"
  | .fail value _ => "fail " ++ value.print ++ ";"
  | .leave _ => "break;"
  | .again _ => "continue;"

/-- The text of a block whose braces stand `depth` levels deep. -/
def Block.print (depth : Nat) : Block → String
  | .mk stmts _ => "\x7b" ++ printStmts (depth + 1) stmts ++ lineStart depth ++ "\x7d"

/-- Statements, each on a new line. -/
def printStmts (depth : Nat) : List Stmt → String
  | [] => ""
  | s :: ss => lineStart depth ++ s.print depth ++ printStmts depth ss

end

/-! ### Members -/

/-- The text of a parameter. -/
def Param.print (p : Param) : String :=
  printInlineAnnotations p.annotations ++ p.type.print ++ (if p.kind = .rest then "..." else "")
    ++ " " ++ p.name.name ++ printInit p.default

/-- The text of a function that stands `depth` levels deep. -/
def Function.print (depth : Nat) (f : Function) : String :=
  let path := match f.resourcePath with
    | some p => " " ++ p
    | none => ""
  let returns := match f.returns with
    | some t => " returns " ++ t.print
    | none => ""
  printAnnotations depth f.annotations ++ printModifiers f.modifiers ++ "function " ++ f.name.name
    ++ path ++ "(" ++ ", ".intercalate (f.params.map Param.print) ++ ")" ++ returns ++ " "
    ++ f.body.print depth

/-- The text of a variable's declaration that stands `depth` levels deep. -/
def VarDecl.print (depth : Nat) (v : VarDecl) : String :=
  printAnnotations depth v.annotations ++ printModifiers v.modifiers ++ v.type.print ++ " "
    ++ v.name.name ++ printInit v.init ++ ";"

/-- A type behind which a name follows, if one is written. -/
def printTypeBefore : Option TypeDesc → String
  | some t => t.print ++ " "
  | none => ""

/-- The text of a constant or a listener, which the given word announces. -/
def ValueDecl.print (word : Keyword) (d : ValueDecl) : String :=
  printAnnotations 0 d.annotations ++ printModifiers d.modifiers ++ word.text ++ " "
    ++ printTypeBefore d.type ++ d.name.name ++ " = " ++ d.value.print ++ ";"

/-- The text of a type definition. -/
def TypeDef.print (d : TypeDef) : String :=
  printAnnotations 0 d.annotations ++ printModifiers d.modifiers ++ "type " ++ d.name.name ++ " "
    ++ d.type.print ++ ";"

/-- The text of an annotation's declaration. -/
def AnnotationDecl.print (d : AnnotationDecl) : String :=
  let points := if d.attachPoints.isEmpty then "" else " on " ++ ", ".intercalate d.attachPoints
  printModifiers d.modifiers ++ "annotation " ++ printTypeBefore d.type ++ d.name.name ++ points
    ++ ";"

/-- The text of a member of a service. -/
def ServiceMember.print : ServiceMember → String
  | method f => f.print 1
  | field v => v.print 1

/-- The text of a service; its members are set apart by empty lines. -/
def Service.print (s : Service) : String :=
  let path := match s.basePath with
    | some p => p ++ " "
    | none => ""
  printAnnotations 0 s.annotations ++ printModifiers s.modifiers ++ "service "
    ++ printTypeBefore s.type ++ path ++ "on " ++ ", ".intercalate (s.listeners.map Expr.print)
    ++ " \x7b" ++ "\n".intercalate (s.members.map fun m => lineStart 1 ++ m.print) ++ "\n\x7d"

/-- The text of a member of a module. -/
def Member.print : Member → String
  | function f => f.print 0
  | service s => s.print
  | moduleVar v => v.print 0
  | const d => d.print .kwConst
  | type d => d.print
  | listener d => d.print .kwListener
  | annotationDecl d => d.print

/-- The text of an import, semicolon included. -/
def Import.print (i : Import) : String :=
  let org := match i.org with
    | some o => o.name ++ "/"
    | none => ""
  let rename := match i.rename with
    | some p => " as " ++ p.name
    | none => ""
  "import " ++ org ++ i.moduleName ++ rename ++ ";"

/-- The text of a module: its imports, then its members, all set apart by empty lines. -/
def Module.print (m : Module) : String :=
  let imports := String.join (m.imports.map fun i => i.print ++ "\n")
  let members := "\n".intercalate (m.members.map fun d => d.print ++ "\n")
  let gap := if m.imports.isEmpty || m.members.isEmpty then "" else "\n"
  imports ++ gap ++ members

end Durable
