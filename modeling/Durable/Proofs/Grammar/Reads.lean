/-
The grammar of types and expressions, as a relation.

`Reads s c t c'` says that from the cursor `c` the symbol `s` reads the tree `t` and stops at
`c'`.  Every constructor is one production and says which tokens it needs, lookahead included;
there is no fuel, no failure and no state.  That the parser computes exactly this relation is
proved in `Grammar/Sound` and `Grammar/Complete`; what is true of all trees that are read is
proved by induction on it.

Lists, optional parts and the chains behind an operand are symbols too, so that one relation
holds the whole grammar and an induction meets each shape of list once.
-/
import Durable.Proofs.Grammar.Runs

namespace Durable

namespace TokenKind

/-- The value of a literal of one token. -/
def literal? : TokenKind → Option Literal
  | int text => some (.int text)
  | float text => some (.float text)
  | string value => some (.string value)
  | keyword .kwTrue => some (.bool true)
  | keyword .kwFalse => some (.bool false)
  | _ => none

/-- A token is a name. -/
def isIdent : TokenKind → Bool
  | ident _ => true
  | _ => false

end TokenKind

namespace Cursor

/-- The cursor behind the next token if it is of a kind. -/
def pass (c : Cursor) (k : TokenKind) : Cursor := if c.kind = k then c.advance else c

/-- The cursor behind the next token if it is a name. -/
def passName (c : Cursor) : Cursor := if c.kind.isIdent then c.advance else c

/-- The name of a type, a value or a function starts here: a name, or the word of a built-in type
that serves as a prefix. -/
def atName (c : Cursor) : Bool :=
  match c.kind with
  | .ident _ => true
  | .keyword k => (BuiltinType.ofKeyword? k).isSome && c.atQualified
  | _ => false

/-- The word `readonly` stands here and marks a field. -/
def atReadonlyMark (c : Cursor) : Bool :=
  c.kind == .keyword .kwReadonly
    && (match c.kindAt 1 with
      | .ident _ => true
      | .keyword _ => true
      | _ => false)
    && !(c.kindAt 2 == .mark .semicolon || c.kindAt 2 == .mark .assign)

end Cursor

/-! ### Parts of results -/

/-- The types of the parameters of a function type that take one argument. -/
def fixedParams (params : List (Bool × TypeDesc)) : List TypeDesc :=
  params.filterMap fun (isRest, t) => if isRest then none else some t

/-- The type of the parameter of a function type that takes any number of arguments; the last one
counts. -/
def restParam (params : List (Bool × TypeDesc)) : Option TypeDesc :=
  (params.filterMap fun (isRest, t) => if isRest then some t else none).getLast?

/-- The fields among the items of a record type. -/
def listedFields (items : List (RecordField ⊕ TypeDesc)) : List RecordField :=
  items.filterMap fun | .inl f => some f | .inr _ => none

/-- The type of the fields of a record that are not listed; the last one counts. -/
def unlistedFields (items : List (RecordField ⊕ TypeDesc)) : Option TypeDesc :=
  (items.filterMap fun | .inl _ => none | .inr t => some t).getLast?

theorem mem_of_mem_fixedParams {ps : List (Bool × TypeDesc)} {t : TypeDesc}
    (h : t ∈ fixedParams ps) : (false, t) ∈ ps := by
  obtain ⟨⟨b, u⟩, hmem, heq⟩ := List.mem_filterMap.mp h
  cases b
  · obtain rfl := Option.some.inj heq
    exact hmem
  · simp at heq

theorem mem_of_restParam {ps : List (Bool × TypeDesc)} {t : TypeDesc}
    (h : restParam ps = some t) : (true, t) ∈ ps := by
  obtain ⟨⟨b, u⟩, hmem, heq⟩ := List.mem_filterMap.mp (List.mem_of_getLast? h)
  cases b
  · simp at heq
  · obtain rfl := Option.some.inj heq
    exact hmem

theorem mem_of_mem_listedFields {items : List (RecordField ⊕ TypeDesc)} {f : RecordField}
    (h : f ∈ listedFields items) : .inl f ∈ items := by
  obtain ⟨x, hx, heq⟩ := List.mem_filterMap.mp h
  cases x with
  | inl g => exact Option.some.inj heq ▸ hx
  | inr t => simp at heq

theorem mem_of_unlistedFields {items : List (RecordField ⊕ TypeDesc)} {t : TypeDesc}
    (h : unlistedFields items = some t) : .inr t ∈ items := by
  obtain ⟨x, hx, heq⟩ := List.mem_filterMap.mp (List.mem_of_getLast? h)
  cases x with
  | inl g => simp at heq
  | inr u => exact Option.some.inj heq ▸ hx

/-- The mark that closes a record type, by the mark that opens it. -/
def recordClose (closed : Bool) : Mark := if closed then .closePipeBrace else .closeBrace

/-- The mark that opens a record type. -/
def recordOpen (closed : Bool) : Mark := if closed then .openBracePipe else .openBrace

/-! ### Symbols -/

/-- How the items of a list are kept apart and how the list ends. -/
inductive Gap where
  /-- A mark stands between two items; where there is none, the list ends. -/
  | between (m : Mark)
  /-- A comma stands between two items, and a mark behind the last one. -/
  | commas (close : Mark)
  /-- Nothing stands between two items, and a mark behind the last one. -/
  | upTo (close : Mark)
  /-- Every item starts with a token that nothing behind the list starts with. -/
  | startedBy (k : TokenKind)

/-- Whether the list ends at a cursor, and where it goes on. -/
def Gap.step (gap : Gap) (c : Cursor) : Option (Bool × Cursor) :=
  match gap with
  | between m => if c.kind = .mark m then some (false, c.advance) else some (true, c)
  | commas close =>
    if c.kind = .mark .comma then some (false, c.advance)
    else if c.kind = .mark close then some (true, c.advance)
    else none
  | upTo close => if c.kind = .mark close then some (true, c.advance) else some (false, c)
  | startedBy k => if c.kind = k then some (false, c) else some (true, c)

/-- The symbols of the grammar. -/
inductive Sym where
  | type | intersection | suffixed | suffixing | plainType | typeArgument | typeParam | recordItem
  | expr
  /-- Operands and operators that bind at least as tightly as a floor. -/
  | binary (floor : Nat)
  /-- The same, where more may follow. -/
  | joining (floor : Nat)
  | unary | accessed | accessing | primary | arg | mappingField | mapping
  /-- An annotation. -/
  | tag
  /-- A parameter of a function. -/
  | param
  /-- The declaration of a local variable, through its semicolon. -/
  | localVar
  /-- The items of a list behind the first one. -/
  | many (gap : Gap) (s : Sym)
  /-- Items with a mark between them, of which there is at least one. -/
  | separated (m : Mark) (s : Sym)
  /-- The items of a list whose opening mark has been read. -/
  | commaList (close : Mark) (s : Sym)
  /-- What may follow a token of a kind. -/
  | behind (k : TokenKind) (s : Sym)
  /-- What is there only if the next token passes a test. -/
  | given (p : TokenKind → Bool) (s : Sym)

/-- What a symbol reads. -/
@[reducible] def Sym.Result : Sym → Type
  | type | intersection | suffixed | suffixing | plainType | typeArgument => TypeDesc
  | typeParam => Bool × TypeDesc
  | recordItem => RecordField ⊕ TypeDesc
  | expr | binary _ | joining _ | unary | accessed | accessing | primary | mapping => Expr
  | arg => Arg
  | mappingField => MappingField
  | tag => Annotation
  | param => Param
  | localVar => LocalVar
  | many _ s | separated _ s | commaList _ s => List s.Result
  | behind _ s | given _ s => Option s.Result

/-- The annotations before a declaration. -/
abbrev Sym.annotations : Sym := .many (.startedBy (.mark .atSign)) .tag

/-- The arguments of a call, behind the opening parenthesis. -/
abbrev Sym.args : Sym := .commaList .closeParen .arg

/-- No operator that binds at least as tightly as a floor stands at a cursor. -/
def Cursor.EndsOperand (c : Cursor) (floor : Nat) : Prop :=
  ¬ (c.kind = .keyword .kwIs ∧ floor ≤ typeTestPrecedence) ∧
    ∀ op, Grammar.binaryOp? c.kind = some op → op.precedence < floor

/-- No question mark and no empty brackets stand at a cursor. -/
def Cursor.EndsType (c : Cursor) : Prop :=
  c.kind ≠ .mark .question ∧ ¬ (c.kind = .mark .openBracket ∧ c.kindAt 1 = .mark .closeBracket)

/-- No access, call or index stands at a cursor. -/
def Cursor.EndsAccess (c : Cursor) : Prop :=
  c.kind ≠ .mark .dot ∧ c.kind ≠ .mark .rightArrow ∧ c.kind ≠ .mark .openBracket

/-! ### Productions -/

/-- From a cursor a symbol reads a tree up to a later cursor. -/
inductive Reads : (s : Sym) → Cursor → s.Result → Cursor → Prop
  -- Types, from the loosest binding to the tightest.
  | oneMember {c c₁ : Cursor} {t : TypeDesc}
      (members : Reads (.separated .pipe .intersection) c [t] c₁) : Reads .type c t c₁
  | union {c c₁ : Cursor} {t u : TypeDesc} {ts : List TypeDesc}
      (members : Reads (.separated .pipe .intersection) c (t :: u :: ts) c₁) :
      Reads .type c (.union (t :: u :: ts) (c₁.since c.start)) c₁
  | onePart {c c₁ : Cursor} {t : TypeDesc}
      (members : Reads (.separated .amp .suffixed) c [t] c₁) : Reads .intersection c t c₁
  | intersection {c c₁ : Cursor} {t u : TypeDesc} {ts : List TypeDesc}
      (members : Reads (.separated .amp .suffixed) c (t :: u :: ts) c₁) :
      Reads .intersection c (.intersection (t :: u :: ts) (c₁.since c.start)) c₁
  | suffixed {c c₁ : Cursor} {t : TypeDesc} (chain : Reads .suffixing c t c₁)
      (stop : c₁.EndsType) : Reads .suffixed c t c₁
  | plain {c c₁ : Cursor} {t : TypeDesc} (inner : Reads .plainType c t c₁) :
      Reads .suffixing c t c₁
  | optional {c c₁ : Cursor} {t : TypeDesc} (inner : Reads .suffixing c t c₁)
      (mark : c₁.kind = .mark .question) :
      Reads .suffixing c (.optional t (c₁.advance.since c.start)) c₁.advance
  | array {c c₁ : Cursor} {t : TypeDesc} (inner : Reads .suffixing c t c₁)
      (opening : c₁.kind = .mark .openBracket)
      (closing : c₁.kindAt 1 = .mark .closeBracket) :
      Reads .suffixing c (.array t (c₁.advance.advance.since c.start)) c₁.advance.advance
  | typeArgument {c c₁ : Cursor} {t : TypeDesc} (opening : c.kind = .mark .less)
      (inner : Reads .type c.advance t c₁) (closing : c₁.kind = .mark .greater) :
      Reads .typeArgument c t c₁.advance
  | builtin {c : Cursor} {b : BuiltinType} (word : c.kind = .keyword b.keyword)
      (alone : c.atQualified = false) :
      Reads .plainType c (.builtin b (c.advance.since c.start)) c.advance
  | typeName {c c₁ : Cursor} {r : NameRef} (hat : c.atName = true) (ref : ReadsName c r c₁) :
      Reads .plainType c (.named r) c₁
  | inferred {c : Cursor} (word : c.kind = .keyword .kwVar) :
      Reads .plainType c (.inferred (c.advance.since c.start)) c.advance
  | mapType {c c₁ : Cursor} {t : TypeDesc} (word : c.kind = .keyword .kwMap)
      (inner : Reads .typeArgument c.advance t c₁) :
      Reads .plainType c (.map t (c₁.since c.start)) c₁
  | future {c c₁ : Cursor} {t : Option TypeDesc} (word : c.kind = .keyword .kwFuture)
      (inner : Reads (.given (· == .mark .less) .typeArgument) c.advance t c₁) :
      Reads .plainType c (.future t (c₁.since c.start)) c₁
  | stream {c c₁ c₂ : Cursor} {t : TypeDesc} {u : Option TypeDesc}
      (word : c.kind = .keyword .kwStream) (opening : c.advance.kind = .mark .less)
      (item : Reads .type c.advance.advance t c₁)
      (completion : Reads (.behind (.mark .comma) .type) c₁ u c₂)
      (closing : c₂.kind = .mark .greater) :
      Reads .plainType c (.stream t u (c₂.advance.since c.start)) c₂.advance
  | anyFunction {c : Cursor} (word : c.kind = .keyword .kwFunction)
      (alone : c.advance.kind ≠ .mark .openParen) :
      Reads .plainType c (.anyFunction (c.advance.since c.start)) c.advance
  | functionType {c c₁ c₂ : Cursor} {params : List (Bool × TypeDesc)} {returns : Option TypeDesc}
      (word : c.kind = .keyword .kwFunction) (opening : c.advance.kind = .mark .openParen)
      (list : Reads (.commaList .closeParen .typeParam) c.advance.advance params c₁)
      (result : Reads (.behind (.keyword .kwReturns) .type) c₁ returns c₂) :
      Reads .plainType c
        (.function (fixedParams params) (restParam params) returns (c₂.since c.start)) c₂
  | record {c c₁ : Cursor} {closed : Bool} {items : List (RecordField ⊕ TypeDesc)}
      (word : c.kind = .keyword .kwRecord) (opening : c.advance.kind = .mark (recordOpen closed))
      (list : Reads (.many (.upTo (recordClose closed)) .recordItem) c.advance.advance items c₁) :
      Reads .plainType c
        (.record closed (listedFields items) (unlistedFields items) (c₁.since c.start)) c₁
  | singleton {c : Cursor} {v : Literal} (word : c.kind.literal? = some v) :
      Reads .plainType c (.singleton v (c.advance.since c.start)) c.advance
  | nilType {c : Cursor} (opening : c.kind = .mark .openParen)
      (closing : c.advance.kind = .mark .closeParen) :
      Reads .plainType c (.nil (c.advance.advance.since c.start)) c.advance.advance
  | parenType {c c₁ : Cursor} {t : TypeDesc} (opening : c.kind = .mark .openParen)
      (inner : Reads .type c.advance t c₁) (closing : c₁.kind = .mark .closeParen) :
      Reads .plainType c (.paren t (c₁.advance.since c.start)) c₁.advance
  | typeParam {c c₁ : Cursor} {t : TypeDesc} (type : Reads .type c t c₁) :
      Reads .typeParam c (c₁.kind == .mark .ellipsis, t) (c₁.pass (.mark .ellipsis)).passName
  | recordField {c c₁ c₂ : Cursor} {t : TypeDesc} {n : String} {default : Option Expr}
      (type : Reads .type (if c.atReadonlyMark then c.advance else c) t c₁)
      (listed : c₁.kind ≠ .mark .ellipsis) (name : c₁.kind.word? = some n)
      (value : Reads (.behind (.mark .assign) .expr) (c₁.advance.pass (.mark .question)) default c₂)
      (closing : c₂.kind = .mark .semicolon) :
      Reads .recordItem c
        (.inl (.mk c.atReadonlyMark t ⟨n, c₁.span⟩ (c₁.advance.kind == .mark .question) default
          (c₂.advance.since c.start))) c₂.advance
  | recordRest {c c₁ : Cursor} {t : TypeDesc}
      (type : Reads .type (if c.atReadonlyMark then c.advance else c) t c₁)
      (unlisted : c₁.kind = .mark .ellipsis) (closing : c₁.advance.kind = .mark .semicolon) :
      Reads .recordItem c (.inr t) c₁.advance.advance
  -- Expressions, from the loosest binding to the tightest.
  | condition {c c₁ : Cursor} {e : Expr} (only : Reads (.binary 0) c e c₁)
      (alone : c₁.kind ≠ .mark .question) : Reads .expr c e c₁
  | conditional {c c₁ c₂ c₃ : Cursor} {e f g : Expr} (condition : Reads (.binary 0) c e c₁)
      (question : c₁.kind = .mark .question) (ifTrue : Reads .expr c₁.advance f c₂)
      (colon : c₂.kind = .mark .colon) (ifFalse : Reads .expr c₂.advance g c₃) :
      Reads .expr c (.conditional e f g (c₃.since c.start)) c₃
  | operand {floor : Nat} {c c₁ : Cursor} {e : Expr} (only : Reads .unary c e c₁) :
      Reads (.joining floor) c e c₁
  | operator {floor : Nat} {c c₁ c₂ : Cursor} {e f : Expr} {op : BinaryOp}
      (left : Reads (.joining floor) c e c₁) (mark : c₁.kind = .mark op.mark)
      (tight : floor ≤ op.precedence)
      (right : Reads (.binary (op.precedence + 1)) c₁.advance f c₂) :
      Reads (.joining floor) c (.binary op e f (c₂.since c.start)) c₂
  | typeTest {floor : Nat} {c c₁ c₂ : Cursor} {e : Expr} {t : TypeDesc}
      (left : Reads (.joining floor) c e c₁) (word : c₁.kind = .keyword .kwIs)
      (tight : floor ≤ typeTestPrecedence) (right : Reads .type c₁.advance t c₂) :
      Reads (.joining floor) c (.typeTest e t (c₂.since c.start)) c₂
  | binary {floor : Nat} {c c₁ : Cursor} {e : Expr} (chain : Reads (.joining floor) c e c₁)
      (stop : c₁.EndsOperand floor) : Reads (.binary floor) c e c₁
  | unary {c c₁ : Cursor} {e : Expr} {op : UnaryOp} (word : Grammar.unaryOp? c.kind = some op)
      (inner : Reads .unary c.advance e c₁) :
      Reads .unary c (.unary op e (c₁.since c.start)) c₁
  | cast {c c₁ c₂ : Cursor} {t : TypeDesc} {e : Expr} (type : Reads .typeArgument c t c₁)
      (inner : Reads .unary c₁ e c₂) : Reads .unary c (.cast t e (c₂.since c.start)) c₂
  | bare {c c₁ : Cursor} {e : Expr} (inner : Reads .accessed c e c₁) : Reads .unary c e c₁
  | accessed {c c₁ : Cursor} {e : Expr} (chain : Reads .accessing c e c₁)
      (stop : c₁.EndsAccess) : Reads .accessed c e c₁
  | primary {c c₁ : Cursor} {e : Expr} (inner : Reads .primary c e c₁) :
      Reads .accessing c e c₁
  | field {c c₁ : Cursor} {e : Expr} {n : String} (target : Reads .accessing c e c₁)
      (dot : c₁.kind = .mark .dot) (name : c₁.advance.kind.word? = some n)
      (alone : c₁.advance.advance.kind ≠ .mark .openParen) :
      Reads .accessing c
        (.field e ⟨n, c₁.advance.span⟩ (c₁.advance.advance.since c.start)) c₁.advance.advance
  | methodCall {c c₁ c₂ : Cursor} {e : Expr} {n : String} {as : List Arg}
      (target : Reads .accessing c e c₁) (dot : c₁.kind = .mark .dot)
      (name : c₁.advance.kind.word? = some n)
      (opening : c₁.advance.advance.kind = .mark .openParen)
      (args : Reads .args c₁.advance.advance.advance as c₂) :
      Reads .accessing c (.methodCall e ⟨n, c₁.advance.span⟩ as (c₂.since c.start)) c₂
  | remoteCall {c c₁ c₂ : Cursor} {e : Expr} {n : String} {as : List Arg}
      (target : Reads .accessing c e c₁) (arrow : c₁.kind = .mark .rightArrow)
      (name : c₁.advance.kind.word? = some n)
      (opening : c₁.advance.advance.kind = .mark .openParen)
      (args : Reads .args c₁.advance.advance.advance as c₂) :
      Reads .accessing c (.remoteCall e ⟨n, c₁.advance.span⟩ as (c₂.since c.start)) c₂
  | index {c c₁ c₂ : Cursor} {e p : Expr} (target : Reads .accessing c e c₁)
      (opening : c₁.kind = .mark .openBracket) (position : Reads .expr c₁.advance p c₂)
      (closing : c₂.kind = .mark .closeBracket) :
      Reads .accessing c (.index e p (c₂.advance.since c.start)) c₂.advance
  | literal {c : Cursor} {v : Literal} (word : c.kind.literal? = some v) :
      Reads .primary c (.literal v (c.advance.since c.start)) c.advance
  | nilValue {c : Cursor} (opening : c.kind = .mark .openParen)
      (closing : c.advance.kind = .mark .closeParen) :
      Reads .primary c (.literal .nil (c.advance.advance.since c.start)) c.advance.advance
  | paren {c c₁ : Cursor} {e : Expr} (opening : c.kind = .mark .openParen)
      (inner : Reads .expr c.advance e c₁) (closing : c₁.kind = .mark .closeParen) :
      Reads .primary c (.paren e (c₁.advance.since c.start)) c₁.advance
  | mapping {c c₁ : Cursor} {e : Expr} (inner : Reads .mapping c e c₁) : Reads .primary c e c₁
  | list {c c₁ : Cursor} {es : List Expr} (opening : c.kind = .mark .openBracket)
      (items : Reads (.commaList .closeBracket .expr) c.advance es c₁) :
      Reads .primary c (.list es (c₁.since c.start)) c₁
  | construct {c c₁ c₂ : Cursor} {t : Option TypeDesc} {as : Option (List Arg)}
      (word : c.kind = .keyword .kwNew)
      (type : Reads (.given TokenKind.isIdent .suffixed) c.advance t c₁)
      (args : Reads (.behind (.mark .openParen) .args) c₁ as c₂) :
      Reads .primary c (.construct t (as.getD []) (c₂.since c.start)) c₂
  | errorCall {c c₁ : Cursor} {as : List Arg} (word : c.kind = .keyword .kwError)
      (opening : c.advance.kind = .mark .openParen)
      (args : Reads .args c.advance.advance as c₁) :
      Reads .primary c
        (.call (.simple ⟨Keyword.kwError.text, c.span⟩) as (c₁.since c.start)) c₁
  | name {c c₁ : Cursor} {r : NameRef} (hat : c.atName = true) (ref : ReadsName c r c₁)
      (alone : c₁.kind ≠ .mark .openParen) : Reads .primary c (.name r) c₁
  | call {c c₁ c₂ : Cursor} {r : NameRef} {as : List Arg} (hat : c.atName = true)
      (ref : ReadsName c r c₁) (opening : c₁.kind = .mark .openParen)
      (args : Reads .args c₁.advance as c₂) :
      Reads .primary c (.call r as (c₂.since c.start)) c₂
  -- Parts of expressions.
  | restArg {c c₁ : Cursor} {e : Expr} (dots : c.kind = .mark .ellipsis)
      (value : Reads .expr c.advance e c₁) : Reads .arg c (.rest e) c₁
  | namedArg {c c₁ : Cursor} {n : String} {e : Expr} (name : c.kind = .ident n)
      (sign : c.advance.kind = .mark .assign) (value : Reads .expr c.advance.advance e c₁) :
      Reads .arg c (.named ⟨n, c.span⟩ e) c₁
  | positional {c c₁ : Cursor} {e : Expr}
      (unnamed : ¬ (c.kind.isIdent = true ∧ c.advance.kind = .mark .assign))
      (value : Reads .expr c e c₁) : Reads .arg c (.positional e) c₁
  | spread {c c₁ : Cursor} {e : Expr} (dots : c.kind = .mark .ellipsis)
      (value : Reads .expr c.advance e c₁) : Reads .mappingField c (.spread e) c₁
  | stringField {c c₁ : Cursor} {key : String} {e : Expr} (hkey : c.kind = .string key)
      (colon : c.advance.kind = .mark .colon) (value : Reads .expr c.advance.advance e c₁) :
      Reads .mappingField c (.string key c.span e) c₁
  | computedField {c c₁ c₂ : Cursor} {key e : Expr} (opening : c.kind = .mark .openBracket)
      (hkey : Reads .expr c.advance key c₁) (closing : c₁.kind = .mark .closeBracket)
      (colon : c₁.advance.kind = .mark .colon) (value : Reads .expr c₁.advance.advance e c₂) :
      Reads .mappingField c (.computed key e) c₂
  | wordField {c c₁ : Cursor} {n : String} {e : Expr} (hkey : c.kind.word? = some n)
      (colon : c.advance.kind = .mark .colon) (value : Reads .expr c.advance.advance e c₁) :
      Reads .mappingField c (.word ⟨n, c.span⟩ e) c₁
  | shorthand {c : Cursor} {n : String} (hkey : c.kind.word? = some n)
      (alone : c.advance.kind ≠ .mark .colon) :
      Reads .mappingField c (.shorthand (.simple ⟨n, c.span⟩)) c.advance
  | fields {c c₁ : Cursor} {fields : List MappingField} (opening : c.kind = .mark .openBrace)
      (list : Reads (.commaList .closeBrace .mappingField) c.advance fields c₁) :
      Reads .mapping c (.mapping fields (c₁.since c.start)) c₁
  | tag {c c₁ c₂ : Cursor} {r : NameRef} {value : Option Expr}
      (sign : c.kind = .mark .atSign) (ref : ReadsName c.advance r c₁)
      (hvalue : Reads (.given (· == .mark .openBrace) .mapping) c₁ value c₂) :
      Reads .tag c ⟨r, value, c₂.since c.start⟩ c₂
  -- Parts of declarations.
  | restParam {c c₁ c₂ : Cursor} {as : List Annotation} {t : TypeDesc} {n : String}
      (annotations : Reads .annotations c as c₁) (type : Reads .type c₁ t c₂)
      (dots : c₂.kind = .mark .ellipsis) (name : c₂.advance.kind = .ident n) :
      Reads .param c
        ⟨as, .rest, t, ⟨n, c₂.advance.span⟩, none, c₂.advance.advance.since c.start⟩
        c₂.advance.advance
  | param {c c₁ c₂ c₃ : Cursor} {as : List Annotation} {t : TypeDesc} {n : String}
      {default : Option Expr} (annotations : Reads .annotations c as c₁)
      (type : Reads .type c₁ t c₂) (name : c₂.kind = .ident n)
      (value : Reads (.behind (.mark .assign) .expr) c₂.advance default c₃) :
      Reads .param c
        ⟨as, if default.isSome then .defaultable else .required, t, ⟨n, c₂.span⟩, default,
          c₃.since c.start⟩ c₃
  | localVar {c c₁ c₂ c₃ : Cursor} {as : List Annotation} {t : TypeDesc} {n : String}
      {init : Option Expr} (annotations : Reads .annotations c as c₁)
      (type : Reads .type (c₁.pass (.keyword .kwFinal)) t c₂) (name : c₂.kind = .ident n)
      (value : Reads (.behind (.mark .assign) .expr) c₂.advance init c₃)
      (closing : c₃.kind = .mark .semicolon) :
      Reads .localVar c ⟨as, c₁.kind == .keyword .kwFinal, t, ⟨n, c₂.span⟩, init⟩ c₃.advance
  -- Lists and optional parts.
  | stop {gap : Gap} {s : Sym} {c c₁ : Cursor} (step : gap.step c = some (true, c₁)) :
      Reads (.many gap s) c [] c₁
  | more {gap : Gap} {s : Sym} {c c₁ c₂ c₃ : Cursor} {a : s.Result} {as : List s.Result}
      (step : gap.step c = some (false, c₁)) (first : Reads s c₁ a c₂)
      (others : Reads (.many gap s) c₂ as c₃) : Reads (.many gap s) c (a :: as) c₃
  | separated {m : Mark} {s : Sym} {c c₁ c₂ : Cursor} {a : s.Result} {as : List s.Result}
      (first : Reads s c a c₁) (others : Reads (.many (.between m) s) c₁ as c₂) :
      Reads (.separated m s) c (a :: as) c₂
  | noItems {close : Mark} {s : Sym} {c : Cursor} (closing : c.kind = .mark close) :
      Reads (.commaList close s) c [] c.advance
  | items {close : Mark} {s : Sym} {c c₁ c₂ : Cursor} {a : s.Result} {as : List s.Result}
      (open' : c.kind ≠ .mark close) (first : Reads s c a c₁)
      (others : Reads (.many (.commas close) s) c₁ as c₂) :
      Reads (.commaList close s) c (a :: as) c₂
  | absent {k : TokenKind} {s : Sym} {c : Cursor} (other : c.kind ≠ k) :
      Reads (.behind k s) c none c
  | present {k : TokenKind} {s : Sym} {c c₁ : Cursor} {a : s.Result} (word : c.kind = k)
      (value : Reads s c.advance a c₁) : Reads (.behind k s) c (some a) c₁
  | missing {p : TokenKind → Bool} {s : Sym} {c : Cursor} (test : p c.kind = false) :
      Reads (.given p s) c none c
  | found {p : TokenKind → Bool} {s : Sym} {c c₁ : Cursor} {a : s.Result}
      (test : p c.kind = true) (value : Reads s c a c₁) : Reads (.given p s) c (some a) c₁

end Durable
