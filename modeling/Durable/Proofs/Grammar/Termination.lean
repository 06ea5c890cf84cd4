/-
Every text is read to its end or to its first fault.

The readers bound their loops and their recursion, and report it if a bound is met.  None ever is:
a production that reads something reads a token, a round of a loop that does not end the loop does
too, and the bounds lie above the number of tokens.  This holds at every cursor, so that it makes
no difference whether a text is cut short or is no program at all.

What a production passes is a part of the tokens in front of it, and the mark of the end stays
where it is.  Only `attempt?` goes back, to where it was tried.
-/
import Durable.Proofs.Grammar.EndsMember
import Durable.Proofs.Grammar.Standing
import Durable.Proofs.Token.Faults

namespace Durable

open Durable.Parser

/-! ### Moving over tokens -/

/-- Between two cursors stand some tokens; behind them the same tokens are left, and the same mark
of the end. -/
def Cursor.Passes (c c' : Cursor) (ts : List Token) : Prop :=
  c.rest = ts ++ c'.rest ∧ c'.finish = c.finish

theorem Cursor.Reaches.passes {c c' : Cursor} (h : c.Reaches c') : ∃ ts, c.Passes c' ts := by
  induction h with
  | refl => exact ⟨[], rfl, rfl⟩
  | @step c₁ _ ih =>
    obtain ⟨ts, hrest, hfinish⟩ := ih
    have hfinish' := c₁.finish_advance.trans hfinish
    unfold advance at hfinish' ⊢
    split
    · exact ⟨ts, hrest, hfinish⟩
    · next t more hmore =>
      exact ⟨ts ++ [t], by rw [hrest, hmore]; simp, hfinish⟩

/-- At a cursor a parser passes tokens, at least one of them where it must, or it reports a token
that it got to. -/
structure Parser.Advances {α : Type} (p : Parser α) (c : Cursor) (must : α → Prop) : Prop where
  passes : ∀ {a c'}, p c = .ok (a, c') → ∃ ts, c.Passes c' ts ∧ (must a → ts ≠ [])
  faults : ∀ {e}, p c = .error e → c.Faults e

theorem Parser.Ends.advances {α : Type} {p : Parser α} {c : Cursor} {must : α → Prop}
    (h : Ends p c fun a c' => must a → c'.rest.length < c.rest.length) : p.Advances c must := by
  cases h with
  | reads hp hr hlt =>
    constructor
    case passes =>
      intro a c' hok
      rw [hp] at hok
      cases hok
      obtain ⟨ts, hpasses⟩ := hr.passes
      refine ⟨ts, hpasses, fun hmust hnil => ?_⟩
      have hless := hlt hmust
      rw [hpasses.1, hnil, List.nil_append] at hless
      omega
    case faults =>
      intro e herror
      rw [hp] at herror
      contradiction
  | faults hp he =>
    constructor
    case passes =>
      intro a c' hok
      rw [hp] at hok
      contradiction
    case faults =>
      intro e herror
      rw [hp] at herror
      cases herror
      exact he

/-! ### Productions and loops -/

namespace MemberGrammar

variable (m : MemberGrammar)

/-- The productions that read a node, where they are called: some of them at a certain word only,
and never at the end of a text. -/
inductive Production (c : Cursor) : {α : Type} → Parser α → Prop
  | ident : Production c Parser.ident
  | memberName : Production c Parser.memberName
  | nameRef : Production c Parser.nameRef
  | wordField : Production c (Grammar.mappingField.word m.exprs)
  | mappingField : Production c m.exprs.mappingField
  | mapping : Production c m.exprs.mapping
  | annotationTag : Production c m.exprs.annotationTag
  | typeArgument : Production c m.exprs.typeArgument
  | typeParam : Production c m.exprs.typeParam
  | recordItem : Production c m.exprs.recordItem
  | recordType (origin : Nat) : Production c (m.exprs.recordType origin)
  | keywordType {k : Keyword} (word : c.kind = .keyword k) : Production c (m.exprs.keywordType k)
  | primaryType : Production c m.exprs.primaryType
  | postfixType : Production c m.exprs.postfixType
  | intersectionType : Production c m.exprs.intersectionType
  | unionType : Production c m.exprs.unionType
  | type : Production c m.exprs.type
  | arg : Production c m.exprs.arg
  | nameOrCall : Production c m.exprs.nameOrCall
  | errorCall : Production c m.exprs.errorCall
  | construct (word : c.kind = .keyword .kwNew) : Production c m.exprs.construct
  | literal (v : Literal) (word : c.kind ≠ .endOfFile) : Production c (Grammar.literal v)
  | keywordExpr {k : Keyword} (word : c.kind = .keyword k) : Production c (m.exprs.keywordExpr k)
  | primary : Production c m.exprs.primary
  | accessed : Production c m.exprs.accessed
  | unaryExpr : Production c m.exprs.unaryExpr
  | unary : Production c m.exprs.unary
  | binaryExpr (floor : Nat) : Production c (m.exprs.binaryExpr floor)
  | binary (floor : Nat) : Production c (m.exprs.binary floor)
  | conditional : Production c m.exprs.conditional
  | expr : Production c m.exprs.expr
  | localVar : Production c (StmtGrammar.localVar m.exprs)
  | exprOrAssign (origin : Nat) : Production c (StmtGrammar.exprOrAssign m.exprs origin)
  | declarationOrExpr (origin : Nat) : Production c (StmtGrammar.declarationOrExpr m.exprs origin)
  | foreach (origin : Nat) : Production c (StmtGrammar.foreach m.exprs m.stmts origin)
  | attempt (origin : Nat) : Production c (StmtGrammar.attempt m.exprs m.stmts origin)
  | keywordStmt (origin : Nat) (k : Keyword) :
      Production c (StmtGrammar.keywordStmt m.exprs m.stmts origin k)
  | stmt : Production c (StmtGrammar.stmt m.exprs m.stmts)
  | bracedStmts : Production c (StmtGrammar.bracedStmts m.exprs m.stmts)
  | block : Production c m.stmts.block
  | alternative : Production c (StmtGrammar.ifStmt.alternative m.stmts)
  | ifStmt : Production c (StmtGrammar.ifStmt m.exprs m.stmts)
  | ifElse : Production c m.stmts.ifElse
  | importDecl : Production c MemberGrammar.importDecl
  | param : Production c m.param
  | function (origin : Nat) (as : List Annotation) (ms : Modifiers) :
      Production c (m.function origin as ms)
  | moduleVar (origin : Nat) (as : List Annotation) (ms : Modifiers) :
      Production c (m.varDecl m.configurableInit origin as ms)
  | field (origin : Nat) (as : List Annotation) (ms : Modifiers) :
      Production c (m.varDecl m.exprs.expr origin as ms)
  | configurableInit : Production c m.configurableInit
  | valueDecl (origin : Nat) (as : List Annotation) (ms : Modifiers) :
      Production c (m.valueDecl origin as ms)
  | typeDef (origin : Nat) (as : List Annotation) (ms : Modifiers) :
      Production c (m.typeDef origin as ms)
  | annotationDecl (origin : Nat) (ms : Modifiers) : Production c (m.annotationDecl origin ms)
  | serviceMember : Production c m.serviceMember
  | service (origin : Nat) (as : List Annotation) (ms : Modifiers) :
      Production c (m.service origin as ms)
  | member : Production c m.member

/-- The parsers that may read nothing: those of lists without an opening mark, of texts, of what may
be missing behind the word `function`, and of a module, whose text may be empty. -/
inductive Passage : {α : Type} → Parser α → Prop
  | annotations : Passage m.exprs.annotations
  | functionType (origin : Nat) : Passage (m.exprs.functionType origin)
  | trial : Passage (attempt? (StmtGrammar.localVar m.exprs))
  | furtherParts : Passage MemberGrammar.furtherParts
  | modifiers : Passage MemberGrammar.modifiers
  | resourcePath : Passage m.resourcePath
  | attachPoint : Passage MemberGrammar.attachPoint
  | attachPoints : Passage (separatedBy .comma MemberGrammar.attachPoint)
  | basePath : Passage m.basePath
  | module : Passage m.module

/-- The rounds of the loops: those of `many`, each of which starts with the question whether the
list is done, and the growths of `extend`. -/
inductive Round : {α : Type} → Parser (Option α) → Prop
  | mappingFields : Round (round (commaList.ended .closeBrace) m.exprs.mappingField)
  | annotations : Round (round (return !(← at? (.mark .atSign))) m.exprs.annotationTag)
  | typeParams : Round (round (commaList.ended .closeParen) m.exprs.typeParam)
  | recordItems (close : Mark) : Round (round (accept (.mark close)) m.exprs.recordItem)
  | suffixes (origin : Nat) (t : TypeDesc) : Round (Grammar.postfixType.grow origin t)
  | intersection : Round (round (return !(← accept (.mark .amp))) m.exprs.postfixType)
  | union : Round (round (return !(← accept (.mark .pipe))) m.exprs.intersectionType)
  | args : Round (round (commaList.ended .closeParen) m.exprs.arg)
  | items : Round (round (commaList.ended .closeBracket) m.exprs.expr)
  | accesses (origin : Nat) (e : Expr) : Round (Grammar.accessed.grow m.exprs origin e)
  | operators (floor origin : Nat) (e : Expr) :
      Round (Grammar.binaryExpr.grow m.exprs floor origin e)
  | stmts : Round (round StmtGrammar.closingBrace (StmtGrammar.stmt m.exprs m.stmts))
  | furtherParts : Round (round (return !(← accept (.mark .dot))) Parser.memberName)
  | modifiers : Round (round (return (modifier? (← peek)).isNone) (do
      match modifier? (← peek) with
      | some q => return (q, (← advance).span)
      | none => unexpected "modifier"))
  | params : Round (round (commaList.ended .closeParen) m.param)
  | resourcePath (depth : Nat) : Round (MemberGrammar.passPathToken depth)
  | attachWords : Round (round MemberGrammar.attachPoint.pointEnds Parser.memberName)
  | attachPoints : Round (round (return !(← accept (.mark .comma))) MemberGrammar.attachPoint)
  | basePath (u : Unit) : Round (MemberGrammar.passBaseToken u)
  | listeners : Round (round (return !(← accept (.mark .comma))) m.exprs.expr)
  | serviceMembers : Round (round StmtGrammar.closingBrace m.serviceMember)
  | imports : Round (round (return !(← at? (.keyword .kwImport))) MemberGrammar.importDecl)
  | members : Round (round (at? .endOfFile) m.member)

variable {m} {n : Nat} {c : Cursor} {α : Type}

theorem Production.ends {p : Parser α} (h : m.Production c p) (hm : m.Consumes n)
    (hc : c.rest.length < n) : Ends p c fun _ c' => c'.rest.length < c.rest.length := by
  have hsucc : c.rest.length < n + 1 := by omega
  cases h with
  | ident => exact .ident fun _ _ h => h
  | memberName => exact .memberName fun _ _ h => h
  | nameRef => exact .nameRef fun _ _ h => h
  | wordField => exact hm.exprs.wordField c hsucc
  | mappingField => exact hm.exprs.mappingField c hsucc
  | mapping => exact hm.exprs.mapping c hsucc
  | annotationTag => exact hm.exprs.annotationTag c hsucc
  | typeArgument => exact hm.exprs.typeArgument c hsucc
  | typeParam => exact hm.exprs.typeParam c hc
  | recordItem => exact hm.exprs.recordItem c hc
  | recordType origin => exact hm.exprs.recordType origin c hsucc
  | keywordType word => exact hm.exprs.keywordType word hsucc
  | primaryType => exact hm.exprs.primaryType c hsucc
  | postfixType => exact hm.exprs.postfixType c hsucc
  | intersectionType => exact hm.exprs.intersectionType c hsucc
  | unionType => exact hm.exprs.unionType c hsucc
  | type => exact hm.exprs.type c hc
  | arg => exact hm.exprs.arg c hc
  | nameOrCall => exact hm.exprs.nameOrCall c hsucc
  | errorCall => exact hm.exprs.errorCall c hsucc
  | construct word => exact hm.exprs.construct word hsucc
  | literal v word => exact Grammar.Consumes.literal v word
  | keywordExpr word => exact hm.exprs.keywordExpr word hsucc
  | primary => exact hm.exprs.primary c hsucc
  | accessed => exact hm.exprs.accessed c hsucc
  | unaryExpr => exact hm.exprs.unaryExpr c hsucc
  | unary => exact hm.exprs.unary c hc
  | binaryExpr floor => exact hm.exprs.binaryExpr floor c hsucc
  | binary floor => exact hm.exprs.binary floor c hc
  | conditional => exact hm.exprs.conditional c hsucc
  | expr => exact hm.exprs.expr c hc
  | localVar => exact StmtGrammar.Consumes.localVar hm.exprs c hc
  | exprOrAssign origin => exact StmtGrammar.Consumes.exprOrAssign hm.exprs origin c hc
  | declarationOrExpr origin => exact StmtGrammar.Consumes.declarationOrExpr hm.exprs origin c hc
  | foreach origin => exact StmtGrammar.Consumes.foreach hm.exprs hm.stmts origin c hc
  | attempt origin => exact StmtGrammar.Consumes.attempt hm.exprs hm.stmts origin c hc
  | keywordStmt origin k => exact StmtGrammar.Consumes.keywordStmt hm.exprs hm.stmts origin k c hc
  | stmt => exact StmtGrammar.Consumes.stmt hm.exprs hm.stmts c hc
  | bracedStmts => exact StmtGrammar.Consumes.bracedStmts hm.exprs hm.stmts c hsucc
  | block => exact hm.stmts.block c hc
  | alternative => exact StmtGrammar.Consumes.alternative hm.stmts c hc
  | ifStmt => exact StmtGrammar.Consumes.ifStmt hm.exprs hm.stmts c hsucc
  | ifElse => exact hm.stmts.ifElse c hc
  | importDecl => exact Consumes.importDecl n c hc
  | param => exact hm.param c hc
  | function origin as ms => exact hm.function origin as ms c hc
  | moduleVar origin as ms => exact hm.varDecl hm.configurableInit origin as ms c hc
  | field origin as ms => exact hm.varDecl hm.exprs.expr origin as ms c hc
  | configurableInit => exact hm.configurableInit c hc
  | valueDecl origin as ms => exact hm.valueDecl origin as ms c hc
  | typeDef origin as ms => exact hm.typeDef origin as ms c hc
  | annotationDecl origin ms => exact hm.annotationDecl origin ms c hc
  | serviceMember => exact hm.serviceMember c hc
  | service origin as ms => exact hm.service origin as ms c hc
  | member => exact hm.member c hc

theorem Passage.ends {p : Parser α} (h : m.Passage p) (hm : m.Consumes n)
    (hc : c.rest.length < n) : Ends p c fun _ _ => True := by
  cases h with
  | annotations => exact hm.exprs.annotations (by omega)
  | functionType origin => exact hm.exprs.functionType origin hc
  | trial =>
    exact .attempt? (StmtGrammar.Consumes.localVar hm.exprs c hc) (fun _ _ _ => trivial) trivial
  | furtherParts => exact Consumes.furtherParts c
  | modifiers => exact Consumes.modifiers c
  | resourcePath => exact Consumes.resourcePath m c
  | attachPoint => exact Consumes.attachPoint c
  | attachPoints => exact Consumes.attachPoints c
  | basePath => exact Consumes.basePath m c
  | module => exact hm.module hc

theorem Round.ends {r : Parser (Option α)} (h : m.Round r) (hm : m.Consumes n) : Rounds n r := by
  have hexprs := hm.exprs
  cases h with
  | mappingFields => exact (hexprs.mappingField.mono (Nat.le_succ n)).commaRounds _
  | annotations => exact hexprs.annotationRounds.mono (Nat.le_succ n)
  | typeParams => exact hexprs.typeParam.commaRounds _
  | recordItems close => exact hexprs.recordRounds close
  | suffixes origin t => exact Grammar.Consumes.suffixRounds origin t
  | intersection =>
    exact (hexprs.postfixType.mono (Nat.le_succ n)).rounds (ends_between .amp)
  | union => exact (hexprs.intersectionType.mono (Nat.le_succ n)).rounds (ends_between .pipe)
  | args => exact hexprs.arg.commaRounds _
  | items => exact hexprs.expr.commaRounds _
  | accesses origin e => exact (hexprs.accessRounds origin e).mono (Nat.le_succ n)
  | operators floor origin e => exact (hexprs.operatorRounds floor origin e).mono (Nat.le_succ n)
  | stmts => exact StmtGrammar.Consumes.stmtRounds hexprs hm.stmts
  | furtherParts => exact Consumes.partRounds n
  | modifiers => exact Consumes.modifierRounds n
  | params => exact hm.param.commaRounds _
  | resourcePath depth => exact Consumes.pathRounds n depth
  | attachWords => exact Consumes.wordRounds n
  | attachPoints => exact Consumes.pointRounds n
  | basePath u => exact Consumes.baseRounds n u
  | listeners => exact hexprs.expr.rounds (ends_between .comma)
  | serviceMembers => exact hm.serviceRounds
  | imports => exact Consumes.importRounds n
  | members => exact hm.memberRounds

/-- The parsers of a source with grammars of a depth. -/
def ofDepth (source : Source) (depth : Nat) : MemberGrammar :=
  ⟨source, grammar depth, stmtGrammar (grammar depth) depth⟩

theorem ofDepth_consumes (source : Source) (depth : Nat) :
    (ofDepth source depth).Consumes depth where
  exprs := grammar_consumes depth
  stmts := stmtGrammar_consumes (grammar_consumes depth)

end MemberGrammar

/-! ### Whole texts -/

namespace Cursor

variable {c : Cursor} {cs : List Char}

/-- What a look ahead shows is a token left or the mark of the end. -/
theorem tokenAt_mem (c : Cursor) (n : Nat) :
    c.tokenAt n ∈ c.rest ∨ c.tokenAt n = ⟨.endOfFile, c.finish⟩ := by
  unfold tokenAt
  cases h : c.rest[n]? with
  | none => exact .inr rfl
  | some t => exact .inl (List.mem_of_getElem? h)

/-- The next token is a piece of the text, and so is the mark of the end, an empty one. -/
theorem StandsIn.span_cuts (h : c.StandsIn cs)
    (hfinish : c.finish = ⟨Text.byteLength cs, Text.byteLength cs⟩) : c.span.Cuts cs := by
  by_cases hc : c.kind = .endOfFile
  · have hrest : c.rest = [] := by
      have hsame := h.advance_eq hc
      unfold Cursor.advance at hsame
      split at hsame
      · assumption
      · next hmore =>
        have := congrArg (·.rest.length) hsame
        simp [hmore] at this
    refine ⟨cs, [], [], by simp, ?_⟩
    simp [span, tokenAt, hrest, hfinish]
  · obtain ⟨front, t, rest, hcs, -, -, -, hspan, -⟩ := h.token hc
    exact ⟨front ++ t.blank, t.text, rest, hcs, hspan⟩

/-- A token of a text that cannot stand where it does is a fault in the text. -/
theorem Faults.isIn {text : String} {e : SyntaxError} (h : c.Faults e)
    (hc : c.StandsIn text.toList)
    (hfinish : c.finish = ⟨Text.byteLength text.toList, Text.byteLength text.toList⟩) :
    e.IsIn text := by
  obtain ⟨d, expected, hd, rfl⟩ := h
  have hfinish' : d.finish = c.finish :=
    hd.keeps (P := fun d => d.finish = c.finish) (fun d hd => d.finish_advance.trans hd) rfl
  exact ⟨nofun, (hc.reaches hd).span_cuts (hfinish'.trans hfinish)⟩

/-- A reading that comes to an end at every cursor fails at a fault in the text, if it fails. -/
theorem ofText_isIn {α : Type} {text : String} {read : Cursor → Except SyntaxError α}
    {e : SyntaxError} (hread : ∀ c e, read c = .error e → c.Faults e)
    (h : (do read (← Cursor.ofText text)) = .error e) : e.IsIn text := by
  cases htext : Cursor.ofText text with
  | error e' =>
    rw [htext] at h
    cases h
    cases htokens : tokenize text with
    | error e' =>
      simp only [Cursor.ofText, htokens, Functor.map, Except.map, Except.error.injEq] at htext
      exact htext ▸ tokenize_eq_error htokens
    | ok tokens => simp [Cursor.ofText, htokens, Functor.map, Except.map] at htext
  | ok c =>
    obtain ⟨ts, tail, htiling, rfl⟩ := Cursor.ofText_eq_ok.mp htext
    rw [htext] at h
    exact (hread _ _ h).isIn (standsIn_ofTiles _ htiling) rfl

end Cursor

/-- What a parser fails at is a fault. -/
theorem Parser.fault_of_ends {α : Type} {p : Parser α} {c : Cursor} {Q : α → Cursor → Prop}
    {e : SyntaxError} (h : Ends p c Q) (he : (do let (a, _) ← p c; pure a) = .error e) :
    c.Faults e := by
  cases h with
  | reads hp => simp [hp, bind, Except.bind, pure, Except.pure] at he
  | faults hp hfault =>
    rw [hp] at he
    cases he
    exact hfault

/-- So is what a parser fails at that reads a text to its end. -/
theorem Parser.fault_of_ends_whole {α : Type} {p : Parser α} {c : Cursor} {Q : α → Cursor → Prop}
    {e : SyntaxError} (h : Ends p c Q)
    (he : (do let (a, c) ← p c; let _ ← expectEnd c; pure a) = .error e) : c.Faults e := by
  cases h with
  | faults hp hfault =>
    rw [hp] at he
    cases he
    exact hfault
  | @reads a c' hp hr =>
    have hend : Ends expectEnd c' fun _ _ => True :=
      .bind (.expectNamed fun _ _ _ _ => .pure trivial)
    cases hend with
    | reads h => simp [hp, h, bind, Except.bind, pure, Except.pure] at he
    | faults h hfault =>
      simp only [hp, h, bind, Except.bind, Except.error.injEq] at he
      exact he ▸ hfault.behind hr

theorem parseModule_eq_error {text : String} {e : SyntaxError} (h : parseModule text = .error e) :
    e.IsIn text :=
  Cursor.ofText_isIn (fun c _ he =>
    Parser.fault_of_ends ((MemberGrammar.ofDepth_consumes ⟨"", text⟩ (c.rest.length + 1)).module
      (Nat.lt_succ_self c.rest.length)) he) h

theorem parseExpr_eq_error {text : String} {e : SyntaxError} (h : parseExpr text = .error e) :
    e.IsIn text :=
  Cursor.ofText_isIn (fun c _ he => Parser.fault_of_ends_whole
    ((grammar_consumes (c.rest.length + 1)).expr c (Nat.lt_succ_self c.rest.length)) he) h

theorem parseType_eq_error {text : String} {e : SyntaxError} (h : parseType text = .error e) :
    e.IsIn text :=
  Cursor.ofText_isIn (fun c _ he => Parser.fault_of_ends_whole
    ((grammar_consumes (c.rest.length + 1)).type c (Nat.lt_succ_self c.rest.length)) he) h

/-- **Every reading ends, and every step of it goes forward.**  No text makes a reader meet one of
its bounds.  Wherever a grammar is deep enough for the tokens left, as it is at all cursors of a
text, what a production passes are tokens in front of it, never the mark of the end, and at least
one of them if the production reads a node below the module; so does a round of a loop that does
not end the loop; and what they report is a token that they got to.  Looking ahead shows a token
left or the mark of the end.  The one try of the grammar goes back to where it was made, or stands
for what was tried. -/
theorem reading_terminates :
    (∀ text s, tokenize text ≠ .error (.noProgress s) ∧ parseModule text ≠ .error (.noProgress s) ∧
      parseExpr text ≠ .error (.noProgress s) ∧ parseType text ≠ .error (.noProgress s)) ∧
    ∀ (source : Source) (depth : Nat) (c : Cursor), c.rest.length < depth →
      let m := MemberGrammar.ofDepth source depth
      (∀ {α : Type} {p : Parser α}, m.Production c p → p.Advances c fun _ => True) ∧
      (∀ {α : Type} {p : Parser α}, m.Passage p → p.Advances c fun _ => False) ∧
      (∀ {α : Type} {r : Parser (Option α)}, m.Round r → r.Advances c fun o => o.isSome = true) ∧
      (∀ n, c.tokenAt n ∈ c.rest ∨ c.tokenAt n = ⟨.endOfFile, c.finish⟩) ∧
      (attempt? (StmtGrammar.localVar m.exprs) c = .ok (none, c) ∨
        ∃ v c', StmtGrammar.localVar m.exprs c = .ok (v, c') ∧
          attempt? (StmtGrammar.localVar m.exprs) c = .ok (some v, c')) := by
  refine ⟨fun text s => ⟨fun h => ?_, fun h => ?_, fun h => ?_, fun h => ?_⟩,
    fun source depth c hc => ?_⟩
  · exact (tokenize_eq_error h).1 s rfl
  · exact (parseModule_eq_error h).1 s rfl
  · exact (parseExpr_eq_error h).1 s rfl
  · exact (parseType_eq_error h).1 s rfl
  have hm := MemberGrammar.ofDepth_consumes source depth
  refine ⟨fun hp => ?_, fun hp => ?_, fun hr => ?_, c.tokenAt_mem, ?_⟩
  · exact ((hp.ends hm hc).imp fun _ _ _ hlt _ => hlt).advances
  · exact ((hp.ends hm hc).imp fun _ _ _ _ hfalse => hfalse.elim).advances
  · exact (hr.ends hm c hc).advances
  · cases StmtGrammar.Consumes.localVar hm.exprs c hc with
    | reads h => exact .inr ⟨_, _, h, by rw [attempt?, h]⟩
    | faults h => exact .inl (by rw [attempt?, h])

/-- A call whose arguments are cut off has two tokens; reading it passes some, or reports one. -/
theorem truncatedCall_advances :
    (Cursor.mk [⟨.ident "f", ⟨0, 1⟩⟩, ⟨.mark .openParen, ⟨1, 2⟩⟩] 0 ⟨2, 2⟩).rest.length < 3 ∧
      (MemberGrammar.ofDepth ⟨"", "f("⟩ 3).exprs.expr.Advances
        ⟨[⟨.ident "f", ⟨0, 1⟩⟩, ⟨.mark .openParen, ⟨1, 2⟩⟩], 0, ⟨2, 2⟩⟩ fun _ => True :=
  ⟨by decide, (reading_terminates.2 ⟨"", "f("⟩ 3 _ (by decide)).1 .expr⟩

/-- A module is a node too, but its text may be empty, and then it is read without a token. -/
theorem not_all_advance :
    parseModule "" = .ok ⟨[], [], ⟨0, 0⟩⟩ ∧ Cursor.ofText "" = .ok ⟨[], 0, ⟨0, 0⟩⟩ ∧
      ¬ (MemberGrammar.ofDepth ⟨"", ""⟩ 1).module.Advances ⟨[], 0, ⟨0, 0⟩⟩ fun _ => True := by
  have hread : (MemberGrammar.ofDepth ⟨"", ""⟩ 1).module ⟨[], 0, ⟨0, 0⟩⟩
      = .ok (⟨[], [], ⟨0, 0⟩⟩, ⟨[], 0, ⟨0, 0⟩⟩) := rfl
  refine ⟨rfl, rfl, fun h => ?_⟩
  obtain ⟨ts, ⟨hrest, -⟩, hne⟩ := h.passes hread
  exact hne trivial (List.append_eq_nil_iff.mp hrest.symm).1

end Durable
