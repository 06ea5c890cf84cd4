/-
Reading types and expressions comes to an end.

Every production reads a token before it recurses, so that a grammar whose parsers do what they
should wherever fewer than `n` tokens are left gives one that does so wherever fewer than `n + 1`
are.  There is a lemma for each production, in the order in which they use each other.
-/
import Durable.Proofs.Grammar.Ends

namespace Durable

open Durable.Parser

/-- The parsers that productions recurse into come to an end and read a token. -/
structure Grammar.Consumes (n : Nat) (g : Grammar) : Prop where
  type : Parser.Consumes n g.type
  expr : Parser.Consumes n g.expr
  binary : ∀ floor, Parser.Consumes n (g.binary floor)
  unary : Parser.Consumes n g.unary

namespace Grammar.Consumes

variable {g : Grammar} {n : Nat} {c : Cursor}

/-! ### Mappings and annotations -/

theorem wordField (hg : g.Consumes n) : Parser.Consumes (n + 1) (mappingField.word g) := by
  intro c hc
  refine .bind (.memberName fun key c₁ h₁ => .bind (.accept nofun fun b c₂ h₂ _ => ?_))
  split
  · exact hg.expr.bind (by omega) fun e c₃ h₃ => .pure (by omega)
  · exact .pure (by omega)

theorem mappingField (hg : g.Consumes n) : Parser.Consumes (n + 1) g.mappingField := by
  intro c hc
  refine .bind (.accept nofun fun b c₁ hle hlt => ?_)
  split
  · next hb =>
    have hless := hlt hb
    exact hg.expr.bind (by omega) fun e c₂ h₂ => .pure (by omega)
  refine .bind (.peek ?_)
  have word : Ends (mappingField.word g) c₁ fun _ c' => c'.rest.length < c.rest.length :=
    (hg.wordField c₁ (by omega)).imp fun _ c₂ _ h₂ => by omega
  split
  · refine .bind (.advance fun _ c₂ h₂ _ => .bind (.expect nofun fun _ c₃ h₃ => ?_))
    exact hg.expr.bind (by omega) fun e c₄ h₄ => .pure (by omega)
  · next hk =>
    refine .bind (.advance fun _ c₂ _ h₂ => ?_)
    have hless := h₂ (by simp [hk])
    refine hg.expr.bind (by omega) fun key c₃ h₃ => ?_
    refine .bind (.expect nofun fun _ c₄ h₄ => .bind (.expect nofun fun _ c₅ h₅ => ?_))
    exact hg.expr.bind (by omega) fun e c₆ h₆ => .pure (by omega)
  · exact word
  · exact word
  · exact .unexpected

theorem mapping (hg : g.Consumes n) : Parser.Consumes (n + 1) g.mapping := by
  intro c hc
  refine .bind (.start (.bind (.expect nofun fun _ c₁ h₁ => ?_)))
  refine ((hg.mappingField.mono (Nat.le_succ n)).commaList _).bind (by omega) fun fields c₂ h₂ => ?_
  exact .bind (.since (.pure (by omega)))

theorem annotationTag (hg : g.Consumes n) : Parser.Consumes (n + 1) g.annotationTag := by
  intro c hc
  refine .bind (.start (.bind (.advance fun _ c₁ h₁ _ => .bind (.nameRef fun r c₂ h₂ => ?_))))
  refine .bind (.at? ?_)
  split
  · refine hg.mapping.some.bind (by omega) fun value c₃ h₃ => ?_
    exact .bind (.since (.pure (by omega)))
  · exact .bind (.pure (.bind (.since (.pure (by omega)))))

theorem annotationRounds (hg : g.Consumes n) :
    Rounds (n + 1) (round (return !(← at? (.mark .atSign))) g.annotationTag) :=
  hg.annotationTag.rounds fun _ => .bind (.at? (.pure trivial))

theorem annotations (hg : g.Consumes n) (hc : c.rest.length < n + 1) :
    Ends g.annotations c fun _ _ => True :=
  .many hg.annotationRounds hc

/-! ### Types -/

theorem typeArgument (hg : g.Consumes n) : Parser.Consumes (n + 1) g.typeArgument := by
  intro c hc
  refine .bind (.expect nofun fun _ c₁ h₁ => hg.type.bind (by omega) fun t c₂ h₂ => ?_)
  exact .bind (.expect nofun fun _ c₃ h₃ => .pure (by omega))

theorem typeParam (hg : g.Consumes n) : Parser.Consumes n g.typeParam := by
  intro c hc
  refine hg.type.bind hc fun t c₁ h₁ => .bind (.accept nofun fun b c₂ h₂ _ => .bind (.peek ?_))
  split
  · exact .bind (.advance fun _ c₃ h₃ _ => .pure (by omega))
  · exact .pure (by omega)

theorem functionType (hg : g.Consumes n) (origin : Nat) (hc : c.rest.length < n) :
    Ends (g.functionType origin) c fun _ _ => True := by
  refine .bind (.accept nofun fun b c₁ h₁ _ => ?_)
  split
  · refine (hg.typeParam.commaList _).bind (by omega) fun params c₂ h₂ => ?_
    refine .bind (.accept nofun fun b' c₃ h₃ _ => ?_)
    split
    · exact hg.type.some.bind (by omega) fun t c₄ h₄ => .bind (.since (.pure trivial))
    · exact .bind (.pure (.bind (.since (.pure trivial))))
  · exact .bind (.since (.pure trivial))

theorem atReadonlyMark : Ends Grammar.atReadonlyMark c fun _ c' => c' = c := by
  refine .bind (.at? ?_)
  split
  · exact .pure rfl
  · exact .bind (.peekAt (.bind (.peekAt (.pure rfl))))

theorem recordItem (hg : g.Consumes n) : Parser.Consumes n g.recordItem := by
  intro c hc
  refine .bind (.start (.bind (atReadonlyMark.imp fun mark c₁ h₁ _ => .skip fun c₂ h₂ => ?_)))
  refine hg.type.bind (by omega) fun t c₃ h₃ => .bind (.accept nofun fun b c₄ h₄ _ => ?_)
  split
  · exact .bind (.expect nofun fun _ c₅ h₅ => .pure (by omega))
  refine .bind (.memberName fun name c₅ h₅ => .bind (.accept nofun fun b' c₆ h₆ _ => ?_))
  refine .bind (.accept nofun fun b'' c₇ h₇ _ => ?_)
  split
  · refine hg.expr.some.bind (by omega) fun default c₈ h₈ => ?_
    exact .bind (.expect nofun fun _ c₉ h₉ => .bind (.since (.pure (by omega))))
  · refine .bind (.pure (.bind (.expect nofun fun _ c₈ h₈ => ?_)))
    exact .bind (.since (.pure (by omega)))

theorem recordRounds (hg : g.Consumes n) (close : Mark) :
    Rounds n (round (accept (.mark close)) g.recordItem) :=
  hg.recordItem.rounds fun _ => .accept nofun fun _ _ _ _ => trivial

theorem recordType (hg : g.Consumes n) (origin : Nat) :
    Parser.Consumes (n + 1) (g.recordType origin) := by
  intro c hc
  refine .bind (.accept nofun fun closed c₁ h₁ hlt => ?_)
  cases closed with
  | true =>
    have hless := hlt rfl
    simp only [Bool.not_true, Bool.false_eq_true, if_false]
    refine .bind ((Ends.many (hg.recordRounds _) (by omega)).imp fun items c₂ h₂ _ => ?_)
    exact .bind (.since (.pure (by omega)))
  | false =>
    simp only [Bool.not_false, if_true]
    refine .bind (.expect nofun fun _ c₂ h₂ => ?_)
    refine .bind ((Ends.many (hg.recordRounds _) (by omega)).imp fun items c₃ h₃ _ => ?_)
    exact .bind (.since (.pure (by omega)))

theorem keywordType (hg : g.Consumes n) {k : Keyword} (hk : c.kind = .keyword k)
    (hc : c.rest.length < n + 1) :
    Ends (g.keywordType k) c fun _ c' => c'.rest.length < c.rest.length := by
  have hkind : c.kind ≠ .endOfFile := by simp [hk]
  refine .bind (.start ?_)
  split
  · refine .bind (.get ?_)
    split
    · exact .bind (.nameRef fun r c₁ h₁ => .pure (by omega))
    · exact .bind (.advance fun _ c₁ _ h₁ => .bind (.since (.pure (h₁ hkind))))
  split
  · exact .bind (.advance fun _ c₁ _ h₁ => .bind (.since (.pure (h₁ hkind))))
  · refine .bind (.advance fun _ c₁ _ h₁ => ?_)
    have hless := h₁ hkind
    refine hg.typeArgument.bind (by omega) fun t c₂ h₂ => .bind (.since (.pure (by omega)))
  · refine .bind (.advance fun _ c₁ _ h₁ => .bind (.at? ?_))
    have hless := h₁ hkind
    split
    · exact hg.typeArgument.bind (by omega) fun t c₂ h₂ => .bind (.since (.pure (by omega)))
    · exact .bind (.since (.pure (by omega)))
  · refine .bind (.advance fun _ c₁ _ h₁ => .bind (.expect nofun fun _ c₂ h₂ => ?_))
    have hless := h₁ hkind
    refine hg.type.bind (by omega) fun t c₃ h₃ => .bind (.accept nofun fun b c₄ h₄ _ => ?_)
    split
    · refine hg.type.some.bind (by omega) fun u c₅ h₅ => ?_
      exact .bind (.expect nofun fun _ c₆ h₆ => .bind (.since (.pure (by omega))))
    · refine .bind (.pure (.bind (.expect nofun fun _ c₅ h₅ => ?_)))
      exact .bind (.since (.pure (by omega)))
  · refine .bind (.advance fun _ c₁ _ h₁ => ?_)
    have hless := h₁ hkind
    exact (hg.functionType _ (by omega)).imp fun _ c₂ h₂ _ => by omega
  · refine .bind (.advance fun _ c₁ _ h₁ => ?_)
    have hless := h₁ hkind
    exact (hg.recordType _ c₁ (by omega)).imp fun _ c₂ h₂ _ => by omega
  · exact .bind (.advance fun _ c₁ _ h₁ => .bind (.since (.pure (h₁ hkind))))
  · exact .bind (.advance fun _ c₁ _ h₁ => .bind (.since (.pure (h₁ hkind))))
  · exact .unexpected

theorem primaryType (hg : g.Consumes n) : Parser.Consumes (n + 1) g.primaryType := by
  intro c hc
  refine .bind (.start (.bind (.peek ?_)))
  split
  · next k hk => exact hg.keywordType hk hc
  · exact .bind (.nameRef fun r c₁ h₁ => .pure (by omega))
  · next hk =>
    refine .bind (.advance fun _ c₁ _ h₁ => .bind (.accept nofun fun b c₂ h₂ _ => ?_))
    have hless := h₁ (by simp [hk])
    split
    · exact .bind (.since (.pure (by omega)))
    · refine hg.type.bind (by omega) fun t c₃ h₃ => .bind (.expect nofun fun _ c₄ h₄ => ?_)
      exact .bind (.since (.pure (by omega)))
  · next hk => exact .bind (.advance fun _ c₁ _ h₁ => .bind (.since (.pure (h₁ (by simp [hk])))))
  · next hk => exact .bind (.advance fun _ c₁ _ h₁ => .bind (.since (.pure (h₁ (by simp [hk])))))
  · next hk => exact .bind (.advance fun _ c₁ _ h₁ => .bind (.since (.pure (h₁ (by simp [hk])))))
  · exact .unexpected

theorem suffixRounds (origin : Nat) (t : TypeDesc) :
    Rounds n (Grammar.postfixType.grow origin t) := by
  intro c hc
  refine .bind (.accept nofun fun b c₁ h₁ hlt => ?_)
  split
  · next hb => exact .bind (.since (.pure fun _ => hlt hb))
  refine .bind (.at? (.bind (.peekAt ?_)))
  split
  · next hat =>
    have hkind : c₁.kind ≠ .endOfFile := by
      simp only [Bool.and_eq_true, beq_iff_eq] at hat
      simp [hat.1]
    refine .bind (.advance fun _ c₂ _ h₂ => .bind (.advance fun _ c₃ h₃ _ => ?_))
    have hless := h₂ hkind
    exact .bind (.since (.pure fun _ => by omega))
  · exact .pure (by simp)

theorem postfixType (hg : g.Consumes n) : Parser.Consumes (n + 1) g.postfixType := by
  intro c hc
  refine .bind (.start (hg.primaryType.bind hc fun t c₁ h₁ => ?_))
  exact (Ends.extend (n := n + 1) (suffixRounds c.start) (by omega) t).imp
    fun _ c₂ h₂ _ => by omega

theorem intersectionType (hg : g.Consumes n) : Parser.Consumes (n + 1) g.intersectionType := by
  intro c hc
  refine .bind (.start ((hg.postfixType.separatedBy _).bind hc fun ts c₁ h₁ => ?_))
  split
  · exact .pure h₁
  · exact .bind (.since (.pure h₁))

theorem unionType (hg : g.Consumes n) : Parser.Consumes (n + 1) g.unionType := by
  intro c hc
  refine .bind (.start ((hg.intersectionType.separatedBy _).bind hc fun ts c₁ h₁ => ?_))
  split
  · exact .pure h₁
  · exact .bind (.since (.pure h₁))

/-! ### Expressions -/

theorem arg (hg : g.Consumes n) : Parser.Consumes n g.arg := by
  intro c hc
  refine .bind (.accept nofun fun b c₁ h₁ hlt => ?_)
  split
  · exact hg.expr.bind (by omega) fun e c₂ h₂ => .pure (by omega)
  refine .bind (.peek (.bind (.peekAt ?_)))
  split
  · refine .bind (.ident fun name c₂ h₂ => .bind (.advance fun _ c₃ h₃ _ => ?_))
    exact hg.expr.bind (by omega) fun e c₄ h₄ => .pure (by omega)
  · exact hg.expr.bind (by omega) fun e c₂ h₂ => .pure (by omega)

theorem args (hg : g.Consumes n) : Parser.Consumes n g.args := hg.arg.commaList _

theorem nameOrCall (hg : g.Consumes n) : Parser.Consumes (n + 1) g.nameOrCall := by
  intro c hc
  refine .bind (.start (.bind (.nameRef fun r c₁ h₁ => .bind (.accept nofun fun b c₂ h₂ _ => ?_))))
  split
  · exact hg.args.bind (by omega) fun as c₃ h₃ => .bind (.since (.pure (by omega)))
  · exact .pure (by omega)

theorem errorCall (hg : g.Consumes n) : Parser.Consumes (n + 1) g.errorCall := by
  intro c hc
  refine .bind (.start (.bind (.memberName fun x c₁ h₁ => .bind (.advance fun _ c₂ h₂ _ => ?_))))
  exact hg.args.bind (by omega) fun as c₃ h₃ => .bind (.since (.pure (by omega)))

theorem construct (hg : g.Consumes n) (hk : c.kind = .keyword .kwNew)
    (hc : c.rest.length < n + 1) :
    Ends g.construct c fun _ c' => c'.rest.length < c.rest.length := by
  refine .bind (.start (.bind (.advance fun _ c₁ _ h₁ => .bind (.peek ?_))))
  have hless := h₁ (by simp [hk])
  have args : ∀ (t : Option TypeDesc) (c₂ : Cursor), c₂.rest.length ≤ c₁.rest.length → Ends (do
      let args ← if ← accept (.mark .openParen) then g.args else pure []
      return .construct t args (← since c.start) : Parser Expr) c₂
        fun _ c' => c'.rest.length < c.rest.length := by
    intro t c₂ h₂
    refine .bind (.accept nofun fun b c₃ h₃ _ => ?_)
    split
    · exact hg.args.bind (by omega) fun as c₄ h₄ => .bind (.since (.pure (by omega)))
    · exact .bind (.pure (.bind (.since (.pure (by omega)))))
  split
  · exact hg.postfixType.some.bind (by omega) fun t c₂ h₂ => args t c₂ (by omega)
  · exact .bind (.pure (args none c₁ (Nat.le_refl _)))

theorem literal (v : Literal) (hk : c.kind ≠ .endOfFile) :
    Ends (Grammar.literal v) c fun _ c' => c'.rest.length < c.rest.length :=
  .bind (.start (.bind (.advance fun _ _ _ h₁ => .bind (.since (.pure (h₁ hk))))))

theorem keywordExpr (hg : g.Consumes n) {k : Keyword} (hk : c.kind = .keyword k)
    (hc : c.rest.length < n + 1) :
    Ends (g.keywordExpr k) c fun _ c' => c'.rest.length < c.rest.length := by
  unfold Grammar.keywordExpr
  split
  · exact literal _ (by simp [hk])
  · exact literal _ (by simp [hk])
  · exact hg.construct hk hc
  · refine .bind (.get ?_)
    split
    · exact hg.errorCall c hc
    split
    · exact hg.nameOrCall c hc
    · exact .unexpected

theorem primary (hg : g.Consumes n) : Parser.Consumes (n + 1) g.primary := by
  intro c hc
  refine .bind (.start (.bind (.peek ?_)))
  split
  · next hk => exact literal _ (by simp [hk])
  · next hk => exact literal _ (by simp [hk])
  · next hk => exact literal _ (by simp [hk])
  · next hk =>
    refine .bind (.advance fun _ c₁ _ h₁ => .bind (.accept nofun fun b c₂ h₂ _ => ?_))
    have hless := h₁ (by simp [hk])
    split
    · exact .bind (.since (.pure (by omega)))
    · refine hg.expr.bind (by omega) fun e c₃ h₃ => .bind (.expect nofun fun _ c₄ h₄ => ?_)
      exact .bind (.since (.pure (by omega)))
  · exact hg.mapping c hc
  · next hk =>
    refine .bind (.advance fun _ c₁ _ h₁ => ?_)
    have hless := h₁ (by simp [hk])
    refine (hg.expr.commaList _).bind (by omega) fun es c₂ h₂ => .bind (.since (.pure (by omega)))
  · next k hk => exact hg.keywordExpr hk hc
  · exact hg.nameOrCall c hc
  · exact .unexpected

theorem accessRounds (hg : g.Consumes n) (origin : Nat) (e : Expr) :
    Rounds (n + 1) (Grammar.accessed.grow g origin e) := by
  intro c hc
  refine .bind (.peek ?_)
  split
  · refine .bind (.advance fun _ c₁ h₁ _ => .bind (.memberName fun x c₂ h₂ => ?_))
    refine .bind (.accept nofun fun b c₃ h₃ _ => ?_)
    split
    · refine hg.args.bind (by omega) fun as c₄ h₄ => .bind (.since (.pure fun _ => ?_))
      omega
    · exact .bind (.since (.pure fun _ => by omega))
  · refine .bind (.advance fun _ c₁ h₁ _ => .bind (.memberName fun x c₂ h₂ => ?_))
    refine .bind (.expect nofun fun _ c₃ h₃ => hg.args.bind (by omega) fun as c₄ h₄ => ?_)
    exact .bind (.since (.pure fun _ => by omega))
  · next hk =>
    refine .bind (.advance fun _ c₁ _ h₁ => ?_)
    have hless := h₁ (by simp [hk])
    refine hg.expr.bind (by omega) fun i c₂ h₂ => .bind (.expect nofun fun _ c₃ h₃ => ?_)
    exact .bind (.since (.pure fun _ => by omega))
  · exact .pure (by simp)

theorem accessed (hg : g.Consumes n) : Parser.Consumes (n + 1) g.accessed := by
  intro c hc
  refine .bind (.start (hg.primary.bind hc fun e c₁ h₁ => ?_))
  exact (Ends.extend (hg.accessRounds c.start) (by omega) e).imp fun _ c₂ h₂ _ => by omega

theorem kind_ne_endOfFile_of_unaryOp? {op : UnaryOp} (h : Grammar.unaryOp? c.kind = some op) :
    c.kind ≠ .endOfFile := by
  intro hkind
  simp [hkind, Grammar.unaryOp?] at h

theorem unaryExpr (hg : g.Consumes n) : Parser.Consumes (n + 1) g.unaryExpr := by
  intro c hc
  refine .bind (.start (.bind (.peek ?_)))
  split
  · next op hop =>
    refine .bind (.advance fun _ c₁ _ h₁ => ?_)
    have hless := h₁ (kind_ne_endOfFile_of_unaryOp? hop)
    exact hg.unary.bind (by omega) fun e c₂ h₂ => .bind (.since (.pure (by omega)))
  split
  · refine hg.typeArgument.bind hc fun t c₁ h₁ => hg.unary.bind (by omega) fun e c₂ h₂ => ?_
    exact .bind (.since (.pure (by omega)))
  · exact hg.accessed c hc

theorem operatorRounds (hg : g.Consumes n) (floor origin : Nat) (e : Expr) :
    Rounds (n + 1) (Grammar.binaryExpr.grow g floor origin e) := by
  intro c hc
  refine .bind (.peek ?_)
  split
  · next his =>
    refine .bind (.advance fun _ c₁ _ h₁ => ?_)
    have hless := h₁ (by
      simp only [Bool.and_eq_true, beq_iff_eq] at his
      simp [his.1])
    exact hg.type.bind (by omega) fun t c₂ h₂ => .bind (.since (.pure fun _ => by omega))
  split
  · next op hop =>
    split
    · exact .pure (by simp)
    refine .bind (.advance fun _ c₁ _ h₁ => ?_)
    have hless := h₁ (fun hkind => by simp [hkind, Grammar.binaryOp?] at hop)
    refine (hg.binary _).bind (by omega) fun f c₂ h₂ => .bind (.since (.pure fun _ => ?_))
    omega
  · exact .pure (by simp)

theorem binaryExpr (hg : g.Consumes n) (floor : Nat) :
    Parser.Consumes (n + 1) (g.binaryExpr floor) := by
  intro c hc
  refine .bind (.start (hg.unaryExpr.bind hc fun e c₁ h₁ => ?_))
  exact (Ends.extend (hg.operatorRounds floor c.start) (by omega) e).imp
    fun _ c₂ h₂ _ => by omega

theorem conditional (hg : g.Consumes n) : Parser.Consumes (n + 1) g.conditional := by
  intro c hc
  refine .bind (.start ((hg.binaryExpr 0).bind hc fun e c₁ h₁ => ?_))
  refine .bind (.accept nofun fun b c₂ h₂ _ => ?_)
  split
  · refine hg.expr.bind (by omega) fun f c₃ h₃ => .bind (.expect nofun fun _ c₄ h₄ => ?_)
    exact hg.expr.bind (by omega) fun g c₅ h₅ => .bind (.since (.pure (by omega)))
  · exact .pure (by omega)

/-- One level more of the grammar is good for one token more. -/
theorem next (hg : g.Consumes n) : g.next.Consumes (n + 1) where
  type := hg.unionType
  expr := hg.conditional
  binary := hg.binaryExpr
  unary := hg.unaryExpr

end Grammar.Consumes

/-- **A grammar is good for fewer tokens than it is deep.** -/
theorem grammar_consumes (depth : Nat) : (grammar depth).Consumes depth := by
  induction depth with
  | zero => exact ⟨fun _ => nofun, fun _ => nofun, fun _ _ => nofun, fun _ => nofun⟩
  | succ depth ih => exact ih.next

end Durable
