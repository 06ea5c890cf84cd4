/-
What is read is read again from its text.

The lemmas about single productions put together: an induction over the grammar shows for every
symbol that the text of what it read is read by it once more, spans aside.
-/
import Durable.Proofs.Print.Parts

namespace Durable

open Text

/-- The last token of an expression belongs to the type of a type test. -/
def Expr.endsInType : Expr → Bool
  | typeTest _ _ _ => true
  | binary _ _ right _ => right.endsInType
  | unary _ operand _ | cast _ operand _ => operand.endsInType
  | conditional _ _ ifFalse _ => ifFalse.endsInType
  | _ => false

/-- What may stand behind the text of what a symbol read and stopped at a cursor.  A question mark
may stand behind an operand, unless a type at its end would take it. -/
def Sym.Stop : (s : Sym) → s.Result → Cursor → Cursor → Prop
  | typeParam, _, _, d | arg, _, _, d | mappingField, _, _, d | param, _, _, d =>
    d.kind.closes = true
  | tag, _, _, d => d.kind ≠ .mark .openBrace
  | mapping, _, _, _ => True
  | binary _, e, c, d | joining _, e, c, d | unary, e, c, d | accessed, e, c, d
  | accessing, e, c, d | primary, e, c, d =>
    c.Follows d ∨ e.endsInType = false ∧ d.kind = .mark .question
  | _, _, c, d => c.Follows d

/-- What a symbol read is read again from its text; lists and optional parts are read again part
by part. -/
def Sym.Back (src : List Char) : (s : Sym) → Cursor → s.Result → Cursor → Prop
  | typeArgument, _, t, _ => ReprintsArgument src t
  | recordItem, _, x, _ => ReprintsItem src x
  | localVar, c, d, _ => ReprintsDecl src c d
  | many gap s, c, as, c' => Repeats gap.step (s.Back src) c as c'
  | separated m s, c, as, c' => ∃ a as' c₁, as = a :: as' ∧ s.Back src c a c₁ ∧
    Repeats (Gap.between m).step (s.Back src) c₁ as' c'
  | commaList _ s, _, as, _ => ∀ a ∈ as, ∃ c c', s.Back src c a c'
  | behind k s, c, a, c' => a.elim (c.kind ≠ k ∧ c' = c) fun x =>
    c.kind = k ∧ s.Back src c.advance x c'
  | given p s, c, a, c' => a.elim (p c.kind = false ∧ c' = c) fun x =>
    p c.kind = true ∧ s.Back src c x c'
  | s, c, t, c' => Reprints src s c t (s.Stop t c')

variable {src : List Char}

theorem Repeats.of_mem {α : Type} {step : Cursor → Option (Bool × Cursor)}
    {R : Cursor → α → Cursor → Prop} {c c' : Cursor} {as : List α} (h : Repeats step R c as c') :
    ∀ a ∈ as, ∃ c c', R c a c' := by
  induction h with
  | stop => simp
  | more _ first _ ih =>
    intro a ha
    rcases List.mem_cons.mp ha with rfl | ha
    · exact ⟨_, _, first⟩
    · exact ih a ha

theorem Sym.Back.listed {c c' : Cursor} {as : List Arg} (h : Sym.args.Back src c as c') :
    ∀ a ∈ as, ∃ c, Reprints src .arg c a (·.kind.closes = true) := by
  intro a ha
  obtain ⟨c, _, hback⟩ := h a ha
  exact ⟨c, hback⟩

theorem Sym.Back.tags {c c' : Cursor} {as : List Annotation}
    (h : Sym.annotations.Back src c as c') :
    ∀ a ∈ as, ∃ c, Reprints src .tag c a (·.kind ≠ .mark .openBrace) := by
  intro a ha
  obtain ⟨c, _, hback⟩ := Repeats.of_mem h a ha
  exact ⟨c, hback⟩

/-- **What a symbol reads is read again from its text.** -/
theorem Reads.back {s : Sym} {c c' : Cursor} {t : s.Result} (h : Reads s c t c') (hp : c.Plain) :
    s.Back src c t c' := by
  induction h with
  | oneMember _ ih =>
    obtain ⟨a, as, c₁, heq, first, others⟩ := ih hp
    obtain ⟨rfl, rfl⟩ := List.cons.inj heq
    exact .oneMember first others
  | union _ ih =>
    obtain ⟨a, as, c₁, heq, first, others⟩ := ih hp
    obtain ⟨rfl, rfl⟩ := List.cons.inj heq
    exact .union first others
  | onePart _ ih =>
    obtain ⟨a, as, c₁, heq, first, others⟩ := ih hp
    obtain ⟨rfl, rfl⟩ := List.cons.inj heq
    exact .onePart first others
  | intersection _ ih =>
    obtain ⟨a, as, c₁, heq, first, others⟩ := ih hp
    obtain ⟨rfl, rfl⟩ := List.cons.inj heq
    exact .intersection first others
  | suffixed _ stop ih => exact .suffixed (ih hp) stop
  | plain _ ih => exact .plain (ih hp)
  | optional _ mark ih => exact .optional (ih hp) mark
  | array _ opening closing ih => exact .array (ih hp) opening closing
  | typeArgument _ _ closing ih => exact Reprints.typeArgument (ih hp.advance) closing
  | builtin word alone => exact .builtin hp word alone
  | typeName hat ref => exact .typeName hp hat ref
  | inferred word => exact .inferred hp word
  | mapType word _ ih => exact .mapType word (ih hp.advance)
  | @future c c₁ t word _ ih =>
    refine .future word ?_
    have ih := ih hp.advance
    cases t with
    | none => exact ⟨by simpa using ih.1, ih.2⟩
    | some u => exact ih.2
  | stream word opening item _ closing ih ih' =>
    refine .stream word (ih hp.advance.advance) ?_ closing
    exact ih' (hp.advance.advance.reaches item.reaches)
  | anyFunction word alone => exact .anyFunction hp word alone
  | functionType word opening list _ ih ih' =>
    have hp' := hp.advance.advance
    refine .functionType word (fun x hx => ?_) (ih' (hp'.reaches list.reaches))
    obtain ⟨_, _, hback⟩ := ih hp' x hx
    exact ⟨_, hback⟩
  | record word _ _ ih =>
    refine .record word fun x hx => ?_
    obtain ⟨_, _, hback⟩ := (ih hp.advance.advance).of_mem x hx
    exact hback
  | singleton word => exact .singleton hp word
  | nilType opening => exact .nilType opening
  | parenType opening _ closing ih => exact .parenType (ih hp.advance) opening closing
  | typeParam _ ih => exact .typeParam (ih hp)
  | @recordField c _ _ _ _ _ type _ name _ closing ih ih' =>
    have hp' := hp.reaches (Cursor.Reaches.refl.ite (b := c.atReadonlyMark))
    have hp₁ := hp'.reaches type.reaches
    refine .field hp₁ type (ih hp') name fun e he => ?_
    obtain rfl : _ = some e := he
    have ih' := ih' (hp₁.advance.reaches (Cursor.Reaches.refl.pass _))
    exact ⟨_, ih'.2.mono fun _ hd => .of_kind (hd.trans closing.symm) (by simp [hd])⟩
  | @recordRest c _ _ _ unlisted _ ih =>
    exact .unlisted (ih (hp.reaches (Cursor.Reaches.refl.ite (b := c.atReadonlyMark)))) unlisted
  | condition _ alone ih => exact .condition ((ih hp).mono fun _ => .inl) alone
  | conditional condition question ifTrue colon _ ih ih' ih'' =>
    have hp' := (hp.reaches condition.reaches).advance
    exact .conditional
      ((ih hp).mono fun _ hd => .inl (.of_kind (hd.trans question.symm) (by simp [hd])))
      ((ih' hp').mono fun _ hd => .of_kind (hd.trans colon.symm) (by simp [hd]))
      (ih'' (hp'.reaches ifTrue.reaches).advance)
  | operand _ ih => exact .operand (ih hp)
  | operator left mark tight _ ih ih' =>
    exact .operator ((ih hp).mono fun _ => .inl) mark tight (ih' (hp.reaches left.reaches).advance)
  | typeTest left word tight _ ih ih' =>
    refine Reprints.mono ?_ fun _ hd => hd.resolve_right fun h => Bool.noConfusion h.1
    exact .typeTest ((ih hp).mono fun _ => .inl) word tight (ih' (hp.reaches left.reaches).advance)
  | binary _ stop ih =>
    exact .binary (ih hp) fun _ hd => hd.elim (·.endsOperand stop) fun h => .of_question h.2
  | unary word _ ih => exact .unary word (ih hp.advance)
  | cast type _ ih ih' => exact .cast (ih hp) type.starts (ih' (hp.reaches type.reaches))
  | bare _ ih => exact .bare (ih hp)
  | accessed _ stop ih =>
    exact .accessed (ih hp) fun _ hd => hd.elim (·.endsAccess stop) fun h => .of_question h.2
  | primary _ ih => exact .primary (ih hp)
  | field target dot name alone ih =>
    exact .field (hp.reaches target.reaches) ((ih hp).mono fun _ => .inl) dot name fun _ hd =>
      hd.elim (·.ne alone rfl) fun h => by simp [h.2]
  | methodCall target dot name _ _ ih ih' =>
    have hp' := hp.reaches target.reaches
    exact .methodCall hp' ((ih hp).mono fun _ => .inl) dot name (ih' hp'.advance.advance.advance).listed
  | remoteCall target arrow name _ _ ih ih' =>
    have hp' := hp.reaches target.reaches
    exact .remoteCall hp' ((ih hp).mono fun _ => .inl) arrow name (ih' hp'.advance.advance.advance).listed
  | index target opening _ _ ih ih' =>
    exact .index ((ih hp).mono fun _ => .inl) opening (ih' (hp.reaches target.reaches).advance)
  | literal word => exact .literal hp word
  | nilValue opening => exact .nilValue opening
  | paren opening _ _ ih => exact .paren (ih hp.advance) opening
  | mapping _ ih => exact .mappingValue ((ih hp).mono fun _ _ => trivial)
  | list opening _ ih =>
    refine .list opening fun e he => ?_
    obtain ⟨_, _, hback⟩ := ih hp.advance e he
    exact ⟨_, Reprints.listed hback⟩
  | @construct c c₁ _ t as word type args _ ih' =>
    refine .construct word (fun x hx => ?_) fun a ha => ?_
    · obtain rfl : t = some x := hx
      cases type with
      | found test value => exact ⟨test, value.suffixed_reprints hp.advance test⟩
    · cases as with
      | none => simp at ha
      | some as =>
        obtain ⟨_, _, hback⟩ := (ih' (hp.advance.reaches type.reaches)).2 a ha
        exact ⟨_, hback⟩
  | errorCall word _ _ ih => exact .errorCall word (ih hp.advance.advance).listed
  | name hat ref alone =>
    exact .name hp hat ref fun _ hd => hd.elim (·.ne alone rfl) fun h => by simp [h.2]
  | call hat ref _ _ ih => exact .call hp hat ref (ih (hp.reaches ref.reaches).advance).listed
  | restArg dots _ ih => exact .restArg dots (ih hp.advance)
  | namedArg name _ _ ih => exact .namedArg hp name (ih hp.advance.advance)
  | positional _ _ ih => exact .positional (ih hp)
  | spread dots _ ih => exact .spread dots (ih hp.advance)
  | stringField hkey _ _ ih => exact .stringField hkey (ih hp.advance.advance)
  | computedField opening key _ _ _ ih ih' =>
    exact .computedField opening (ih hp.advance)
      (ih' (hp.advance.reaches key.reaches).advance.advance)
  | wordField hkey _ _ ih => exact .wordField hp hkey (ih hp.advance.advance)
  | shorthand hkey => exact .shorthand hp hkey
  | fields opening _ ih =>
    refine .fields opening fun f hf => ?_
    obtain ⟨_, _, hback⟩ := ih hp.advance f hf
    exact ⟨_, hback⟩
  | @tag c c₁ _ _ value sign ref _ ih =>
    refine .tag hp sign ref fun e he => ?_
    obtain rfl : value = some e := he
    exact ⟨_, (ih (hp.advance.reaches ref.reaches)).2⟩
  | restParam annotations type dots name ih ih' =>
    have hp₁ := hp.reaches annotations.reaches
    exact .restParam (hp₁.reaches type.reaches) annotations (ih hp).tags type.starts (ih' hp₁) dots
      name
  | param annotations type name _ ih ih' ih'' =>
    have hp₁ := hp.reaches annotations.reaches
    have hp₂ := hp₁.reaches type.reaches
    exact .param hp₂ annotations (ih hp).tags type.starts (ih' hp₁) name (ih'' hp₂.advance)
  | localVar annotations type name _ closing ih ih' ih'' =>
    have hp₁ := (hp.reaches annotations.reaches).reaches
      (Cursor.Reaches.refl.pass (.keyword .kwFinal))
    have hp₂ := hp₁.reaches type.reaches
    exact .mk hp₂ annotations (ih hp).tags type.starts (ih' hp₁) name (ih'' hp₂.advance)
      closing
  | stop step => exact .stop step
  | more step first _ ih ih' =>
    have hp' := hp.reaches (Gap.step_reaches step)
    exact .more step (ih hp') (ih' (hp'.reaches first.reaches))
  | separated first _ ih ih' => exact ⟨_, _, _, rfl, ih hp, ih' (hp.reaches first.reaches)⟩
  | noItems => simp [Sym.Back]
  | items _ first _ ih ih' =>
    intro a ha
    rcases List.mem_cons.mp ha with rfl | ha
    · exact ⟨_, _, ih hp⟩
    · exact (ih' (hp.reaches first.reaches)).of_mem a ha
  | absent other => exact ⟨other, rfl⟩
  | present word _ ih => exact ⟨word, ih hp.advance⟩
  | missing test => exact ⟨test, rfl⟩
  | found test _ ih => exact ⟨test, ih hp⟩

end Durable
