/-
What symbols start with.

The parser decides by the next token which production to try, so a symbol must show in its first
token.  `Sym.Starts` lists the tokens for every symbol; that a production is never taken for
another one, that lists end where they seem to, and that glued tokens stay apart are all read off
this table.
-/
import Durable.Proofs.Grammar.Progress

namespace Durable

namespace TokenKind

/-- A reserved word that a type starts with and that does not name one. -/
def announcesType : Keyword → Bool
  | .kwVar | .kwMap | .kwFuture | .kwStream | .kwFunction | .kwRecord | .kwTrue | .kwFalse => true
  | _ => false

/-- A token that a type starts with. -/
def startsType : TokenKind → Bool
  | ident _ | int _ | float _ | string _ | mark .openParen => true
  | keyword k => (BuiltinType.ofKeyword? k).isSome || announcesType k
  | _ => false

/-- A token that an expression without operators around it starts with. -/
def startsPrimary : TokenKind → Bool
  | ident _ | int _ | float _ | string _ => true
  | mark .openParen | mark .openBrace | mark .openBracket => true
  | keyword k => (BuiltinType.ofKeyword? k).isSome || k == .kwTrue || k == .kwFalse || k == .kwNew
  | _ => false

/-- A token that an expression starts with. -/
def startsExpr (k : TokenKind) : Bool :=
  k.startsPrimary || (Grammar.unaryOp? k).isSome || k == .mark .less

end TokenKind

theorem TokenKind.unaryOp?_of_startsPrimary {k : TokenKind} (h : k.startsPrimary = true) :
    Grammar.unaryOp? k = none ∧ k ≠ .mark .less := by
  cases k with
  | keyword w => cases w <;> first | exact absurd h (by decide) | exact ⟨rfl, by decide⟩
  | mark m => cases m <;> first | exact absurd h (by decide) | exact ⟨rfl, by decide⟩
  | _ => exact ⟨rfl, by simp⟩

theorem TokenKind.unaryOp?_of_startsType {k : TokenKind} (h : k.startsType = true) :
    Grammar.unaryOp? k = none ∧ k ≠ .mark .less := by
  cases k with
  | keyword w => cases w <;> first | exact absurd h (by decide) | exact ⟨rfl, by decide⟩
  | mark m => cases m <;> first | exact absurd h (by decide) | exact ⟨rfl, by decide⟩
  | _ => exact ⟨rfl, by simp⟩

/-- The tokens that a symbol may start with. -/
def Sym.Starts : Sym → TokenKind → Prop
  | type, k | intersection, k | suffixed, k | suffixing, k | plainType, k | typeParam, k
  | recordItem, k => k.startsType = true
  | typeArgument, k => k = .mark .less
  | expr, k | binary _, k | joining _, k | unary, k => k.startsExpr = true
  | accessed, k | accessing, k | primary, k => k.startsPrimary = true
  | arg, k => k.startsExpr = true ∨ k = .mark .ellipsis
  | mappingField, k =>
    k = .mark .ellipsis ∨ (∃ v, k = .string v) ∨ k = .mark .openBracket ∨ ∃ n, k.word? = some n
  | mapping, k => k = .mark .openBrace
  | tag, k => k = .mark .atSign
  | param, k => k.startsType = true ∨ k = .mark .atSign
  | localVar, k => k.startsType = true ∨ k = .mark .atSign ∨ k = .keyword .kwFinal
  | many _ _, _ | behind _ _, _ | given _ _, _ => True
  | separated _ s, k => s.Starts k
  | commaList close s, k => s.Starts k ∨ k = .mark close

theorem startsType_of_atName {c : Cursor} (h : c.atName = true) :
    c.kind.startsType = true ∧ c.kind.startsPrimary = true := by
  unfold Cursor.atName at h
  cases hk : c.kind with
  | ident n => exact ⟨rfl, rfl⟩
  | keyword k =>
    simp only [hk, Bool.and_eq_true] at h
    simp [TokenKind.startsType, TokenKind.startsPrimary, h.1]
  | _ => simp [hk] at h

theorem starts_of_literal? {k : TokenKind} {v : Literal} (h : k.literal? = some v) :
    k.startsType = true ∧ k.startsPrimary = true := by
  unfold TokenKind.literal? at h
  split at h <;> first | exact ⟨rfl, rfl⟩ | simp at h

theorem startsType_of_atReadonlyMark {c : Cursor} (h : c.atReadonlyMark = true) :
    c.kind = .keyword .kwReadonly := by
  simp only [Cursor.atReadonlyMark, Bool.and_eq_true, beq_iff_eq] at h
  exact h.1.1

/-- Where no annotation stands, none is read. -/
theorem Reads.annotations_cases {c c' : Cursor} {as : List Annotation}
    (h : Reads .annotations c as c') : c.kind = .mark .atSign ∨ (as = [] ∧ c' = c) := by
  cases h with
  | stop step =>
    refine .inr ⟨rfl, ?_⟩
    simp only [Gap.step] at step
    split at step <;> simp_all
  | more step =>
    refine .inl ?_
    simp only [Gap.step] at step
    split at step <;> simp_all

/-- **A symbol shows in the token it starts with.** -/
theorem Reads.starts {s : Sym} {c c' : Cursor} {t : s.Result} (h : Reads s c t c') :
    s.Starts c.kind := by
  induction h with
  | oneMember _ ih | union _ ih | onePart _ ih | intersection _ ih | suffixed _ _ ih | plain _ ih
  | optional _ _ ih | array _ _ _ ih | typeParam _ ih | conditional _ _ _ _ _ ih | condition _ _ ih
  | operator _ _ _ _ ih | typeTest _ _ _ _ ih | operand _ ih | binary _ _ ih | field _ _ _ _ ih
  | methodCall _ _ _ _ _ ih | remoteCall _ _ _ _ _ ih | index _ _ _ _ ih | accessed _ _ ih
  | primary _ ih | separated _ _ ih => exact ih
  | builtin word =>
    rename_i b _
    rw [word]
    cases b <;> rfl
  | inferred word | mapType word | future word | stream word | anyFunction word
  | functionType word | record word | construct word | errorCall word => rw [word]; rfl
  | typeName hat => exact (startsType_of_atName hat).1
  | name hat | call hat => exact (startsType_of_atName hat).2
  | singleton word => exact (starts_of_literal? word).1
  | literal word => exact (starts_of_literal? word).2
  | nilType opening | parenType opening | nilValue opening | paren opening | list opening =>
    rw [opening]; rfl
  | typeArgument opening | fields opening => exact opening
  | recordField _ _ _ _ _ ih | recordRest _ _ _ ih =>
    split at ih
    · next hat => rw [startsType_of_atReadonlyMark hat]; rfl
    · exact ih
  | @mapping c _ _ _ ih =>
    rw [show c.kind = .mark .openBrace from ih]
    rfl
  | unary word => simp [Sym.Starts, TokenKind.startsExpr, word]
  | @cast c _ _ _ _ _ _ ih =>
    rw [show c.kind = .mark .less from ih]
    rfl
  | bare _ ih =>
    have ih : _ = true := ih
    simp [Sym.Starts, TokenKind.startsExpr, ih]
  | restArg dots => exact .inr dots
  | namedArg name =>
    rw [name]
    exact .inl rfl
  | positional _ _ ih => exact .inl ih
  | spread dots => exact .inl dots
  | stringField hkey => exact .inr (.inl ⟨_, hkey⟩)
  | computedField opening => exact .inr (.inr (.inl opening))
  | wordField hkey | shorthand hkey => exact .inr (.inr (.inr ⟨_, hkey⟩))
  | tag sign => exact sign
  | restParam annotations _ _ _ _ ih | param annotations _ _ _ _ ih =>
    rcases annotations.annotations_cases with hat | ⟨-, rfl⟩
    · exact .inr hat
    · exact .inl ih
  | localVar annotations _ _ _ _ _ ih =>
    rcases annotations.annotations_cases with hat | ⟨-, rfl⟩
    · exact .inr (.inl hat)
    · unfold Cursor.pass at ih
      split at ih
      · next hfinal => exact .inr (.inr hfinal)
      · exact .inl ih
  | stop | more | absent | present | missing | found => trivial
  | noItems closing => exact .inr closing
  | items _ _ _ ih => exact .inl ih

end Durable
