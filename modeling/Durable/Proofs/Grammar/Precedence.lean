/-
Operands hold together.

`a + b * c` is a sum because the right operand of the plus sign is read with a floor: it takes every
operator that binds more tightly and stops in front of all others.  A left operand needs no floor.
It ends with a right operand that was read up to an operator that the next one does not bind more
tightly than, and that is what keeps `a * b + c` from being a product.  A type test stands among
the operators and has a type for its right side; it may be the left operand of any operator, but
the right one only of those that bind less tightly.

`Expr.isGrouped` says of one expression that its operands could be told without parentheses.  Every
expression in a tree was read, so it is enough to know it of what a production puts together.
-/
import Durable.Proofs.Grammar.Occurrences
import Durable.Proofs.Grammar.Complete

namespace Durable

namespace Expr

/-- An operand in front of an operator: no operator that binds less tightly holds it together, and
it is no conditional. -/
def fitsLeft (precedence : Nat) : Expr → Bool
  | .binary op _ _ _ => precedence ≤ op.precedence
  | .conditional _ _ _ _ => false
  | _ => true

/-- An operand behind an operator: what holds it together binds more tightly, and it is no
conditional. -/
def fitsRight (precedence : Nat) : Expr → Bool
  | .binary op _ _ _ => precedence < op.precedence
  | .typeTest _ _ _ => precedence < typeTestPrecedence
  | .conditional _ _ _ _ => false
  | _ => true

/-- What holds an expression together is no operator between two operands, no type test and no
question mark. -/
def isOperand : Expr → Bool
  | .binary _ _ _ _ | .typeTest _ _ _ | .conditional _ _ _ _ => false
  | _ => true

/-- An expression has only operands that hold together more tightly than it does, those of its own
precedence on the left.  Parentheses make an operand of anything. -/
def isGrouped : Expr → Bool
  | .binary op left right _ => left.fitsLeft op.precedence && right.fitsRight op.precedence
  | .typeTest operand _ _ => operand.fitsLeft typeTestPrecedence
  | .unary _ operand _ | .cast _ operand _ => operand.isOperand
  | .methodCall target _ _ _ | .remoteCall target _ _ _ | .field target _ _ | .index target _ _ =>
    target.isOperand
  | _ => true

theorem fitsLeft_of_isOperand {e : Expr} (h : e.isOperand = true) (precedence : Nat) :
    e.fitsLeft precedence = true := by
  cases e <;> first | rfl | simp [isOperand] at h

theorem fitsRight_of_isOperand {e : Expr} (h : e.isOperand = true) (precedence : Nat) :
    e.fitsRight precedence = true := by
  cases e <;> first | rfl | simp [isOperand] at h

end Expr

variable {c c' : Cursor} {e : Expr}

/-! ### What symbols read -/

theorem Reads.isOperand_primary (h : Reads .primary c e c') : e.isOperand = true := by
  cases h with
  | mapping inner => cases inner with | fields => rfl
  | _ => rfl

theorem Reads.isOperand_accessing (h : Reads .accessing c e c') : e.isOperand = true := by
  cases h with
  | primary inner => exact inner.isOperand_primary
  | _ => rfl

theorem Reads.isOperand_unary (h : Reads .unary c e c') : e.isOperand = true := by
  cases h with
  | bare inner => cases inner with | accessed chain => exact chain.isOperand_accessing
  | _ => rfl

/-- A right operand was read with a floor above the operator in front of it. -/
theorem Reads.fitsRight {precedence : Nat} (h : Reads (.binary (precedence + 1)) c e c') :
    e.fitsRight precedence = true := by
  cases h with
  | binary chain =>
    cases chain with
    | operand only => exact Expr.fitsRight_of_isOperand only.isOperand_unary precedence
    | operator _ _ tight => exact decide_eq_true tight
    | typeTest _ _ tight => exact decide_eq_true tight

/-- In front of an operator stands an operand that it does not bind more tightly than: the last
operand in it was read past all operators that do. -/
theorem Reads.fitsLeft_of_operator {floor : Nat} {op : BinaryOp} (h : Reads (.joining floor) c e c')
    (hmark : c'.kind = .mark op.mark) : e.fitsLeft op.precedence = true := by
  cases h with
  | operand only => exact Expr.fitsLeft_of_isOperand only.isOperand_unary op.precedence
  | @operator _ _ _ _ _ _ op' _ _ _ right =>
    cases right with
    | binary _ stop =>
      have hlt : op.precedence < op'.precedence + 1 :=
        stop.2 op (by rw [hmark]; exact Grammar.binaryOp?_mark op)
      exact decide_eq_true (Nat.le_of_lt_succ hlt)
  | typeTest => rfl

/-- The same in front of the word `is`. -/
theorem Reads.fitsLeft_of_typeTest {floor : Nat} (h : Reads (.joining floor) c e c')
    (hword : c'.kind = .keyword .kwIs) : e.fitsLeft typeTestPrecedence = true := by
  cases h with
  | operand only => exact Expr.fitsLeft_of_isOperand only.isOperand_unary typeTestPrecedence
  | @operator _ _ _ _ _ _ op _ _ _ right =>
    cases right with
    | binary _ stop =>
      have hlt : ¬ op.precedence + 1 ≤ typeTestPrecedence := fun hle => stop.1 ⟨hword, hle⟩
      exact decide_eq_true (Nat.le_of_lt_succ (Nat.lt_of_not_le hlt))
  | typeTest => rfl

/-- Every production puts operands together that hold together. -/
theorem Reads.isGrouped {s : Sym} {t : s.Result} (h : Reads s c t c') :
    s.node? t = some (.expr e) → e.isGrouped = true := by
  induction h with
  -- These read the same expression as their part does.
  | condition _ _ ih | operand _ ih | binary _ _ ih | bare _ ih | accessed _ _ ih | primary _ ih
  | mapping _ ih => exact ih
  -- These put operands together; what the operands themselves are made of does not matter.
  | operator left mark _ right =>
    rintro ⟨⟩
    exact Bool.and_eq_true_iff.mpr ⟨left.fitsLeft_of_operator mark, right.fitsRight⟩
  | typeTest left word =>
    rintro ⟨⟩
    exact left.fitsLeft_of_typeTest word
  | unary _ inner | cast _ inner =>
    rintro ⟨⟩
    exact inner.isOperand_unary
  | field target | methodCall target | remoteCall target | index target =>
    rintro ⟨⟩
    exact target.isOperand_accessing
  | conditional | literal | nilValue | paren | list | fields | construct | errorCall | call | name =>
    rintro ⟨⟩
    rfl
  | _ => exact nofun

/-! ### Whole trees -/

/-- An expression that was read is grouped, and so is the one that need not have been. -/
theorem Node.WasRead.isGrouped (h : (Node.expr e).WasRead c) : e.isGrouped = true := by
  cases h with
  | term _ reads node => exact reads.isGrouped node
  | other h => cases e <;> first | rfl | simp [Node.isTerm] at h

/-- **Every expression is grouped by the precedence of its operators**, wherever it stands in what
a text is read as, be that one expression or a module. -/
theorem parse_isGrouped (text : String) (path : List Nat) (k : Expr) :
    (∀ e, parseExpr text = .ok e → (Node.expr e).at? path = some (.expr k) → k.isGrouped = true) ∧
    ∀ m, parseModule text = .ok m → (Node.module m).at? path = some (.expr k) →
      k.isGrouped = true := by
  constructor
  · intro e he hk
    obtain ⟨c, c', -, hread, -⟩ := reads_of_parseExpr he
    exact (hread.allRead Cursor.Reaches.refl path _ hk).isGrouped
  · intro m hm hk
    obtain ⟨ts, tail, c', -, hread⟩ := reads_of_parseModule hm
    exact (hread.allRead path _ hk).isGrouped

/-- The expression that a node is. -/
def Node.expr? : Node → Option Expr
  | .expr e => some e
  | _ => none

theorem Node.exists_expr_of_isSome {n : Option Node} (h : (n.bind expr?).isSome = true) :
    ∃ k, n = some (.expr k) := by
  obtain ⟨k, hk⟩ := Option.isSome_iff_exists.mp h
  obtain ⟨n, rfl, hn⟩ := Option.bind_eq_some_iff.mp hk
  cases n <;> simp only [expr?, reduceCtorEq, Option.some.injEq] at hn
  exact ⟨k, by rw [hn]⟩

/-- A difference of a difference, and a product inside a condition inside a module. -/
theorem mixedText_isGrouped :
    (∃ e k, parseExpr "a - b - c" = .ok e ∧ (Node.expr e).at? [0] = some (.expr k) ∧
      k.isGrouped = true) ∧
    ∃ m k, parseModule "const A = a * b == c ? d : e;" = .ok m ∧
      (Node.module m).at? [0, 0, 0] = some (.expr k) ∧ k.isGrouped = true := by
  have hexpr : ((parseExpr "a - b - c").toOption.any fun e =>
      (((Node.expr e).at? [0]).bind Node.expr?).isSome) = true := by decide +kernel
  have hmodule : ((parseModule "const A = a * b == c ? d : e;").toOption.any fun m =>
      (((Node.module m).at? [0, 0, 0]).bind Node.expr?).isSome) = true := by decide +kernel
  constructor
  · cases he : parseExpr "a - b - c" with
    | error fault => simp [he, Except.toOption] at hexpr
    | ok e =>
      rw [he] at hexpr
      obtain ⟨k, hk⟩ := Node.exists_expr_of_isSome hexpr
      exact ⟨e, k, rfl, hk, (parse_isGrouped _ [0] k).1 e he hk⟩
  · cases hm : parseModule "const A = a * b == c ? d : e;" with
    | error fault => simp [hm, Except.toOption] at hmodule
    | ok m =>
      rw [hm] at hmodule
      obtain ⟨k, hk⟩ := Node.exists_expr_of_isSome hmodule
      exact ⟨m, k, rfl, hk, (parse_isGrouped _ [0, 0, 0] k).2 m hm hk⟩

end Durable
