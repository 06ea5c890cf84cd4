/-
String literals in a text.

`quote` writes a value between quotes with six characters escaped, and the scanner knows one escape
more.  Two things make a literal come back: every escape that is written stands for the character it
was written for, and the closing quote is the first one that no backslash stands before.  Neither
depends on what follows, so behind a literal the scanner goes on as it would have begun there, with
the same tokens or the same fault; and by itself the literal is an expression.
-/
import Durable.Proofs.Token.Faults
import Durable.Proofs.Grammar.CompleteMember
import Durable.Proofs.Print.Walk

namespace Durable

open Text

/-- The token of the tile that a text starts with comes first, and behind it come those of the rest,
or the fault of the rest. -/
theorem Tile.Starts.tokensFrom {t : Tile} {cs rest : List Char} (h : t.Starts cs rest)
    {fuel : Nat} (hfuel : cs.length < fuel) (offset : Nat) :
    let start := offset + byteLength t.blank
    let stop := start + byteLength t.text
    Lexer.tokensFrom fuel offset cs
      = (Lexer.tokensFrom (rest.length + 1) stop rest).map (⟨t.kind, ⟨start, stop⟩⟩ :: ·) := by
  intro start stop
  obtain ⟨fuel, rfl⟩ := Nat.exists_eq_succ_of_ne_zero (Nat.ne_of_gt (Nat.zero_lt_of_lt hfuel))
  obtain ⟨c, more, htext, hscan⟩ := h.scan
  have hshorter : rest.length < fuel := by
    have hpos := List.length_pos_iff.mpr (Lexer.scanToken_append (hscan 0)).2
    have := congrArg List.length h.text_append
    simp only [List.length_append] at this hpos
    omega
  have hrest : Lexer.tokensFrom fuel stop rest = Lexer.tokensFrom (rest.length + 1) stop rest :=
    Lexer.tokensFrom_bound hshorter (Nat.lt_succ_self _)
  rw [Lexer.tokensFrom, h.skip, htext]
  simp only [hscan, bind, Except.bind, pure, Except.pure, hrest, start, stop]
  rfl

theorem quote_spells (v : String) : Spells (.string v) (quote v).toList := by
  have h := TokenKind.plain_string v
  rwa [TokenKind.Plain, TokenKind.spelling_string] at h

/-- A literal starts the text it stands before. -/
theorem quote_starts (v : String) (rest : List Char) :
    (Tile.mk [] (quote v).toList (.string v)).Starts ((quote v).toList ++ rest) rest := by
  have hgap : ∀ c ∈ ([] : List Char), isBlank c = true := by simp
  have hends : (TokenKind.string v).Ends rest := trivial
  simpa using (quote_spells v).starts hgap hends

/-- What is read by itself and up to the end of a text is an expression. -/
theorem Reads.expr_of_primary {c c' : Cursor} {e : Expr} (h : Reads .primary c e c')
    (hend : c'.kind = .endOfFile) : Reads .expr c e c' := by
  have haccess : c'.EndsAccess := by simp [Cursor.EndsAccess, hend]
  have hoperand : c'.EndsOperand 0 := by simp [Cursor.EndsOperand, hend, Grammar.binaryOp?]
  exact .condition (.binary (.operand (.bare (.accessed (.primary h) haccess))) hoperand)
    (by simp [hend])

/-- Where a literal is all that is left, it is an expression. -/
theorem Reads.expr_of_string (v : String) (stop : Nat) :
    Reads .expr ⟨[⟨.string v, ⟨0, stop⟩⟩], 0, ⟨stop, stop⟩⟩ (.literal (.string v) ⟨0, stop⟩)
      ⟨[], stop, ⟨stop, stop⟩⟩ := by
  have h : Reads .primary ⟨[⟨.string v, ⟨0, stop⟩⟩], 0, ⟨stop, stop⟩⟩
      (.literal (.string v) ⟨0, max stop 0⟩) ⟨[], stop, ⟨stop, stop⟩⟩ :=
    .literal (c := ⟨[⟨.string v, ⟨0, stop⟩⟩], 0, ⟨stop, stop⟩⟩) rfl
  rw [Nat.max_zero] at h
  exact h.expr_of_primary rfl

/-- **A quoted text comes back, whatever follows it.**  A literal stands on one line.  It is the first
token of every text that it starts, with the value that was quoted and up to the closing quote; what
follows is scanned as it would be by itself, faults included.  By itself a literal is one token and
one expression. -/
theorem tokenize_quote_append (v : String) :
    OneLine (quote v) ∧
    let stop := byteLength (quote v).toList
    (∀ t : String, tokenize (quote v ++ t)
      = (Lexer.tokensFrom (t.toList.length + 1) stop t.toList).map (⟨.string v, ⟨0, stop⟩⟩ :: ·)) ∧
    tokenize (quote v) = .ok [⟨.string v, ⟨0, stop⟩⟩, ⟨.endOfFile, ⟨stop, stop⟩⟩] ∧
    parseExpr (quote v) = .ok (.literal (.string v) ⟨0, stop⟩) := by
  have happend : ∀ t : String, tokenize (quote v ++ t)
      = (Lexer.tokensFrom (t.toList.length + 1) (byteLength (quote v).toList) t.toList).map
        (⟨.string v, ⟨0, byteLength (quote v).toList⟩⟩ :: ·) := by
    intro t
    have hfirst := (quote_starts v t.toList).tokensFrom (Nat.lt_succ_self _) 0
    simp only [byteLength_nil, Nat.add_zero, Nat.zero_add] at hfirst
    rwa [tokenize, String.toList_append]
  have halone := happend ""
  rw [String.append_empty] at halone
  have hline := (quote_spells v).ne_newline
  generalize byteLength (quote v).toList = stop at happend halone ⊢
  have hc : Cursor.ofText (quote v) = .ok ⟨[⟨.string v, ⟨0, stop⟩⟩], 0, ⟨stop, stop⟩⟩ := by
    rw [Cursor.ofText, halone]
    rfl
  exact ⟨hline, happend, halone, parseExpr_of_reads hc (Reads.expr_of_string v stop) rfl⟩

end Durable
