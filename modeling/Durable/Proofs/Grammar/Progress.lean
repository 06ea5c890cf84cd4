/-
Reading goes forward.

A cursor only ever moves by passing tokens, so where a symbol stops is reached from where it
started.  Most symbols read at least one token; the exceptions are the optional parts and the
lists behind a first item.  Both facts bound the parser's fuel, and the first one carries
whatever holds of all the tokens of a text to the cursors inside it.
-/
import Durable.Proofs.Grammar.Reads

namespace Durable

namespace Cursor

/-- A cursor is reached from another by passing tokens. -/
inductive Reaches (c : Cursor) : Cursor → Prop
  | refl : Reaches c c
  | step {c' : Cursor} (h : Reaches c c') : Reaches c c'.advance

namespace Reaches

variable {c c₁ c₂ : Cursor}

theorem trans (h : c.Reaches c₁) (h' : c₁.Reaches c₂) : c.Reaches c₂ := by
  induction h' with
  | refl => exact h
  | step _ ih => exact .step ih

theorem length_le (h : c.Reaches c₁) : c₁.rest.length ≤ c.rest.length := by
  induction h with
  | refl => exact Nat.le_refl _
  | @step c' _ ih =>
    have := c'.length_advance_le
    omega

/-- A property of cursors that passing a token keeps holds wherever reading gets. -/
theorem keeps {P : Cursor → Prop} (hstep : ∀ c, P c → P c.advance) (h : c.Reaches c₁)
    (hc : P c) : P c₁ := by
  induction h with
  | refl => exact hc
  | step _ ih => exact hstep _ ih

theorem pass (h : c.Reaches c₁) (k : TokenKind) : c.Reaches (c₁.pass k) := by
  unfold Cursor.pass
  split
  · exact .step h
  · exact h

theorem passName (h : c.Reaches c₁) : c.Reaches c₁.passName := by
  unfold Cursor.passName
  split
  · exact .step h
  · exact h

theorem ite {b : Bool} (h : c.Reaches c₁) : c.Reaches (if b then c₁.advance else c₁) := by
  split
  · exact .step h
  · exact h

end Reaches

theorem length_advance_lt {c : Cursor} (h : c.kind ≠ .endOfFile) :
    c.advance.rest.length < c.rest.length := by
  have := length_advance h
  omega

end Cursor

open Cursor (Reaches)

theorem ReadsName.reaches {c c' : Cursor} {r : NameRef} (h : ReadsName c r c') :
    c.Reaches c' := by
  cases h with
  | qualified => exact Reaches.refl.step.step.step
  | simple => exact Reaches.refl.step

theorem ReadsName.length_lt {c c' : Cursor} {r : NameRef} (h : ReadsName c r c') :
    c'.rest.length < c.rest.length := by
  cases h with
  | qualified hat hvia hname =>
    have hkind : c.kind ≠ .endOfFile := fun h => by simp [h, TokenKind.word?] at hvia
    have := Cursor.length_advance hkind
    have := c.advance.length_advance_le
    have := c.advance.advance.length_advance_le
    omega
  | simple hat hname => exact Cursor.length_advance_lt (by simp [hname])

theorem Gap.step_reaches {gap : Gap} {c c' : Cursor} {b : Bool} (h : gap.step c = some (b, c')) :
    c.Reaches c' := by
  have hmoves : c' = c ∨ c' = c.advance := by
    unfold Gap.step at h
    grind
  obtain rfl | rfl := hmoves
  · exact .refl
  · exact Reaches.refl.step

theorem between_more {m : Mark} {c c₁ : Cursor} (h : (Gap.between m).step c = some (false, c₁)) :
    c.kind = .mark m ∧ c.advance = c₁ := by
  simp only [Gap.step] at h
  split at h <;> simp_all

theorem between_stop {m : Mark} {c c₁ : Cursor} (h : (Gap.between m).step c = some (true, c₁)) :
    c.kind ≠ .mark m ∧ c = c₁ := by
  simp only [Gap.step] at h
  split at h <;> simp_all

/-- Where a symbol stops is reached from where it started. -/
theorem Reads.reaches {s : Sym} {c c' : Cursor} {t : s.Result} (h : Reads s c t c') :
    c.Reaches c' := by
  induction h with
  | oneMember _ ih | union _ ih | onePart _ ih | intersection _ ih | suffixed _ _ ih
  | plain _ ih | condition _ _ ih | operand _ ih | binary _ _ ih | bare _ ih | accessed _ _ ih
  | primary _ ih | mapping _ ih | found _ _ ih => exact ih
  | optional _ _ ih => exact ih.step
  | array _ _ _ ih => exact ih.step.step
  | typeArgument _ _ _ ih | parenType _ _ _ ih | paren _ _ _ ih =>
    exact (Reaches.refl.step.trans ih).step
  | builtin | inferred | anyFunction | singleton | literal | shorthand | noItems =>
    exact Reaches.refl.step
  | typeName _ href | name _ href => exact href.reaches
  | mapType _ _ ih | future _ _ ih | unary _ _ ih | list _ _ ih | restArg _ _ ih
  | spread _ _ ih | fields _ _ ih | present _ _ ih => exact Reaches.refl.step.trans ih
  | stream _ _ _ _ _ ih₁ ih₂ => exact ((Reaches.refl.step.step.trans ih₁).trans ih₂).step
  | functionType _ _ _ _ ih₁ ih₂ => exact (Reaches.refl.step.step.trans ih₁).trans ih₂
  | record _ _ _ ih | errorCall _ _ _ ih | namedArg _ _ _ ih | stringField _ _ _ ih
  | wordField _ _ _ ih => exact Reaches.refl.step.step.trans ih
  | nilType | nilValue => exact Reaches.refl.step.step
  | typeParam _ ih => exact (ih.pass _).passName
  | recordField _ _ _ _ _ ih₁ ih₂ =>
    exact (((Reaches.refl.ite.trans ih₁).step.pass _).trans ih₂).step
  | recordRest _ _ _ ih => exact (Reaches.refl.ite.trans ih).step.step
  | conditional _ _ _ _ _ ih₁ ih₂ ih₃ => exact ((ih₁.step.trans ih₂).step).trans ih₃
  | operator _ _ _ _ ih₁ ih₂ | typeTest _ _ _ _ ih₁ ih₂ => exact ih₁.step.trans ih₂
  | cast _ _ ih₁ ih₂ | separated _ _ ih₁ ih₂ | items _ _ _ ih₁ ih₂ => exact ih₁.trans ih₂
  | field _ _ _ _ ih => exact ih.step.step
  | methodCall _ _ _ _ _ ih₁ ih₂ | remoteCall _ _ _ _ _ ih₁ ih₂ =>
    exact ih₁.step.step.step.trans ih₂
  | index _ _ _ _ ih₁ ih₂ => exact (ih₁.step.trans ih₂).step
  | construct _ _ _ ih₁ ih₂ => exact (Reaches.refl.step.trans ih₁).trans ih₂
  | call _ href _ _ ih => exact href.reaches.step.trans ih
  | positional _ _ ih => exact ih
  | computedField _ _ _ _ _ ih₁ ih₂ => exact (Reaches.refl.step.trans ih₁).step.step.trans ih₂
  | tag _ href _ ih => exact (Reaches.refl.step.trans href.reaches).trans ih
  | restParam _ _ _ _ ih₁ ih₂ => exact (ih₁.trans ih₂).step.step
  | param _ _ _ _ ih₁ ih₂ ih₃ => exact (ih₁.trans ih₂).step.trans ih₃
  | localVar _ _ _ _ _ ih₁ ih₂ ih₃ => exact (((ih₁.pass _).trans ih₂).step.trans ih₃).step
  | stop hstep => exact Gap.step_reaches hstep
  | more hstep _ _ ih₁ ih₂ => exact ((Gap.step_reaches hstep).trans ih₁).trans ih₂
  | absent | missing => exact .refl

/-- The symbols that read at least one token whatever they read. -/
def Sym.Consumes : Sym → Prop
  | many _ _ | behind _ _ | given _ _ => False
  | separated _ s | commaList _ s => s.Consumes
  | _ => True

theorem TokenKind.ne_endOfFile_of_literal? {k : TokenKind} {v : Literal}
    (h : k.literal? = some v) : k ≠ .endOfFile := by
  rintro rfl
  simp [literal?] at h

theorem TokenKind.ne_endOfFile_of_word? {k : TokenKind} {n : String}
    (h : k.word? = some n) : k ≠ .endOfFile := by
  rintro rfl
  simp [word?] at h

theorem Reads.length {s : Sym} {c c' : Cursor} {t : s.Result} (h : Reads s c t c') :
    c'.rest.length ≤ c.rest.length ∧ (s.Consumes → c'.rest.length < c.rest.length) := by
  induction h with
  | call _ href _ _ ih | tag _ href _ ih =>
    have := href.length_lt
    grind [Cursor.length_advance_le, Cursor.length_advance_lt, Sym.Consumes]
  | stop hstep => exact ⟨(Gap.step_reaches hstep).length_le, fun h => h.elim⟩
  | more hstep _ _ ih₁ ih₂ =>
    have := (Gap.step_reaches hstep).length_le
    exact ⟨by omega, fun h => h.elim⟩
  | _ =>
    grind [Cursor.length_advance_le, Cursor.length_advance_lt, Cursor.pass, Cursor.passName,
      Sym.Consumes, ReadsName.length_lt, TokenKind.ne_endOfFile_of_literal?,
      TokenKind.ne_endOfFile_of_word?]

/-- A symbol that consumes leaves fewer tokens than it found. -/
theorem Reads.length_lt {s : Sym} {c c' : Cursor} {t : s.Result} (h : Reads s c t c')
    (hs : s.Consumes) : c'.rest.length < c.rest.length :=
  h.length.2 hs

end Durable
