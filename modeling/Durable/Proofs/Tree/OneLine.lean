/-
Types and expressions are printed on one line.

The printer writes no newline of its own between the parts of a type or an expression, string
literals escape theirs, and names and numbers are tokens, which hold none.  So nothing that is
read and printed again, also with its names taken through a prefix, breaks a line.
-/
import Durable.Proofs.Grammar.Standing
import Durable.Routing

namespace Durable

open Text (OneLine oneLine_append oneLine_intercalate)

theorem oneLine_quote (value : String) : OneLine (Text.quote value) := by
  have hescape : ∀ cs : List Char, '\n' ∉ Text.escape cs := by
    intro cs
    induction cs with
    | nil => simp [Text.escape]
    | cons c cs ih =>
      cases hc : Text.escapeLetter? c with
      | some e =>
        have he : '\n' ≠ e := by
          rintro rfl
          unfold Text.escapeLetter? at hc
          split at hc <;> simp at hc
        simp [Text.escape, hc, he, ih]
      | none =>
        have hne : '\n' ≠ c := by
          rintro rfl
          simp [Text.escapeLetter?] at hc
        simp [Text.escape, hc, hne, ih]
  simp [OneLine, Text.quote, hescape]

/-! ### Lists -/

@[simp] theorem oneLine_commas (xs : List String) :
    OneLine (", ".intercalate xs) ↔ ∀ x ∈ xs, OneLine x := oneLine_intercalate (by decide) xs

@[simp] theorem oneLine_pipes (xs : List String) :
    OneLine ("|".intercalate xs) ↔ ∀ x ∈ xs, OneLine x := oneLine_intercalate (by decide) xs

@[simp] theorem oneLine_amps (xs : List String) :
    OneLine (" & ".intercalate xs) ↔ ∀ x ∈ xs, OneLine x := oneLine_intercalate (by decide) xs

theorem printTypes_eq (ts : List TypeDesc) : printTypes ts = ts.map TypeDesc.print := by
  induction ts with
  | nil => rfl
  | cons t ts ih => simp [printTypes, ih]

theorem printExprs_eq (es : List Expr) : printExprs es = es.map Expr.print := by
  induction es with
  | nil => rfl
  | cons e es ih => simp [printExprs, ih]

theorem printArgs_eq (as : List Arg) : printArgs as = as.flatMap fun a => printArgs [a] := by
  induction as with
  | nil => rfl
  | cons a as ih => cases a <;> simp [printArgs, ih]

theorem printFields_eq (fs : List MappingField) :
    printFields fs = fs.flatMap fun f => printFields [f] := by
  induction fs with
  | nil => rfl
  | cons f fs ih => cases f <;> simp [printFields, ih]

theorem printRecordFields_cons (f : RecordField) (fs : List RecordField) :
    printRecordFields (f :: fs) = printRecordFields [f] ++ printRecordFields fs := by
  obtain ⟨b, t, n, o, d, s⟩ := f
  cases d <;> simp [printRecordFields]

theorem oneLine_printRecordFields (fs : List RecordField) :
    OneLine (printRecordFields fs) ↔ ∀ f ∈ fs, OneLine (printRecordFields [f]) := by
  induction fs with
  | nil => simp [printRecordFields, OneLine]
  | cons f fs ih => rw [printRecordFields_cons, oneLine_append, ih, List.forall_mem_cons]

/-! ### Names taken through a prefix -/

theorem NameRef.oneLine_qualify {via : String} (hvia : OneLine via) {r : NameRef}
    (h : OneLine r.asWritten) : OneLine (r.qualify via).asWritten := by
  obtain ⟨p, n, s⟩ := r
  have hcolon : OneLine ":" := by decide
  cases p with
  | none => simpa [NameRef.qualify, NameRef.asWritten, hvia, hcolon] using h
  | some p => exact h

mutual

theorem TypeDesc.oneLine_qualify {via : String} (hvia : OneLine via) :
    ∀ t : TypeDesc, OneLine t.print → OneLine (t.qualify via).print
  | .named r, h => NameRef.oneLine_qualify hvia h
  | .builtin _ _, h | .nil _, h | .inferred _, h | .anyFunction _, h | .singleton _ _, h
  | .future none _, h => h
  | .optional t _, h | .array t _, h | .map t _, h | .paren t _, h | .future (some t) _, h
  | .stream t none _, h => by
    have := t.oneLine_qualify hvia
    simp_all [TypeDesc.print, TypeDesc.qualify]
  | .stream t (some u) _, h => by
    have ht := t.oneLine_qualify hvia
    have hu := u.oneLine_qualify hvia
    simp_all [TypeDesc.print, TypeDesc.qualify]
  | .union ts _, h | .intersection ts _, h => by
    have := oneLine_qualifyTypes hvia ts
    simp_all [TypeDesc.print, TypeDesc.qualify]
  | .function params rest returns _, h => by
    have hps := oneLine_qualifyTypes hvia params
    cases rest with
    | none => cases returns with
      | none => simp_all [TypeDesc.print, TypeDesc.qualify]
      | some u =>
        have hu := u.oneLine_qualify hvia
        simp_all [TypeDesc.print, TypeDesc.qualify]
    | some t =>
      have ht := t.oneLine_qualify hvia
      cases returns with
      | none => simp_all [TypeDesc.print, TypeDesc.qualify, or_imp, forall_and]
      | some u =>
        have hu := u.oneLine_qualify hvia
        simp_all [TypeDesc.print, TypeDesc.qualify, or_imp, forall_and]
  | .record closed fields rest _, h => by
    have hfs := oneLine_qualifyFields hvia fields
    cases rest with
    | none => cases closed <;> simp_all [TypeDesc.print, TypeDesc.qualify]
    | some t =>
      have ht := t.oneLine_qualify hvia
      cases closed <;> simp_all [TypeDesc.print, TypeDesc.qualify]

theorem oneLine_qualifyTypes {via : String} (hvia : OneLine via) : ∀ ts : List TypeDesc,
    (∀ x ∈ printTypes ts, OneLine x) → ∀ x ∈ printTypes (qualifyTypes via ts), OneLine x
  | [], h => h
  | t :: ts, h => by
    have ht := t.oneLine_qualify hvia
    have hts := oneLine_qualifyTypes hvia ts
    simp_all [printTypes, qualifyTypes]

theorem oneLine_qualifyFields {via : String} (hvia : OneLine via) : ∀ fs : List RecordField,
    OneLine (printRecordFields fs) → OneLine (printRecordFields (qualifyFields via fs))
  | [], h => h
  | .mk _ t _ _ d _ :: fs, h => by
    have ht := t.oneLine_qualify hvia
    have hfs := oneLine_qualifyFields hvia fs
    cases d <;> simp_all [printRecordFields, qualifyFields]

end

/-! ### What is read -/

/-- What a symbol of types or expressions reads is printed on one line. -/
def Sym.OneLine : (s : Sym) → s.Result → Prop
  | .type, t | .intersection, t | .suffixed, t | .suffixing, t | .plainType, t
  | .typeArgument, t => Text.OneLine t.print
  | .typeParam, (_, t) => Text.OneLine t.print
  | .recordItem, .inl f => Text.OneLine (printRecordFields [f])
  | .recordItem, .inr t => Text.OneLine t.print
  | .expr, e | .binary _, e | .joining _, e | .unary, e | .accessed, e | .accessing, e
  | .primary, e | .mapping, e => Text.OneLine e.print
  | .arg, a => ∀ x ∈ printArgs [a], Text.OneLine x
  | .mappingField, f => ∀ x ∈ printFields [f], Text.OneLine x
  | .tag, _ | .param, _ | .localVar, _ => True
  | .many _ s, as | .separated _ s, as | .commaList _ s, as => ∀ a ∈ as, s.OneLine a
  | .behind _ s, a | .given _ s, a => ∀ b ∈ a, s.OneLine b

variable {c c' : Cursor} {cs : List Char}

theorem ReadsName.oneLine {r : NameRef} (h : ReadsName c r c') (hc : c.StandsIn cs) :
    OneLine r.asWritten := by
  cases h with
  | qualified _ hvia hname =>
    have hp := hc.oneLine_word hvia
    have hn := hc.advance.advance.oneLine_ident hname
    have hcolon : OneLine ":" := by decide
    simp [NameRef.asWritten, hp, hn, hcolon]
  | simple _ hname => exact hc.oneLine_ident hname

theorem Cursor.StandsIn.oneLine_literal (h : c.StandsIn cs) {v : Literal}
    (hc : c.kind.literal? = some v) : OneLine v.print := by
  have hkind := h.oneLine
  revert hc hkind
  generalize c.kind = k
  intro hc hkind
  unfold TokenKind.literal? at hc
  split at hc <;> cases hc
  · exact hkind
  · exact hkind
  · exact oneLine_quote _
  · decide
  · decide

theorem oneLine_listedFields {items : List (RecordField ⊕ TypeDesc)}
    (h : ∀ x ∈ items, Sym.recordItem.OneLine x) :
    OneLine (printRecordFields (listedFields items)) := by
  rw [oneLine_printRecordFields]
  exact fun f hf => h _ (mem_of_mem_listedFields hf)

theorem oneLine_args {as : List Arg} (h : ∀ a ∈ as, ∀ x ∈ printArgs [a], OneLine x) :
    ∀ x ∈ printArgs as, OneLine x := by
  intro x hx
  rw [printArgs_eq] at hx
  obtain ⟨a, ha, hx⟩ := List.mem_flatMap.mp hx
  exact h a ha x hx

theorem oneLine_fields {fs : List MappingField}
    (h : ∀ f ∈ fs, ∀ x ∈ printFields [f], OneLine x) : ∀ x ∈ printFields fs, OneLine x := by
  intro x hx
  rw [printFields_eq] at hx
  obtain ⟨f, hf, hx⟩ := List.mem_flatMap.mp hx
  exact h f hf x hx

/-- **Types and expressions that were read are printed on one line.** -/
theorem Reads.oneLine {s : Sym} {t : s.Result} (h : Reads s c t c') (hc : c.StandsIn cs) :
    s.OneLine t := by
  induction h with
  | oneMember _ ih | onePart _ ih => simpa [Sym.OneLine] using ih hc
  | union _ ih | intersection _ ih =>
    simpa +decide [Sym.OneLine, TypeDesc.print, printTypes_eq] using ih hc
  | suffixed _ _ ih | plain _ ih | condition _ _ ih | operand _ ih | binary _ _ ih | bare _ ih
  | accessed _ _ ih | primary _ ih | mapping _ ih => exact ih hc
  | optional _ _ ih | array _ _ _ ih => simpa +decide [Sym.OneLine, TypeDesc.print] using ih hc
  | typeArgument _ _ _ ih => exact ih hc.advance
  | @builtin _ b => cases b <;> simp only [Sym.OneLine, TypeDesc.print] <;> decide
  | typeName _ href => exact href.oneLine hc
  | inferred | anyFunction | nilType => simp only [Sym.OneLine, TypeDesc.print]; decide
  | mapType _ _ ih | parenType _ _ _ ih =>
    simpa +decide [Sym.OneLine, TypeDesc.print] using ih hc.advance
  | @future _ _ t _ _ ih =>
    cases t with
    | none => simp +decide [Sym.OneLine, TypeDesc.print]
    | some t => simpa +decide [Sym.OneLine, TypeDesc.print] using ih hc.advance
  | @stream _ _ _ t u _ _ item _ _ ih₁ ih₂ =>
    have ht := ih₁ hc.advance.advance
    have hu := ih₂ (hc.advance.advance.reaches item.reaches)
    cases u <;> simp_all +decide [Sym.OneLine, TypeDesc.print]
  | @functionType _ _ _ params returns _ _ list _ ih₁ ih₂ =>
    have hps := ih₁ hc.advance.advance
    have hr := ih₂ (hc.advance.advance.reaches list.reaches)
    have hfixed := fun t ht => hps _ (mem_of_mem_fixedParams (t := t) ht)
    have hrest := fun t ht => hps _ (mem_of_restParam (t := t) ht)
    cases hlast : Durable.restParam params <;> cases returns <;>
      simp_all +decide [Sym.OneLine, TypeDesc.print, printTypes_eq, or_imp, forall_and]
  | @record _ _ closed items _ _ _ ih =>
    have hitems := ih hc.advance.advance
    have hfields := oneLine_listedFields hitems
    have hrest := fun t ht => hitems _ (mem_of_unlistedFields (t := t) ht)
    cases hlast : unlistedFields items <;> cases closed <;>
      simp_all +decide [Sym.OneLine, TypeDesc.print]
  | singleton hv | literal hv => exact hc.oneLine_literal hv
  | typeParam _ ih => exact ih hc
  | @recordField c _ _ t n default type _ name _ _ ih₁ ih₂ =>
    have hstart := hc.reaches (Cursor.Reaches.refl.ite (b := c.atReadonlyMark))
    have hname := hstart.reaches type.reaches
    have hn := hname.oneLine_word name
    have ht := ih₁ hstart
    have hd := ih₂ (hname.advance.reaches (Cursor.Reaches.refl.pass _))
    clear ih₁ ih₂ hstart hname type
    generalize c.atReadonlyMark = isReadonly
    generalize (Cursor.kind _ == _) = isOptional
    cases default <;> cases isReadonly <;> cases isOptional <;>
      simp_all +decide [Sym.OneLine, printRecordFields]
  | @recordRest c _ _ _ _ _ ih => exact ih (hc.reaches (Cursor.Reaches.refl.ite (b := c.atReadonlyMark)))
  | @conditional _ _ _ _ _ _ _ e _ f _ _ ih₁ ih₂ ih₃ =>
    have hthen := (hc.reaches e.reaches).advance
    have he := ih₁ hc
    have hf := ih₂ hthen
    have hg := ih₃ (hthen.reaches f.reaches).advance
    simp_all +decide [Sym.OneLine, Expr.print]
  | @operator _ _ _ _ _ _ op left _ _ _ ih₁ ih₂ =>
    have he := ih₁ hc
    have hf := ih₂ (hc.reaches left.reaches).advance
    cases op <;> simp_all +decide [Sym.OneLine, Expr.print, BinaryOp.mark, Mark.text]
  | typeTest left _ _ _ ih₁ ih₂ =>
    have he := ih₁ hc
    have ht := ih₂ (hc.reaches left.reaches).advance
    simp_all +decide [Sym.OneLine, Expr.print]
  | @unary _ _ _ op _ _ ih =>
    have he := ih hc.advance
    cases op <;> simp_all +decide [Sym.OneLine, Expr.print, UnaryOp.text]
  | cast type _ ih₁ ih₂ =>
    have ht := ih₁ hc
    have he := ih₂ (hc.reaches type.reaches)
    simp_all +decide [Sym.OneLine, Expr.print]
  | field target _ name _ ih =>
    have he := ih hc
    have hn := (hc.reaches target.reaches).advance.oneLine_word name
    simp_all +decide [Sym.OneLine, Expr.print]
  | methodCall target _ name _ _ ih₁ ih₂ | remoteCall target _ name _ _ ih₁ ih₂ =>
    have hat := (hc.reaches target.reaches).advance
    have he := ih₁ hc
    have hn := hat.oneLine_word name
    have has := oneLine_args (ih₂ hat.advance.advance)
    simp_all +decide [Sym.OneLine, Expr.print]
  | index target _ _ _ ih₁ ih₂ =>
    have he := ih₁ hc
    have hp := ih₂ (hc.reaches target.reaches).advance
    simp_all +decide [Sym.OneLine, Expr.print]
  | nilValue => simp only [Sym.OneLine, Expr.print]; decide
  | paren _ _ _ ih => simpa +decide [Sym.OneLine, Expr.print] using ih hc.advance
  | list _ _ ih => simpa +decide [Sym.OneLine, Expr.print, printExprs_eq] using ih hc.advance
  | @construct _ _ _ t as _ type _ ih₁ ih₂ =>
    have ht := ih₁ hc.advance
    have has := ih₂ (hc.advance.reaches type.reaches)
    have hall : ∀ x ∈ printArgs (as.getD []), OneLine x := by
      cases as with
      | none => simp [printArgs]
      | some as => exact oneLine_args (has as rfl)
    cases t <;> simp_all +decide [Sym.OneLine, Expr.print]
  | errorCall _ _ _ ih =>
    have has := oneLine_args (ih hc.advance.advance)
    simp_all +decide [Sym.OneLine, Expr.print, NameRef.asWritten, NameRef.simple, Keyword.text]
  | name _ href => exact href.oneLine hc
  | call _ href _ _ ih =>
    have hr := href.oneLine hc
    have has := oneLine_args (ih (hc.reaches href.reaches).advance)
    simp_all +decide [Sym.OneLine, Expr.print]
  | restArg _ _ ih => simpa +decide [Sym.OneLine, printArgs] using ih hc.advance
  | namedArg name _ _ ih =>
    have hn := hc.oneLine_ident name
    have he := ih hc.advance.advance
    simp_all +decide [Sym.OneLine, printArgs]
  | positional _ _ ih => simpa [Sym.OneLine, printArgs] using ih hc
  | spread _ _ ih => simpa +decide [Sym.OneLine, printFields] using ih hc.advance
  | stringField _ _ _ ih =>
    have he := ih hc.advance.advance
    simp_all +decide [Sym.OneLine, printFields, oneLine_quote]
  | computedField _ hkey _ _ _ ih₁ ih₂ =>
    have hk := ih₁ hc.advance
    have he := ih₂ (hc.advance.reaches hkey.reaches).advance.advance
    simp_all +decide [Sym.OneLine, printFields]
  | wordField name _ _ ih =>
    have hn := hc.oneLine_word name
    have he := ih hc.advance.advance
    simp_all +decide [Sym.OneLine, printFields]
  | shorthand name _ =>
    have hn := hc.oneLine_word name
    simp_all [Sym.OneLine, printFields, NameRef.asWritten, NameRef.simple]
  | fields _ _ ih =>
    have hfs := oneLine_fields (ih hc.advance)
    simp_all +decide [Sym.OneLine, Expr.print]
  | tag | restParam | param | localVar => trivial
  | stop | noItems => simp [Sym.OneLine]
  | more step first _ ih₁ ih₂ =>
    have hc₁ := hc.reaches (Gap.step_reaches step)
    exact List.forall_mem_cons.mpr ⟨ih₁ hc₁, ih₂ (hc₁.reaches first.reaches)⟩
  | separated first _ ih₁ ih₂ | items _ first _ ih₁ ih₂ =>
    exact List.forall_mem_cons.mpr ⟨ih₁ hc, ih₂ (hc.reaches first.reaches)⟩
  | absent | missing => simp [Sym.OneLine]
  | present _ _ ih => simpa [Sym.OneLine] using ih hc.advance
  | found _ _ ih => simpa [Sym.OneLine] using ih hc

end Durable
