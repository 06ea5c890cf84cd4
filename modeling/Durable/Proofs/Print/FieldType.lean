/-
Record types put together from printed types.

A field may be marked by the word `readonly`, has any type, and may be optional and have a default.
Its type is stopped by its name, which is no suffix and no operator, whatever the type ends with.
What is left is to tell the mark from a type that is the word or starts with it.  The parser looks
two tokens ahead for that: behind a mark stands another word, and behind this one neither a
semicolon nor an equals sign.  A type of more than one token has a mark second, so all is well
there.  Behind a type of one token stands the name of the field, and then the two tokens do not
suffice: the third may be the question mark of an optional field.  So an optional field of the type
`readonly` cannot be written without a mark: `Reads.ne_optionalReadonly` says that no text is read
as one, and `readsField_fieldText` that there is no other such field.
-/
import Durable.Proofs.Print.Quoted

namespace Durable

open Text

variable {c c' : Cursor} {t : TypeDesc}

/-! ### Types of one part -/

namespace TypeDesc

/-- The type is no union and no intersection and has no suffix. -/
def isPart : TypeDesc → Bool
  | union _ _ | intersection _ _ | optional _ _ | array _ _ => false
  | _ => true

/-- The type is the word `readonly`. -/
def isReadonly : TypeDesc → Bool
  | builtin .readonly _ => true
  | _ => false

theorem isReadonly_iff : t.isReadonly = true ↔ t.erase = .builtin .readonly .synthetic := by
  cases t with
  | builtin b => cases b <;> simp [isReadonly]
  | _ => simp [isReadonly]

end TypeDesc

theorem Reads.separated_one {m : Mark} {s : Sym} {a : s.Result}
    (h : Reads (.separated m s) c [a] c') : Reads s c a c' := by
  cases h with
  | separated first others =>
    cases others with
    | stop step =>
      obtain ⟨-, rfl⟩ := between_stop step
      exact first

theorem Reads.plainType_of_type (h : Reads .type c t c') (ht : t.isPart = true) :
    Reads .plainType c t c' := by
  cases h with
  | union => simp [TypeDesc.isPart] at ht
  | oneMember members =>
    cases members.separated_one with
    | intersection => simp [TypeDesc.isPart] at ht
    | onePart parts =>
      cases parts.separated_one with
      | suffixed chain =>
        cases chain with
        | plain inner => exact inner
        | optional | array => simp [TypeDesc.isPart] at ht

/-- What is read up to the end of a text has no suffix and stands alone. -/
theorem Reads.type_of_plainType (h : Reads .plainType c t c') (hend : c'.kind = .endOfFile) :
    Reads .type c t c' := by
  have hstop : ∀ m, (Gap.between m).step c' = some (true, c') := fun m => by
    simp [Gap.step, hend]
  have hsuffixed : Reads .suffixed c t c' := .suffixed (.plain h) ⟨by simp [hend], by simp [hend]⟩
  exact .oneMember
    (.separated (.onePart (.separated hsuffixed (.stop (hstop _)))) (.stop (hstop _)))

/-! ### The field that cannot be written -/

/-- No text is read as an optional field of the type `readonly`: the word would mark the field. -/
theorem Reads.ne_optionalReadonly {f : RecordField} {n : Ident} {default : Option Expr}
    (h : Reads .recordItem c (.inl f) c') :
    f.erase ≠ .mk false (.builtin .readonly .synthetic) n true default .synthetic := by
  intro heq
  cases h with
  | @recordField _ c₁ _ t _ _ type _ name =>
    simp only [RecordField.erase, RecordField.mk.injEq, beq_iff_eq] at heq
    obtain ⟨hunmarked, ht, -, hquestion, -⟩ := heq
    simp only [hunmarked, Bool.false_eq_true, if_false] at type
    cases t <;> simp only [TypeDesc.erase, reduceCtorEq, TypeDesc.builtin.injEq, and_true] at ht
    subst ht
    cases type.plainType_of_type rfl with
    | builtin word =>
      have hmarked : c.atReadonlyMark = true := Cursor.atReadonlyMark_iff.mpr
        ⟨word, ⟨_, name⟩, by simp [hquestion], by simp [hquestion]⟩
      simp [hmarked] at hunmarked

/-! ### Records with one field -/

/-- The text of a record type with one field. -/
def fieldText (marked : Bool) (type : TypeDesc) (name : String) (optional : Bool)
    (default : Option Expr) : String :=
  "record \x7b " ++ (if marked then "readonly " else "") ++ type.print ++ " " ++ name ++
    (if optional then "?" else "") ++ default.elim "" (fun e => " = " ++ e.print) ++ "; \x7d"

/-- A text is read as an open record type with one field, and that field is the given one, up to
places. -/
def ReadsField (text : String) (f : RecordField) : Prop :=
  ∃ r, parseType text = .ok r ∧ r.erase = .record false [f] none .synthetic

theorem ReadsField.not_optionalReadonly {text : String} {n : Ident} {default : Option Expr} :
    ¬ ReadsField text (.mk false (.builtin .readonly .synthetic) n true default .synthetic) := by
  rintro ⟨r, hr, herase⟩
  obtain ⟨c, c', -, hread, -⟩ := reads_of_parseType hr
  cases r <;> simp only [TypeDesc.erase, reduceCtorEq] at herase
  cases hread.plainType_of_type rfl with
  | @record _ _ _ items _ _ list =>
    simp only [TypeDesc.record.injEq, eraseRecordFields_eq] at herase
    obtain ⟨f, hf, hfield⟩ := List.mem_map.mp (herase.2.1 ▸ List.mem_singleton_self _)
    obtain ⟨_, _, hitem⟩ := (repeats_of_reads list).of_mem _ (mem_of_mem_listedFields hf)
    exact hitem.ne_optionalReadonly hfield

section

variable {marked optional : Bool} {n : String} {default : Option Expr}

/-- It is what the printer writes. -/
theorem fieldText_eq : fieldText marked t n optional default = (TypeDesc.record false
    [.mk marked t ⟨n, .synthetic⟩ optional default .synthetic] none .synthetic).print := by
  refine String.toList_injective ?_
  cases marked <;> cases optional <;> cases default <;>
    simp [fieldText, TypeDesc.print, printRecordFields]

/-- A field that is read again wherever it stands is read again in a record type of its own. -/
theorem ReprintsItem.readsField (item : ReprintsItem (fieldText marked t n optional default).toList
      (.inl (.mk marked t ⟨n, .synthetic⟩ optional default .synthetic))) :
    ReadsField (fieldText marked t n optional default)
      (.mk marked t.erase ⟨n, .synthetic⟩ optional (default.map Expr.erase) .synthetic) := by
  generalize hsrc : (fieldText marked t n optional default).toList = src at item
  -- Of the cursor only the kind of its token matters.
  have hrecord : Reprints src .plainType (Cursor.ofTiles [⟨[], [], .keyword .kwRecord⟩] 0)
      (.record false
        (listedFields [.inl (.mk marked t ⟨n, .synthetic⟩ optional default .synthetic)])
        (unlistedFields [.inl (.mk marked t ⟨n, .synthetic⟩ optional default .synthetic)])
        .synthetic) fun _ => True := .record rfl (by simpa using item)
  have hruns : Runs src src _ [] := (hrecord.runs .nil fun _ _ => trivial).congr
    (by rw [← hsrc, fieldText_eq, List.append_nil]; rfl)
  subst hsrc
  obtain ⟨d, d', hd, ⟨-, r, hread, herase⟩, hend⟩ := hruns.exists_ofText
  refine ⟨r, parseType_of_reads hd (hread.type_of_plainType hend) hend, herase.trans ?_⟩
  simp [Sym.erase, listedFields, unlistedFields, Ident.erase]

end

/-- A name that needs no apostrophe. -/
def isName (n : String) : Bool := isPlainName n && n.toList.all isWordChar

/-- The first token of a text is a name or a word of the language. -/
def startsWithWord (text : String) : Bool :=
  (Cursor.ofText text).toOption.any fun c => c.kind.word?.isSome

theorem TokenKind.plain_of_isName {n : String} (h : isName n = true) : (ident n).Plain := by
  obtain ⟨hplain, hword⟩ := Bool.and_eq_true_iff.mp h
  have hspells := plain_ident (List.all_eq_true.mp hword) (by simpa using hplain)
  simpa using hspells

/-- **A field has any type.**  Of a type and a default from texts and of any name, a record type
with one field is read as such, with the field optional or not, marked by the word `readonly` or
not.  Only an optional field of the type `readonly` that is not marked is never read.  Behind the
mark the type must start with a word. -/
theorem readsField_fieldText {text n : String} {t : TypeDesc} {marked optional : Bool}
    {default : Option Expr} (ht : parseType text = .ok t) (hquotes : quotesName text = false)
    (hn : isName n = true) (hword : marked = true → startsWithWord text = true)
    (hdefault : ∀ e ∈ default, ∃ textₑ, parseExpr textₑ = .ok e ∧ quotesName textₑ = false) :
    ReadsField (fieldText marked t n optional default)
      (.mk marked t.erase ⟨n, .synthetic⟩ optional (default.map Expr.erase) .synthetic) ↔
    ¬ (t.isReadonly = true ∧ marked = false ∧ optional = true) := by
  constructor
  · rintro hreads ⟨hreadonly, rfl, rfl⟩
    rw [TypeDesc.isReadonly_iff.mp hreadonly] at hreads
    exact hreads.not_optionalReadonly
  · intro hnot
    generalize hsrc : (fieldText marked t n optional default).toList = src
    obtain ⟨c, hc, hback⟩ := reprints_of_parseType src ht hquotes
    have htype : Reprints src .type c t (·.kind = .ident n) :=
      hback.mono fun _ hd => .inr (by rw [hd]; rfl)
    have hvalue : ∀ e ∈ default, ∃ c, Reprints src .expr c e (·.kind = .mark .semicolon) := by
      intro e he
      obtain ⟨textₑ, hparse, hquotesₑ⟩ := hdefault e he
      obtain ⟨cₑ, hbackₑ⟩ := reprints_of_parseExpr src hparse hquotesₑ
      exact ⟨cₑ, hbackₑ.mono fun _ hd => .inr (by rw [hd]; rfl)⟩
    have hname := TokenKind.plain_of_isName hn
    subst hsrc
    cases marked with
    | true =>
      have hfirst := hword rfl
      simp only [startsWithWord, hc, Except.toOption, Option.any_some,
        Option.isSome_iff_exists] at hfirst
      obtain ⟨m, hm⟩ := hfirst
      exact ReprintsItem.readsField (.marked hname rfl hm htype hvalue)
    | false =>
      refine ReprintsItem.readsField (.unmarked hname rfl htype ?_ hvalue)
      rintro rfl - sp rfl
      exact hnot ⟨rfl, rfl, rfl⟩

/-- The word marks a field whose type starts with it, too, and the field may be optional then. -/
theorem readsField_fieldText_marked : ∃ t e, parseType "readonly[]" = .ok t ∧
    parseExpr "1" = .ok e ∧
    fieldText true t "n" true (some e) = "record \x7b readonly readonly[] n? = 1; \x7d" ∧
    ReadsField (fieldText true t "n" true (some e))
      (.mk true t.erase ⟨"n", .synthetic⟩ true (some e.erase) .synthetic) := by
  have hreads : ((parseType "readonly[]").toOption.any fun t =>
      (parseExpr "1").toOption.any fun e => fieldText true t "n" true (some e)
        == "record \x7b readonly readonly[] n? = 1; \x7d") = true := by decide +kernel
  simp only [Option.any_eq_true, toOption_eq_some, beq_iff_eq] at hreads
  obtain ⟨t, ht, e, he, htext⟩ := hreads
  refine ⟨t, e, ht, he, htext, (readsField_fieldText ht (by decide +kernel) (by decide)
    (fun _ => by decide +kernel) ?_).mpr (by simp)⟩
  intro e' he'
  obtain rfl : e = e' := by simpa using he'
  exact ⟨"1", he, by decide +kernel⟩

/-- Without the mark the word is taken for it in front of an optional field of that type. -/
theorem not_all_fields_read : ¬ ∀ text n t, parseType text = .ok t → quotesName text = false →
    isName n = true → ReadsField (fieldText false t n true none)
      (.mk false t.erase ⟨n, .synthetic⟩ true none .synthetic) := by
  intro h
  have hfails : ((parseType "readonly").toOption.any fun t =>
      (parseType (fieldText false t "n" true none)).toOption.isNone) = true := by decide +kernel
  simp only [Option.any_eq_true, toOption_eq_some] at hfails
  obtain ⟨t, ht, hnone⟩ := hfails
  obtain ⟨r, hr, -⟩ := h _ "n" t ht (by decide +kernel) (by decide)
  simp [hr, Except.toOption] at hnone

end Durable
