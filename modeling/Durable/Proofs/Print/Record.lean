/-
Printed record types are read again.

The word `readonly` in front of a field marks it, or is its type or the start of its type.  Which
of these it is shows in the two tokens behind it, and the printed field must show the same:
`Reads.type_second` says what stands behind the first token of a type.
-/
import Durable.Proofs.Grammar.Declarations
import Durable.Proofs.Print.Type

namespace Durable

open Text

variable {src rest : List Char} {c c₁ c₂ c₃ c' d : Cursor} {t : TypeDesc}

/-! ### The second token of a type -/

/-- A type is one token, which is a built-in type if it names one, or it is no built-in type and a
mark stands behind its first token. -/
inductive Second (c : Cursor) (t : TypeDesc) (c' : Cursor) : Prop
  | alone (stop : c' = c.advance)
      (named : ∀ b : BuiltinType, c.kind = .keyword b.keyword → ∃ sp, t = .builtin b sp)
  | goesOn (m : Mark) (mark : c.advance.kind = .mark m) (inside : m ≠ .semicolon ∧ m ≠ .assign)
    (other : ∀ b sp, t ≠ .builtin b sp)

theorem Second.behind {u : TypeDesc} {m : Mark} (h : Second c t c₁) (hmark : c₁.kind = .mark m)
    (hm : m ≠ .semicolon ∧ m ≠ .assign) (hu : ∀ b sp, u ≠ .builtin b sp) : Second c u c' := by
  cases h with
  | alone stop => exact .goesOn m (stop ▸ hmark) hm hu
  | goesOn m' mark inside => exact .goesOn m' mark inside hu

theorem BuiltinType.keyword_injective {b b' : BuiltinType} (h : b.keyword = b'.keyword) :
    b = b' := by
  revert b b'
  have : ∀ b ∈ all, ∀ b' ∈ all, b.keyword = b'.keyword → b = b' := by decide +kernel
  exact fun {b b'} => this b (by cases b <;> decide) b' (by cases b' <;> decide)

theorem BuiltinType.keyword_not_announces (b : BuiltinType) :
    TokenKind.announcesType b.keyword = false := by
  cases b <;> rfl

theorem ReadsName.second {r : NameRef} (h : ReadsName c r c₁) : Second c (.named r) c₁ := by
  cases h with
  | qualified hat _ _ =>
    simp only [Cursor.atQualified, Bool.and_eq_true, beq_iff_eq, Cursor.kindAt_succ] at hat
    exact .goesOn .colon hat.1.1.1 (by decide) (by simp)
  | simple _ hname => exact .alone rfl (by simp [hname])

theorem Reads.plainType_second (h : Reads .plainType c t c₁) (hc : c.kind ≠ .mark .openParen) :
    Second c t c₁ := by
  have announced : ∀ {k : Keyword}, c.kind = .keyword k → TokenKind.announcesType k = true →
      ∀ b : BuiltinType, c.kind = .keyword b.keyword → ∃ sp, t = .builtin b sp := by
    intro k hk hannounces b hb
    obtain rfl : k = b.keyword := by simpa [hk] using hb
    simp [b.keyword_not_announces] at hannounces
  cases h with
  | @builtin _ b word _ =>
    refine .alone rfl fun b' hb' => ?_
    obtain rfl : b = b' := BuiltinType.keyword_injective (by simpa [word] using hb')
    exact ⟨_, rfl⟩
  | typeName _ ref => exact ref.second
  | inferred word | anyFunction word => exact .alone rfl (announced word rfl)
  | mapType _ inner => exact .goesOn .less inner.starts (by decide) (by simp)
  | future word inner =>
    cases inner with
    | missing => exact .alone rfl (announced word rfl)
    | found _ value => exact .goesOn .less value.starts (by decide) (by simp)
  | stream _ opening => exact .goesOn .less opening (by decide) (by simp)
  | functionType _ opening => exact .goesOn .openParen opening (by decide) (by simp)
  | @record _ _ closed _ _ opening =>
    exact .goesOn _ opening (by cases closed <;> decide) (by simp)
  | singleton word =>
    refine .alone rfl fun b hb => ?_
    simp [hb, TokenKind.literal?_builtin] at word
  | nilType opening | parenType opening => exact absurd opening hc

theorem Reads.suffixing_second : ∀ {c c₁ : Cursor} {t : TypeDesc}, Reads .suffixing c t c₁ →
    c.kind ≠ .mark .openParen → Second c t c₁
  | _, _, _, .plain inner, hc => inner.plainType_second hc
  | _, _, _, .optional inner mark, hc =>
    (suffixing_second inner hc).behind mark (by decide) (by simp)
  | _, _, _, .array inner opening _, hc =>
    (suffixing_second inner hc).behind opening (by decide) (by simp)

theorem Reads.separated_second {m : Mark} {s : Sym} {as : List s.Result}
    (h : Reads (.separated m s) c as c₁) (hm : m ≠ .semicolon ∧ m ≠ .assign)
    {P : s.Result → TypeDesc} (hfirst : ∀ {a c₁}, Reads s c a c₁ → Second c (P a) c₁) :
    (∀ a, as = [a] → Second c (P a) c₁) ∧
      ∀ u, (∀ b sp, u ≠ .builtin b sp) → (∀ a, as ≠ [a]) → Second c u c₁ := by
  cases h with
  | separated first others =>
    cases others with
    | stop step =>
      obtain ⟨-, rfl⟩ := between_stop step
      refine ⟨fun a ha => ?_, fun u _ hmany => absurd rfl (hmany _)⟩
      obtain ⟨rfl, -⟩ := List.cons.inj ha
      exact hfirst first
    | more step =>
      have hmark := (between_more step).1
      exact ⟨fun a ha => by simp at ha, fun u hu _ => (hfirst first).behind hmark hm hu⟩

theorem Reads.type_second (h : Reads .type c t c₁) (hc : c.kind ≠ .mark .openParen) :
    Second c t c₁ := by
  have suffixed : ∀ {t c₁}, Reads .suffixed c t c₁ → Second c t c₁ := by
    intro t c₁ h
    cases h with
    | suffixed chain => exact chain.suffixing_second hc
  have part : ∀ {t c₁}, Reads .intersection c t c₁ → Second c t c₁ := by
    intro t c₁ h
    cases h with
    | onePart members => exact (members.separated_second (by decide) suffixed).1 _ rfl
    | intersection members =>
      exact (members.separated_second (by decide) suffixed).2 _ (by simp) (by simp)
  cases h with
  | oneMember members => exact (members.separated_second (by decide) part).1 _ rfl
  | union members => exact (members.separated_second (by decide) part).2 _ (by simp) (by simp)

/-! ### Fields -/

/-- A symbol whose text is read again whatever stands behind it. -/
def ReprintsItem (src : List Char) (x : RecordField ⊕ TypeDesc) : Prop :=
  ∀ rest, Runs src (Sym.text .recordItem x ++ rest)
    (fun d d' => ∃ x', Reads .recordItem d x' d' ∧
      Sym.erase .recordItem x' = Sym.erase .recordItem x) rest

theorem Cursor.atReadonlyMark_iff : c.atReadonlyMark = true ↔
    c.kind = .keyword .kwReadonly ∧ (∃ n, c.advance.kind.word? = some n) ∧
      c.advance.advance.kind ≠ .mark .semicolon ∧ c.advance.advance.kind ≠ .mark .assign := by
  have hsecond : c.kindAt 1 = c.advance.kind := c.kindAt_succ 0
  have hthird : c.kindAt 2 = c.advance.advance.kind := by
    rw [c.kindAt_succ 1, c.advance.kindAt_succ 0]
    rfl
  simp only [Cursor.atReadonlyMark, hsecond, hthird]
  cases c.advance.kind <;> simp [TokenKind.word?]

/-- How the printer writes the default of a field, with the semicolon. -/
def defaultText (default : Option Expr) (rest : List Char) : List Char :=
  default.elim [] (fun e => ' ' :: '=' :: ' ' :: Sym.text .expr e) ++ ';' :: rest

theorem runs_default {default : Option Expr}
    (value : ∀ e ∈ default, ∃ c, Reprints src .expr c e (·.kind = .mark .semicolon)) :
    Clear (defaultText default rest) ∧ Runs src (defaultText default rest)
      (fun d d' => (d.kind = .mark .assign ∨ d.kind = .mark .semicolon) ∧
        ∃ e' d₁, Reads (.behind (.mark .assign) .expr) d e' d₁ ∧ d₁.kind = .mark .semicolon ∧
          d' = d₁.advance ∧ e'.map Expr.erase = default.map Expr.erase) rest := by
  have hsemi : Runs src (Mark.semicolon.text.toList ++ rest) _ rest := .close .semicolon rfl
  cases default with
  | none =>
    refine ⟨.cons (x := ';') (by decide) rest, hsemi.imp ?_⟩
    rintro d d' ⟨hsign, rfl⟩
    exact ⟨.inr hsign, none, d, .absent (by simp [hsign]), hsign, rfl, rfl⟩
  | some e =>
    obtain ⟨c, he⟩ := value e rfl
    have hvalue := he.runs (.mark (m := .semicolon) (by decide) rest)
      fun _ hd => hsemi.kind_eq (fun _ _ h => h.1) hd
    refine ⟨.cons (x := ' ') (by decide) _, (((Runs.mark .assign (Mark.ends_cons (x := ' ')
      (by decide) _)).seq (hvalue.space.seq hsemi)).space.imp ?_).congr
        (by simp [defaultText, Mark.text])⟩
    rintro d d' ⟨_, ⟨hsign, rfl⟩, d₁, ⟨-, e', hread, he'⟩, hclose, rfl⟩
    exact ⟨.inl hsign, some e', d₁, .present hsign hread, hclose, rfl, congrArg some he'⟩

/-- From the name of a field to its semicolon. -/
theorem runs_fieldEnd {k : TokenKind} {n : String} (optional : Bool) {default : Option Expr}
    (hk : k.Plain) (name : k.word? = some n)
    (value : ∀ e ∈ default, ∃ c, Reprints src .expr c e (·.kind = .mark .semicolon)) :
    Runs src (n.toList ++ ((if optional then ['?'] else []) ++ defaultText default rest))
      (fun d d' => d.kind = k ∧ (d.advance.kind == .mark .question) = optional ∧
        (optional = false → d.advance.kind = .mark .assign ∨ d.advance.kind = .mark .semicolon) ∧
        ∃ e' d₁, Reads (.behind (.mark .assign) .expr) (d.advance.pass (.mark .question)) e' d₁ ∧
          d₁.kind = .mark .semicolon ∧ d' = d₁.advance ∧
          e'.map Expr.erase = default.map Expr.erase) rest := by
  have hnotmark := TokenKind.ne_mark_of_word? name
  obtain ⟨hclear, hend⟩ : Clear (defaultText default rest) ∧ Runs src _ _ rest := runs_default value
  rw [← TokenKind.spelling_of_word? name]
  cases optional with
  | true =>
    refine (((Runs.token hk (Clear.ends (.mark (m := .question) (by decide) _) hnotmark)).seq
      ((Runs.close .question rfl).seq hend)).imp ?_).congr (by simp [Mark.text])
    rintro d d' ⟨_, ⟨hkind, rfl⟩, _, ⟨hquestion, rfl⟩, -, e', d₁, hread, hclose, rfl, he⟩
    refine ⟨hkind, by simp [hquestion], by simp, e', d₁, ?_, hclose, rfl, he⟩
    rwa [Cursor.pass, if_pos hquestion]
  | false =>
    refine (((Runs.token hk (hclear.ends hnotmark)).seq hend).imp ?_).congr (by simp)
    rintro d d' ⟨_, ⟨hkind, rfl⟩, hsign, e', d₁, hread, hclose, rfl, he⟩
    have hnot : d.advance.kind ≠ .mark .question := by rcases hsign with h | h <;> simp [h]
    refine ⟨hkind, by simp [hnot], fun _ => hsign, e', d₁, ?_, hclose, rfl, he⟩
    rwa [Cursor.pass, if_neg hnot]

/-- No field is marked by the word `readonly` that it starts with, unless that word is its whole
type and a question mark stands behind its name. -/
theorem Cursor.atReadonlyMark_eq_false {d₁ : Cursor} {t' : TypeDesc} {optional : Bool}
    (type : Reads .type d t' d₁) (ht : t'.erase = t.erase)
    (hnot : optional = true → d.kind = .keyword .kwReadonly → ∀ sp, t ≠ .builtin .readonly sp)
    (hsign : optional = false →
      d₁.advance.kind = .mark .assign ∨ d₁.advance.kind = .mark .semicolon) :
    d.atReadonlyMark = false := by
  by_contra hd
  obtain ⟨hword, ⟨m, hm⟩, hsemi, hassign⟩ := Cursor.atReadonlyMark_iff.mp (by simpa using hd)
  cases type.type_second (by simp [hword]) with
  | goesOn m' mark => simp [mark, TokenKind.word?] at hm
  | alone stop named =>
    subst stop
    obtain ⟨sp, rfl⟩ := named .readonly hword
    obtain ⟨sp', rfl⟩ : ∃ sp', t = .builtin .readonly sp' := by
      cases t <;> simp at ht
      exact ⟨_, by rw [ht]⟩
    cases optional with
    | true => exact hnot rfl hword sp' rfl
    | false => exact (hsign rfl).elim hassign hsemi

namespace ReprintsItem

variable {k : TokenKind} {n : String} {optional : Bool} {default : Option Expr} {sp sp' : Span}

theorem field_text (marked : Bool) (rest : List Char) :
    Sym.text .recordItem (.inl (.mk marked t ⟨n, sp'⟩ optional default sp)) ++ rest
      = ' ' :: ((if marked then Keyword.kwReadonly.text.toList ++ [' '] else []) ++
        (t.print.toList ++ ' ' :: (n.toList ++
          ((if optional then ['?'] else []) ++ defaultText default rest)))) := by
  cases marked <;> cases optional <;> cases default <;>
    simp [Sym.text, printRecordFields, Keyword.text, defaultText]

/-- A field that is marked by the word `readonly` in front of its type. -/
theorem marked {m : String} (hk : k.Plain) (name : k.word? = some n)
    (word : c.kind.word? = some m) (htype : Reprints src .type c t (·.kind = k))
    (value : ∀ e ∈ default, ∃ c, Reprints src .expr c e (·.kind = .mark .semicolon)) :
    ReprintsItem src (.inl (.mk true t ⟨n, sp'⟩ optional default sp)) := by
  intro rest
  have hend : Runs src _ _ rest := runs_fieldEnd optional hk name value
  have htypes := htype.runs (.cons (x := ' ') (by decide) _)
    fun _ hd => hend.space.kind_eq (fun _ _ h => h.1) hd
  have hname := TokenKind.ne_mark_of_word? name
  refine (((Runs.keyword .kwReadonly (headFails_cons.mpr rfl)).space.seq
    (htypes.space.seq hend.space)).imp ?_).congr (by rw [field_text]; simp [Sym.text])
  rintro d d' ⟨_, ⟨hd, rfl⟩, d₁, ⟨hd₁, t', type, ht⟩, rfl, hquestion, -, e', d₂, hread, hclose,
    rfl, he⟩
  have hmarked : d.atReadonlyMark = true := by
    refine Cursor.atReadonlyMark_iff.mpr ⟨hd, ⟨m, hd₁ ▸ word⟩, ?_⟩
    cases type.type_second (hd₁ ▸ TokenKind.ne_mark_of_word? word _) with
    | alone stop => exact ⟨stop ▸ hname _, stop ▸ hname _⟩
    | goesOn m' mark inside => simpa [mark] using inside
  refine ⟨_, .recordField (n := n) (by rw [if_pos hmarked]; exact type) (hname _) name hread
    hclose, ?_⟩
  have ht : t'.erase = t.erase := ht
  simp [Sym.erase, Ident.erase, hmarked, hquestion, ht, he]

/-- A field that is not marked; if it is optional, its type is not the word `readonly`. -/
theorem unmarked (hk : k.Plain) (name : k.word? = some n)
    (htype : Reprints src .type c t (·.kind = k))
    (hnot : optional = true → c.kind = .keyword .kwReadonly → ∀ sp, t ≠ .builtin .readonly sp)
    (value : ∀ e ∈ default, ∃ c, Reprints src .expr c e (·.kind = .mark .semicolon)) :
    ReprintsItem src (.inl (.mk false t ⟨n, sp'⟩ optional default sp)) := by
  intro rest
  have hend : Runs src _ _ rest := runs_fieldEnd optional hk name value
  have htypes := htype.runs (.cons (x := ' ') (by decide) _)
    fun _ hd => hend.space.kind_eq (fun _ _ h => h.1) hd
  refine ((htypes.space.seq hend.space).imp ?_).congr (by rw [field_text]; simp [Sym.text])
  rintro d d' ⟨d₁, ⟨hd, t', type, ht⟩, rfl, hquestion, hsign, e', d₂, hread, hclose, rfl, he⟩
  have hunmarked : d.atReadonlyMark = false :=
    Cursor.atReadonlyMark_eq_false type ht (hd ▸ hnot) hsign
  refine ⟨_, .recordField (n := n) (by rw [if_neg (by simp [hunmarked])]; exact type)
    (TokenKind.ne_mark_of_word? name _) name hread hclose, ?_⟩
  have ht : t'.erase = t.erase := ht
  simp [Sym.erase, Ident.erase, hunmarked, hquestion, ht, he]

/-- A field is read again as it was read. -/
theorem field (hp : c₁.Plain)
    (type : Reads .type (if c.atReadonlyMark then c.advance else c) t c₁)
    (htype : Reprints src .type (if c.atReadonlyMark then c.advance else c) t c₁.Follows)
    (name : c₁.kind.word? = some n)
    (value : ∀ e ∈ default, ∃ c, Reprints src .expr c e (·.kind = .mark .semicolon)) :
    ReprintsItem src (.inl (.mk c.atReadonlyMark t ⟨n, c₁.span⟩
      (c₁.advance.kind == .mark .question) default sp)) := by
  have hword : c₁.kind.Plain := hp.kind (TokenKind.ne_endOfFile_of_word? name)
  have hstop : ∀ d : Cursor, d.kind = c₁.kind → c₁.Follows d := fun d hd =>
    .of_kind hd (hd ▸ TokenKind.ne_mark_of_word? name _)
  cases hmarked : c.atReadonlyMark with
  | true =>
    simp only [hmarked, if_true] at htype
    obtain ⟨-, ⟨m, hm⟩, -⟩ := Cursor.atReadonlyMark_iff.mp hmarked
    exact .marked hword name hm (htype.mono hstop) value
  | false =>
    simp only [hmarked, Bool.false_eq_true, if_false] at type htype
    refine .unmarked hword name (htype.mono hstop) ?_ value
    rintro hquestion hkind sp rfl
    simp only [beq_iff_eq] at hquestion
    cases type.type_second (by simp [hkind]) with
    | goesOn _ _ _ other => exact other _ _ rfl
    | alone stop =>
      subst stop
      have : c.atReadonlyMark = true := Cursor.atReadonlyMark_iff.mpr
        ⟨hkind, ⟨n, name⟩, by simp [hquestion], by simp [hquestion]⟩
      simp [hmarked] at this

end ReprintsItem

theorem ReprintsItem.unlisted
    (htype : Reprints src .type (if c.atReadonlyMark then c.advance else c) t c₁.Follows)
    (dots : c₁.kind = .mark .ellipsis) : ReprintsItem src (.inr t) := by
  intro rest
  have hend : Runs src _ _ rest := (Runs.close .ellipsis rfl).seq (.close .semicolon rfl)
  have htypes := htype.runs (.ellipsis _)
    (hend.follows (Runs.seq_kind fun _ _ h => h.1) dots (by simp))
  refine ((htypes.space.seq hend).imp ?_).congr (by simp [Sym.text, Mark.text])
  rintro d d' ⟨d₁, ⟨-, t', type', ht⟩, _, ⟨hk₁, rfl⟩, hk₂, rfl⟩
  have hd : d.atReadonlyMark = false := by
    by_contra hd
    obtain ⟨hword, ⟨m, hm⟩, -⟩ := Cursor.atReadonlyMark_iff.mp (by simpa using hd)
    cases type'.type_second (by simp [hword]) with
    | alone stop => simp [← stop, hk₁, TokenKind.word?] at hm
    | goesOn m' mark => simp [mark, TokenKind.word?] at hm
  exact ⟨_, .recordRest (by rw [if_neg (by simp [hd])]; exact type') hk₁ hk₂,
    congrArg Sum.inr ht⟩

/-- The fields of a record and its end. -/
theorem runs_items (closed : Bool) {items : List (RecordField ⊕ TypeDesc)}
    (h : ∀ x ∈ items, ReprintsItem src x) (rest : List Char) :
    Runs src (items.flatMap (Sym.text .recordItem) ++
        ' ' :: ((recordClose closed).text.toList ++ rest))
      (fun d d' => ∃ items', Reads (.many (.upTo (recordClose closed)) .recordItem) d items' d' ∧
        items'.map (Sym.erase .recordItem) = items.map (Sym.erase .recordItem)) rest := by
  induction items with
  | nil =>
    refine (Runs.close _ (by cases closed <;> rfl)).space.imp ?_
    rintro d d' ⟨hk, rfl⟩
    exact ⟨[], .stop (by simp [Gap.step, hk]), rfl⟩
  | cons x items ih =>
    refine (((h x (by simp) _).seq (ih fun y hy => h y (by simp [hy]))).imp ?_).congr (by simp)
    rintro d d' ⟨d₁, ⟨x', hread, hx⟩, items', hmany, hitems⟩
    refine ⟨x' :: items', .more ?_ hread hmany, by simp [hx, hitems]⟩
    have hstarts : d.kind.startsType = true := hread.starts
    have : d.kind ≠ .mark (recordClose closed) := by
      intro heq
      rw [heq] at hstarts
      cases closed <;> exact absurd hstarts (by decide)
    simp [Gap.step, this]

/-! ### Record types -/

/-- The items of a record type in the order in which they are printed. -/
def itemList (fields : List RecordField) (unlisted : Option TypeDesc) :
    List (RecordField ⊕ TypeDesc) :=
  fields.map .inl ++ unlisted.toList.map .inr

@[simp] theorem listedFields_itemList (fs : List RecordField) (t : Option TypeDesc) :
    listedFields (itemList fs t) = fs := by
  cases t <;> simp [itemList, listedFields, List.filterMap_map]

@[simp] theorem unlistedFields_itemList (fs : List RecordField) (t : Option TypeDesc) :
    unlistedFields (itemList fs t) = t := by
  cases t <;> simp [itemList, unlistedFields, List.filterMap_map]

theorem listedFields_map (items : List (RecordField ⊕ TypeDesc)) :
    listedFields (items.map (Sym.erase .recordItem))
      = (listedFields items).map RecordField.erase := by
  simp only [listedFields, List.filterMap_map, List.map_filterMap]
  refine List.filterMap_congr fun x _ => ?_
  cases x <;> rfl

theorem unlistedFields_map (items : List (RecordField ⊕ TypeDesc)) :
    unlistedFields (items.map (Sym.erase .recordItem))
      = (unlistedFields items).map TypeDesc.erase := by
  simp only [unlistedFields, List.filterMap_map, ← List.getLast?_map, List.map_filterMap]
  congr 1
  refine List.filterMap_congr fun x _ => ?_
  cases x <;> rfl

theorem mem_of_mem_itemList {items : List (RecordField ⊕ TypeDesc)} :
    ∀ x ∈ itemList (listedFields items) (unlistedFields items), x ∈ items := by
  intro x hx
  rcases List.mem_append.mp hx with hx | hx
  · obtain ⟨f, hf, rfl⟩ := List.mem_map.mp hx
    exact mem_of_mem_listedFields hf
  · obtain ⟨t, ht, rfl⟩ := List.mem_map.mp hx
    exact mem_of_unlistedFields (Option.mem_toList.mp ht)

theorem printRecordFields_eq (fs : List RecordField) :
    (printRecordFields fs).toList = fs.flatMap fun f => (printRecordFields [f]).toList := by
  induction fs with
  | nil => rfl
  | cons f fs ih => rw [printRecordFields_cons, String.toList_append, ih, List.flatMap_cons]

theorem print_record (closed : Bool) (fields : List RecordField) (unlisted : Option TypeDesc)
    (sp : Span) : (TypeDesc.record closed fields unlisted sp).print.toList
      = Keyword.kwRecord.text.toList ++ ' ' :: ((recordOpen closed).text.toList ++
        ((itemList fields unlisted).flatMap (Sym.text .recordItem) ++
          ' ' :: (recordClose closed).text.toList)) := by
  have hfields := printRecordFields_eq fields
  cases closed <;> cases unlisted <;>
    simp [TypeDesc.print, Keyword.text, itemList, hfields, List.flatMap_map, Sym.text, recordOpen,
      recordClose, Mark.text]

/-- Every item of a record stands behind a blank. -/
theorem items_blank (items : List (RecordField ⊕ TypeDesc)) (more : List Char) :
    ∃ more', items.flatMap (Sym.text .recordItem) ++ ' ' :: more = ' ' :: more' := by
  cases items with
  | nil => exact ⟨more, rfl⟩
  | cons x items =>
    cases x with
    | inl f =>
      obtain ⟨b, t, n, o, e, sp⟩ := f
      cases e <;> simp [Sym.text, printRecordFields]
    | inr t => simp [Sym.text]

theorem Reprints.record {closed : Bool} {items : List (RecordField ⊕ TypeDesc)} {sp : Span}
    {stop : Cursor → Prop} (hc : c.kind = .keyword .kwRecord)
    (list : ∀ x ∈ items, ReprintsItem src x) :
    Reprints src .plainType c (.record closed (listedFields items) (unlistedFields items) sp)
      stop where
  opens := (Opens.keyword .kwRecord []).extend (by simp [Sym.text, print_record])
  runs rest hclear hstop := by
    have hlist := runs_items closed
      (fun x hx => list x (mem_of_mem_itemList x hx)) rest
    obtain ⟨more, hmore⟩ := items_blank (itemList (listedFields items) (unlistedFields items))
      ((recordClose closed).text.toList ++ rest)
    have hopen := Mark.ends_cons (m := recordOpen closed) (x := ' ')
      (by cases closed <;> decide) more
    refine (((Runs.keyword .kwRecord (headFails_cons.mpr rfl)).seq
      ((Runs.mark _ (hmore ▸ hopen)).space.seq hlist)).imp ?_).congr
      (by simp [Sym.text, print_record])
    rintro d d' ⟨_, ⟨hk, rfl⟩, _, ⟨hk₁, rfl⟩, items', hmany, hitems⟩
    refine ⟨hk.trans hc.symm, _, .record hk hk₁ hmany, ?_⟩
    have hlisted := (listedFields_map items').symm.trans ((congrArg listedFields hitems).trans
      (listedFields_map _))
    have hunlisted := (unlistedFields_map items').symm.trans
      ((congrArg unlistedFields hitems).trans (unlistedFields_map _))
    simp_all [Sym.erase]

/-! ### Types in front of a parenthesis -/

/-- A name with question marks and brackets is read again whatever stands behind it. -/
theorem Reads.suffixing_reprints : ∀ {c c₁ : Cursor} {t : TypeDesc}, Reads .suffixing c t c₁ →
    c.Plain → c.kind.isIdent = true → Reprints src .suffixing c t fun _ => True
  | _, _, _, .plain inner, hp, hc => by
    refine .plain ?_
    cases inner with
    | typeName hat ref => exact .typeName hp hat ref
    | builtin word | inferred word | mapType word | future word | stream word
    | anyFunction word | functionType word | record word | nilType word | parenType word =>
      simp [word, TokenKind.isIdent] at hc
    | singleton word =>
      cases hk : ‹Cursor›.kind <;> simp_all [TokenKind.isIdent, TokenKind.literal?]
  | _, _, _, .optional inner mark, hp, hc =>
    .optional ((suffixing_reprints inner hp hc).mono fun _ _ => trivial) mark
  | _, _, _, .array inner opening closing, hp, hc =>
    .array ((suffixing_reprints inner hp hc).mono fun _ _ => trivial) opening closing

/-- The type of an object that is constructed is read again in front of the parenthesis of its
arguments. -/
theorem Reads.suffixed_reprints (h : Reads .suffixed c t c₁) (hp : c.Plain)
    (hc : c.kind.isIdent = true) :
    Reprints src .suffixed c t (·.kind = .mark .openParen) := by
  cases h with
  | suffixed chain =>
    have hchain : Reprints src .suffixing c t _ := suffixing_reprints chain hp hc
    refine ⟨hchain.opens, fun rest hclear hstop => ?_⟩
    refine (hchain.runs hclear fun _ _ => trivial).before.imp ?_
    rintro d d' ⟨⟨hk, t', hread, ht⟩, hd'⟩
    have hparen := hstop d' hd'
    exact ⟨hk, t', .suffixed hread ⟨by simp [hparen], by simp [hparen]⟩, ht⟩

end Durable
