/-
Names behind an apostrophe in printed modules.

Behind an apostrophe any letters, digits and underscores are a name, a reserved word too, and the
name does not keep the apostrophe.  The printer writes names as they are.  So where every name of a
text would be one without its apostrophe, what is printed is read as the same module, names included.
The side condition is no decoration: a variable with the name of a reserved word is printed as
something that is no module.
-/
import Durable.Proofs.Print.Module

namespace Durable

open Text

/-- A name that can stand without an apostrophe: it starts as a word does and is no word of the
language. -/
def isPlainName (n : String) : Bool :=
  n.toList.head?.any isWordStart && (Keyword.ofText? n).isNone

/-- Every name in a text, behind an apostrophe or not, can stand without one. -/
def namesPlainly (text : String) : Bool :=
  (tokenize text).toOption.all fun tokens => tokens.all fun t =>
    match t.kind with
    | .ident n => isPlainName n
    | _ => true

theorem TokenKind.plain_ident {cs : List Char} (hword : ∀ d ∈ cs, isWordChar d = true)
    (h : isPlainName (String.ofList cs) = true) : (ident (String.ofList cs)).Plain := by
  rw [isPlainName, String.toList_ofList, Bool.and_eq_true, Option.any_eq_true] at h
  obtain ⟨⟨ch, hhead, hstart⟩, hother⟩ := h
  obtain ⟨more, rfl⟩ := List.head?_eq_some_iff.mp hhead
  have hkind : Lexer.classifyWord (ch :: more) = .ident (String.ofList (ch :: more)) := by
    rw [Lexer.classifyWord, Option.isNone_iff_eq_none.mp hother]
  have hspells := Spells.word hstart hword
  rw [hkind] at hspells
  simpa [TokenKind.Plain] using hspells

theorem Cursor.plain_of_namesPlainly {text : String} {ts : List Tile} {tail : List Char}
    (finish : Nat) (h : Tiling text.toList ts tail) (hnames : namesPlainly text = true) :
    (ofTiles ts finish).Plain := by
  intro t ht
  have hall := tokenize_eq_ok_iff.mpr ⟨ts, tail, h, rfl⟩
  rw [namesPlainly, hall] at hnames
  have hname := List.all_eq_true.mp hnames t (List.mem_append_left _ ht)
  obtain ⟨front, u, more, -, hu, rfl⟩ := h.token_of_mem ht
  obtain hplain | ⟨cs, -, hkind, hword⟩ := hu.spells.plain_or_quoted
  · exact hplain
  · simp only [hkind] at hname ⊢
    exact TokenKind.plain_ident hword hname

/-- **Names behind an apostrophe come back** if they can stand without it: what is printed of a
module whose names all can is read as the same module, up to places. -/
theorem parseModule_print_names {text : String} {m : Module} (h : parseModule text = .ok m)
    (hnames : namesPlainly text = true) : ∃ m', parseModule m.print = .ok m' ∧ m'.erase = m.erase := by
  obtain ⟨ts, tail, c', htiling, hread⟩ := reads_of_parseModule h
  have hruns : Runs (Source.mk "" m.print).text.toList _ _ [] := hread.runs
    (Cursor.plain_of_namesPlainly _ htiling hnames) (Cursor.standsIn_ofTiles _ htiling)
  obtain ⟨ts', tail', htiling'⟩ := hruns.tiles ⟨[], [], .finish rfl⟩
  obtain ⟨d', ⟨m', hread', hm⟩, -⟩ := hruns.run
    (d := Cursor.ofTiles ts' (byteLength m.print.toList))
    ⟨[], [], ts', tail', rfl, by simp, htiling', rfl, rfl⟩
  exact ⟨m', parseModule_of_reads htiling' hread', hm⟩

/-- A variable and a function whose names are quoted without need. -/
def needlesslyQuoted : String :=
  "int 'kind = 1;\nfunction 'next() returns int \x7b return 'kind + 1; \x7d\n"

theorem needlesslyQuoted_print : ∃ m m', parseModule needlesslyQuoted = .ok m ∧
    quotesName needlesslyQuoted = true ∧ parseModule m.print = .ok m' ∧ m'.erase = m.erase := by
  have hreads : (parseModule needlesslyQuoted).toOption.isSome = true := by decide +kernel
  have hquotes : quotesName needlesslyQuoted = true := by decide +kernel
  have hnames : namesPlainly needlesslyQuoted = true := by decide +kernel
  cases hread : parseModule needlesslyQuoted with
  | error fault => simp [hread, Except.toOption] at hreads
  | ok m =>
    obtain ⟨m', hread', hm⟩ := parseModule_print_names hread hnames
    exact ⟨m, m', rfl, hquotes, hread', hm⟩

/-- The name of a variable is a reserved word behind an apostrophe; without it nothing is declared. -/
theorem not_all_quoted_print : ¬ ∀ text m, quotesName text = true → parseModule text = .ok m →
    ∃ m', parseModule m.print = .ok m' ∧ m'.erase = m.erase := by
  intro h
  have hquotes : quotesName "int 'type = 1;" = true := by decide +kernel
  have hfails : ((parseModule "int 'type = 1;").toOption.any fun m =>
      (parseModule m.print).toOption.isNone) = true := by decide +kernel
  cases hread : parseModule "int 'type = 1;" with
  | error fault => simp [hread, Except.toOption] at hfails
  | ok m =>
    obtain ⟨m', hread', -⟩ := h _ m hquotes hread
    simp [hread, hread', Except.toOption] at hfails

end Durable
