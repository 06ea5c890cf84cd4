/-
Printed paths are read again.

The paths of services and resource methods are kept as they were written, with their blanks and
comments, so their tokens need not be spelled as the printer spells them.  Which tokens a path has
only matters by kind: `Passes` says what the kinds are.  A path ends where a token ended, and the
printer goes on with a blank or a parenthesis, so all of its tokens stay what they were.
-/
import Durable.Proofs.Token.Cut
import Durable.Proofs.Print.Walk

namespace Durable

open Text

variable {c c' : Cursor} {ks : List TokenKind}

/-! ### The tokens of a path -/

/-- From a cursor to another one passes over tokens of some kinds. -/
inductive Passes : Cursor → List TokenKind → Cursor → Prop
  | stop {c : Cursor} : Passes c [] c
  | pass {c c' : Cursor} {k : TokenKind} {ks : List TokenKind} (kind : c.kind = k)
      (inside : k ≠ .endOfFile) (more : Passes c.advance ks c') : Passes c (k :: ks) c'

/-- Only the kinds of its tokens make a resource path one. -/
theorem PassesPath.passes {depth : Nat} (h : PassesPath depth c c') : ∃ ks, Passes c ks c' ∧
    c'.kind = .mark .openParen ∧
    ∀ d d', Passes d ks d' → d'.kind = .mark .openParen → PassesPath depth d d' := by
  induction h with
  | stop opening =>
    refine ⟨[], .stop, opening, fun d d' hd hopen => ?_⟩
    cases hd
    exact .stop hopen
  | pass inside open' _ ih =>
    obtain ⟨ks, hks, hopen, hsame⟩ := ih
    refine ⟨_ :: ks, .pass rfl open' hks, hopen, fun d d' hd hopen => ?_⟩
    cases hd with
    | pass kind _ more => exact .pass (kind ▸ inside) (kind ▸ open') (kind ▸ hsame _ _ more hopen)

/-- Only the kinds of its tokens make a service's path one. -/
theorem PassesBase.passes (h : PassesBase c c') : ∃ ks, Passes c ks c' ∧
    c'.kind = .keyword .kwOn ∧
    ∀ d d', Passes d ks d' → d'.kind = .keyword .kwOn → PassesBase d d' := by
  induction h with
  | stop word =>
    refine ⟨[], .stop, word, fun d d' hd hword => ?_⟩
    cases hd
    exact .stop hword
  | pass other open' _ ih =>
    obtain ⟨ks, hks, hword, hsame⟩ := ih
    refine ⟨_ :: ks, .pass rfl open' hks, hword, fun d d' hd hword => ?_⟩
    cases hd with
    | pass kind _ more => exact .pass (kind ▸ other) (kind ▸ open') (hsame _ _ more hword)

/-! ### The text of a path -/

/-- Tokens in a text, with the blanks before each, are passed again in front of another text.  The
text may also be cut behind a gap that follows them. -/
theorem Passes.runs {cs : List Char} (h : Passes c ks c') (hc : c.StandsIn cs)
    (hend : c'.kind ≠ .endOfFile) : ∃ front p rest, cs = front ++ (p ++ rest) ∧
      c.passed = byteLength front ∧ c'.passed = byteLength (front ++ p) ∧ rest ≠ [] ∧
      (∀ ch, p = [ch] → isWordStart ch = true → HeadFails isWordChar rest) ∧
      ∀ gap r : List Char, rest = gap ++ r → r ≠ [] → (∀ ch, gap = [ch] → isWordStart ch = false) →
        ∀ (src : List Char) {x : Char} (more : List Char), cuts x = true →
          Runs src (p ++ (gap ++ x :: more)) (fun d d' => Passes d ks d' ∧ (p = [] ∧ d' = d ∨
            d'.passed + byteLength (gap ++ x :: more) = byteLength src)) (gap ++ x :: more) := by
  induction h with
  | stop =>
    obtain ⟨front, t, rest, hcs, hpassed, ht, -⟩ := hc.token hend
    obtain ⟨ch, others, htext, -⟩ := ht.scan
    refine ⟨front, [], t.blank ++ t.text ++ rest, by simpa using hcs, hpassed,
      by simpa using hpassed, by simp [htext], by simp, fun _ _ _ _ _ src x more _ => ?_⟩
    refine Runs.here.imp ?_
    rintro d d' rfl
    exact ⟨.stop, .inl ⟨rfl, rfl⟩⟩
  | @pass c c' k ks kind inside _ ih =>
    obtain ⟨front, t, rest, hcs, hpassed, ht, htkind, -, hadvance⟩ := hc.token (kind ▸ inside)
    obtain ⟨front', p, rest', hcs', hpassed', hstop, hne, hword, hruns⟩ := ih hc.advance hend
    obtain ⟨rfl, rfl⟩ := append_inj_of_byteLength (hcs.symm.trans hcs')
      (hadvance.symm.trans hpassed')
    refine ⟨front, t.blank ++ (t.text ++ p), rest', by rw [hcs]; simp, hpassed,
      by rw [hstop]; simp, hne, fun ch hch hstart => ?_,
      fun gap r hgap hr hblank src x more hx => ?_⟩
    · -- The path is one word, which ended in front of the rest of the text.
      obtain ⟨_, _, -, hscan⟩ := ht.scan
      have hpos := List.length_pos_iff.mpr (Lexer.scanToken_append (hscan 0)).2
      have hlen := congrArg List.length hch
      simp only [List.length_append, List.length_singleton] at hlen hpos
      obtain rfl : p = [] := List.eq_nil_of_length_eq_zero (by omega)
      have hblank : t.blank = [] := List.eq_nil_of_length_eq_zero (by omega)
      exact ht.headFails (by simpa [hblank] using hch) hstart
    · subst hgap
      rw [← List.append_assoc p] at ht
      have hword' : ∀ ch, p ++ gap = [ch] → isWordStart ch = true → HeadFails isWordChar r := by
        -- What stands in front of the cut is the last of the tokens, for a gap is no word.
        intro ch hch hstart
        rcases List.append_eq_singleton_iff.mp hch with ⟨-, hgap⟩ | ⟨hp, rfl⟩
        · rw [hblank ch hgap] at hstart
          contradiction
        · exact hword ch hp hstart
      have hcut : t.Starts _ (p ++ gap ++ x :: more) := ht.cut hx hr hword'
      rw [List.append_assoc] at hcut
      refine (((Runs.tile hcut).seq (hruns gap r rfl hr hblank src more hx)).imp ?_).congr (by simp)
      rintro d d' ⟨_, ⟨hk, rfl, -, hd⟩, hpasses, hd'⟩
      refine ⟨.pass (hk.trans (htkind.symm.trans kind)) inside hpasses, .inr ?_⟩
      rcases hd' with ⟨rfl, rfl⟩ | hd'
      · exact hd
      · exact hd'

/-- A piece of a text that is kept as it is: it stands between two offsets, and in front of a blank
or a parenthesis of another text the same kinds of tokens are passed and the same piece is kept. -/
structure Kept (cs : List Char) (start stop : Nat) (ks : List TokenKind) (p : String) : Prop where
  slice : ∀ source : Source, source.text.toList = cs → source.slice ⟨start, stop⟩ = p
  runs : ∀ (source : Source) {x : Char} (more : List Char), cuts x = true →
    Runs source.text.toList (p.toList ++ x :: more) (fun d d' => d.Tiled ∧ Passes d ks d' ∧
      d.start < d'.passed ∧ source.slice ⟨d.start, d'.passed⟩ = p) (x :: more)

/-- The text of tokens, without the blanks before the first one, may be kept. -/
theorem Passes.kept {cs : List Char} {k : TokenKind} (h : Passes c (k :: ks) c')
    (hc : c.StandsIn cs) (hend : c'.kind ≠ .endOfFile) :
    ∃ p, Kept cs c.start c'.passed (k :: ks) p := by
  cases h with
  | pass kind inside more =>
    obtain ⟨front, t, rest, hcs, -, ht, htkind, hspan, hadvance⟩ := hc.token (kind ▸ inside)
    obtain ⟨front', p, rest', hcs', hpassed', hstop, hne, hword, hruns⟩ := more.runs hc.advance hend
    obtain ⟨rfl, rfl⟩ := append_inj_of_byteLength (hcs.symm.trans hcs')
      (hadvance.symm.trans hpassed')
    have hstart : c.start = byteLength (front ++ t.blank) := congrArg Span.start hspan
    obtain ⟨_, _, -, hscan⟩ := ht.scan
    have hpos : 0 < byteLength t.text := byteLength_pos (Lexer.scanToken_append (hscan 0)).2
    refine ⟨String.ofList (t.text ++ p), fun source hsource => ?_, fun source x more hx => ?_⟩
    · have hcut : source.text.toList = front ++ t.blank ++ (t.text ++ p) ++ rest' := by
        rw [hsource, hcs]
        simp
      have hlen : c'.passed = byteLength (front ++ t.blank) + byteLength (t.text ++ p) := by
        rw [hstop]
        simp [Nat.add_assoc]
      rw [hstart, hlen]
      exact Source.slice_append hcut
    · have hruns := hruns [] rest' rfl hne (by simp) source.text.toList more hx
      have hall := (Runs.tile (ht.cut hx hne hword).bare).seq hruns
      have htext : (String.ofList (t.text ++ p)).toList ++ x :: more
          = t.text ++ (p ++ x :: more) := by simp
      rw [htext]
      refine ⟨hall.tiles, fun d hd => ?_⟩
      obtain ⟨d', ⟨d₁, ⟨hk, rfl, hfirst, hbehind⟩, hpasses, hlast⟩, hd'⟩ := hall.run hd
      obtain ⟨ahead, gap, ts, _, hsource, -, htiling, -, hrest⟩ := hd
      refine ⟨d', ⟨⟨ts, htiling.text_ne_nil, hrest⟩,
        .pass (hk.trans (htkind.symm.trans kind)) inside hpasses, ?_⟩, hd'⟩
      have hstop : d'.passed + byteLength (x :: more) = byteLength source.text.toList := by
        rcases hlast with ⟨rfl, rfl⟩ | hlast
        · exact hbehind
        · exact hlast
      have hall := congrArg byteLength hsource
      simp only [byteLength_append] at hall hfirst hstop
      have hcut : source.text.toList = ahead ++ gap ++ (t.text ++ p) ++ x :: more := by
        rw [hsource]
        simp
      have hslice := Source.slice_append hcut
      have hstart : d.start = byteLength (ahead ++ gap) := by
        rw [byteLength_append]
        omega
      have hlen : d'.passed = byteLength (ahead ++ gap) + byteLength (t.text ++ p) := by
        simp only [byteLength_append]
        omega
      refine ⟨?_, by rwa [hstart, hlen]⟩
      simp only [byteLength_append] at hstart hlen
      omega

/-! ### Paths of services and resource methods -/

variable {source source' : Source} {path : Option String} {text rest : List Char}
  {R : Cursor → Cursor → Prop}

theorem Cursor.Before.passed_le_start {src cs : List Char} (h : c.Before src cs)
    (hc : c.kind ≠ .endOfFile) : c.passed ≤ c.start := by
  obtain ⟨_, _, ts, _, -, -, htiling, -, hrest⟩ := h
  exact (Tiled.span ⟨ts, htiling.text_ne_nil, hrest⟩ hc).1

/-- **The path of a method is read again** in front of the parameters. -/
theorem ReadsResourcePath.runs {b : Bool} (h : ReadsResourcePath source b c path c')
    (hc : c.StandsIn source.text.toList) (hrest : Runs source'.text.toList ('(' :: text) R rest)
    (hkind : ∀ d d', R d d' → d.kind = .mark .openParen) :
    Runs source'.text.toList ((path.elim [] fun p => ' ' :: p.toList) ++ '(' :: text)
      (fun d d' => ∃ d₁, ReadsResourcePath source' b d path d₁ ∧ R d₁ d') rest := by
  cases h with
  | plain => exact hrest.imp fun d d' hR => ⟨d, .plain, hR⟩
  | empty =>
    refine ⟨hrest.tiles, fun d hd => ?_⟩
    obtain ⟨d', hR, hd'⟩ := hrest.run hd
    have hopen := hkind d d' hR
    exact ⟨d', ⟨d, .empty (.stop hopen) (hd.passed_le_start (by simp [hopen])), hR⟩, hd'⟩
  | path passes long =>
    obtain ⟨ks, hpasses, hopen, hsame⟩ := passes.passes
    cases ks with
    | nil =>
      cases hpasses
      have := (hc.tiled.span (by simp [hopen])).1
      omega
    | cons k ks =>
      obtain ⟨p, hp⟩ := hpasses.kept hc (by simp [hopen])
      rw [hp.slice source rfl]
      refine (((hp.runs source' text rfl).seq hrest).space.imp ?_).congr (by simp)
      rintro d d' ⟨d₁, ⟨-, hpasses', hlong, hslice⟩, hR⟩
      refine ⟨d₁, ?_, hR⟩
      have hpath : ReadsResourcePath source' true d _ d₁ :=
        .path (hsame d d₁ hpasses' (hkind _ _ hR)) hlong
      rwa [hslice] at hpath

/-- **The path of a service is read again** in front of its word `on`. -/
theorem ReadsBasePath.runs (h : ReadsBasePath source c path c')
    (hc : c.StandsIn source.text.toList) (hon : c'.kind = .keyword .kwOn)
    (hrest : Runs source'.text.toList text R rest)
    (hkind : ∀ d d', R d d' → d.kind = .keyword .kwOn) :
    Runs source'.text.toList ((path.elim [] fun p => p.toList ++ [' ']) ++ text)
      (fun d d' => d.kind = c.kind ∧ ∃ d₁, ReadsBasePath source' d path d₁ ∧ R d₁ d') rest := by
  cases h with
  | slash opening passes =>
    obtain ⟨ks, hpasses, -, hsame⟩ := passes.passes
    cases hpasses with
    | stop => simp [hon] at opening
    | pass kind inside more =>
      obtain ⟨p, hp⟩ := (Passes.pass kind inside more).kept hc (by simp [hon])
      rw [hp.slice source rfl]
      refine (((hp.runs source' text rfl).seq hrest.space).imp ?_).congr (by simp)
      rintro d d' ⟨d₁, ⟨-, hpasses', -, hslice⟩, hR⟩
      have hk : d.kind = c.kind := by cases hpasses' with | pass kind' => exact kind'.trans kind.symm
      have hpath : ReadsBasePath source' d _ d₁ :=
        .slash (hk.trans opening) (hsame d d₁ hpasses' (hkind _ _ hR))
      rw [hslice] at hpath
      exact ⟨hk, d₁, hpath, hR⟩
  | string word =>
    obtain ⟨p, hp⟩ := (Passes.pass word (by simp) .stop).kept hc (by simp [hon])
    rw [(hc.tiled.span (by simp [word])).2.1, hp.slice source rfl]
    refine (((hp.runs source' text rfl).seq hrest.space).imp ?_).congr (by simp)
    rintro d d' ⟨d₁, ⟨htiled, hpasses', -, hslice⟩, hR⟩
    cases hpasses' with
    | pass kind inside more =>
      cases more
      have hpath : ReadsBasePath source' d _ d.advance := .string kind
      rw [(htiled.span (by simp [kind])).2.1, hslice] at hpath
      exact ⟨kind.trans word.symm, _, hpath, hR⟩
  | absent slash string =>
    refine hrest.imp fun d d' hR => ?_
    have hk := hkind d d' hR
    exact ⟨hk.trans hon.symm, d, .absent (by simp [hk]) (by simp [hk]), hR⟩

end Durable
