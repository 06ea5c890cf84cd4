/-
How tokens are spelled.

Every kind of token has a spelling, and scanning the spelling gives the kind back as long as
what follows does not lengthen it.  `Ends` says that of the text behind a word, a number, a
string or a closing mark, `Mark.Stands` of the text behind any mark.  Numbers are the delicate
case, because a point, an exponent or a suffix belongs to a number only under conditions on
the next character or two; `NumberText` says which texts are numbers, without any scanning.
-/
import Mathlib.Data.List.Find
import Mathlib.Data.List.TakeWhile
import Durable.Proofs.Token.Tiling

namespace Durable

open Durable.Text

/-! ### Runs of characters -/

namespace Text

/-- The first character of a text, if there is one, fails a test. -/
def HeadFails (p : Char → Bool) (cs : List Char) : Prop := ∀ c ∈ cs.head?, p c = false

theorem HeadFails.nil {p : Char → Bool} : HeadFails p [] := by simp [HeadFails]

theorem headFails_cons {p : Char → Bool} {c : Char} {cs : List Char} :
    HeadFails p (c :: cs) ↔ p c = false := by simp [HeadFails]

theorem takeWhile_append_run {p : Char → Bool} {run rest : List Char} (h : ∀ c ∈ run, p c = true)
    (hrest : HeadFails p rest) : (run ++ rest).takeWhile p = run := by
  rw [List.takeWhile_append_of_pos h]
  cases rest with
  | nil => simp
  | cons c cs => simp [headFails_cons.mp hrest]

theorem dropWhile_append_run {p : Char → Bool} {run rest : List Char} (h : ∀ c ∈ run, p c = true)
    (hrest : HeadFails p rest) : (run ++ rest).dropWhile p = rest := by
  rw [List.dropWhile_append_of_pos h]
  cases rest with
  | nil => simp
  | cons c cs => simp [headFails_cons.mp hrest]

theorem headFails_dropWhile (p : Char → Bool) (cs : List Char) :
    HeadFails p (cs.dropWhile p) := by
  intro c hc
  have := List.head?_dropWhile_not p cs
  rw [Option.mem_def.mp hc] at this
  simpa using this

end Text

/-! ### Numbers -/

namespace Lexer

/-- Nothing, or a point and at least one digit. -/
def IsFraction (cs : List Char) : Prop :=
  cs = [] ∨ ∃ d ds, cs = '.' :: d :: ds ∧ ∀ c ∈ d :: ds, c.isDigit = true

/-- Nothing, or a letter, perhaps a sign, and at least one digit. -/
def IsExponent (cs : List Char) : Prop :=
  cs = [] ∨ ∃ e sign d ds, cs = e :: (sign ++ d :: ds) ∧ (e = 'e' ∨ e = 'E') ∧
    (sign = [] ∨ sign = ['+'] ∨ sign = ['-']) ∧ ∀ c ∈ d :: ds, c.isDigit = true

/-- Nothing, or the letter of a decimal or floating number. -/
def IsSuffix (cs : List Char) : Prop :=
  cs = [] ∨ cs = ['d'] ∨ cs = ['D'] ∨ cs = ['f'] ∨ cs = ['F']

/-- The texts that are numbers; the flag says whether one is a floating number. -/
inductive NumberText : List Char → Bool → Prop
  | hex {letter : Char} {digits : List Char} (hletter : letter = 'x' ∨ letter = 'X')
      (hdigits : ∀ c ∈ digits, isHexDigit c = true) : NumberText ('0' :: letter :: digits) false
  | decimal {first : Char} {whole fraction exponent suffix : List Char}
      (hwhole : ∀ c ∈ first :: whole, c.isDigit = true) (hfraction : IsFraction fraction)
      (hexponent : IsExponent exponent) (hsuffix : IsSuffix suffix) :
      NumberText (first :: (whole ++ (fraction ++ (exponent ++ suffix))))
        (!(fraction ++ (exponent ++ suffix)).isEmpty)

/-- The kind of the number with a text. -/
def numberKind (isFloat : Bool) (text : List Char) : TokenKind :=
  if isFloat then .float (String.ofList text) else .int (String.ofList text)

/-- What stands behind a number and does not lengthen it: no word goes on there, and a point there
starts no fraction. -/
structure EndsNumber (rest : List Char) : Prop where
  word : HeadFails isWordChar rest
  point : ∀ d more, rest = '.' :: d :: more → d.isDigit = false

theorem isWordChar_of_isDigit {c : Char} (h : c.isDigit = true) : isWordChar c = true := by
  simp [isWordChar, Char.isAlphanum, h]

theorem isWordChar_of_isHexDigit {c : Char} (h : isHexDigit c = true) : isWordChar c = true := by
  have halnum : c.isAlphanum = true := by
    simp only [isHexDigit, Bool.or_eq_true, Bool.and_eq_true, decide_eq_true_eq] at h
    refine Bool.or_eq_true_iff.mpr ?_
    rcases h with (h | h) | h
    · exact .inr h
    · have hend : c.val ≤ 'z'.val := UInt32.le_trans h.2 (by decide)
      exact .inl (Bool.or_eq_true_iff.mpr
        (.inr (Bool.and_eq_true_iff.mpr ⟨decide_eq_true h.1, decide_eq_true hend⟩)))
    · have hend : c.val ≤ 'Z'.val := UInt32.le_trans h.2 (by decide)
      exact .inl (Bool.or_eq_true_iff.mpr (.inl (decide_eq_true ⟨h.1, hend⟩)))
  simp [isWordChar, halnum]

theorem isWordStart_of_isDigit {c : Char} (h : c.isDigit = true) : isWordStart c = false := by
  have hbounds : 48 ≤ c.val.toNat ∧ c.val.toNat ≤ 57 := by
    simpa [Char.isDigit, UInt32.le_iff_toNat_le] using h
  have hunder : c ≠ '_' := by
    rintro rfl
    exact absurd hbounds (by decide)
  have hupper : c.isUpper = false := decide_eq_false fun hc => by
    have : 65 ≤ c.val.toNat := UInt32.le_iff_toNat_le.mp hc.1
    omega
  have hlower : c.isLower = false := by
    refine Bool.and_eq_false_iff.mpr (.inl (decide_eq_false fun hc => ?_))
    have : 97 ≤ c.val.toNat := UInt32.le_iff_toNat_le.mp hc
    omega
  have halpha : c.isAlpha = false := Bool.or_eq_false_iff.mpr ⟨hupper, hlower⟩
  simp [isWordStart, halpha, hunder]

theorem EndsNumber.digit {rest : List Char} (h : EndsNumber rest) :
    HeadFails Char.isDigit rest := by
  intro c hc
  by_contra hdigit
  have := h.word c hc
  rw [isWordChar_of_isDigit (by simpa using hdigit)] at this
  simp at this

theorem fractionLength_append {f rest : List Char} (hf : IsFraction f)
    (hdigit : HeadFails Char.isDigit rest)
    (hpoint : f = [] → ∀ d more, rest = '.' :: d :: more → d.isDigit = false) :
    fractionLength (f ++ rest) = f.length := by
  rcases hf with rfl | ⟨d, ds, rfl, hds⟩
  · have hp := hpoint rfl
    rw [List.nil_append, List.length_nil]
    unfold fractionLength
    split
    · next d more => simp [hp d more rfl]
    · rfl
  · have hd : d.isDigit = true := hds d (by simp)
    have hrun := takeWhile_append_run hds hdigit
    simp only [List.cons_append] at hrun
    simp only [List.cons_append, fractionLength, hd, if_true, hrun, List.length_cons]
    omega

theorem exponentLength_append {e rest : List Char} (he : IsExponent e)
    (hdigit : HeadFails Char.isDigit rest)
    (hletter : e = [] → HeadFails (fun c => c == 'e' || c == 'E') rest) :
    exponentLength (e ++ rest) = e.length := by
  rcases he with rfl | ⟨l, sign, d, ds, rfl, hl, hsign, hds⟩
  · have hp := hletter rfl
    cases rest with
    | nil => rfl
    | cons c cs =>
      rw [headFails_cons] at hp
      simp [exponentLength, hp]
  · have hd : d.isDigit = true := hds d (by simp)
    have hrun := takeWhile_append_run hds hdigit
    simp only [List.cons_append] at hrun
    have hplus : d ≠ '+' := fun h => by subst h; exact absurd hd (by decide)
    have hminus : d ≠ '-' := fun h => by subst h; exact absurd hd (by decide)
    rcases hsign with rfl | rfl | rfl
    · simp [exponentLength, hl, hrun, hplus, hminus]
      omega
    · simp [exponentLength, hl, hrun]
      omega
    · simp [exponentLength, hl, hrun]
      omega

theorem suffixLength_append {s rest : List Char} (hs : IsSuffix s)
    (hword : HeadFails isWordChar rest) : suffixLength (s ++ rest) = s.length := by
  have hone : ∀ c, (c = 'd' ∨ c = 'D' ∨ c = 'f' ∨ c = 'F') → suffixLength (c :: rest) = 1 := by
    intro c hc
    have hletter : (c == 'd' || c == 'D' || c == 'f' || c == 'F') = true := by
      rcases hc with rfl | rfl | rfl | rfl <;> rfl
    cases rest with
    | nil => simp [suffixLength, hletter]
    | cons d ds => simp [suffixLength, hletter, headFails_cons.mp hword]
  rcases hs with rfl | rfl | rfl | rfl | rfl
  · cases rest with
    | nil => rfl
    | cons c cs =>
      have hc := headFails_cons.mp hword
      have hnot : ∀ x, isWordChar x = true → c ≠ x := by
        intro x hx hcx
        rw [hcx, hx] at hc
        simp at hc
      simp [suffixLength, hnot 'd' (by decide), hnot 'D' (by decide), hnot 'f' (by decide),
        hnot 'F' (by decide)]
  · exact hone 'd' (by simp)
  · exact hone 'D' (by simp)
  · exact hone 'f' (by simp)
  · exact hone 'F' (by simp)

theorem isFraction_take (cs : List Char) : IsFraction (cs.take (fractionLength cs)) := by
  unfold fractionLength
  split
  · next c more =>
    split
    · next hdigit =>
      refine .inr ⟨c, more.takeWhile Char.isDigit, ?_, ?_⟩
      · have hlen : ((c :: more).takeWhile Char.isDigit).length
            = (more.takeWhile Char.isDigit).length + 1 := by simp [hdigit]
        have htake : more.take (more.takeWhile Char.isDigit).length
            = more.takeWhile Char.isDigit :=
          List.prefix_iff_eq_take.mp (List.takeWhile_prefix _) |>.symm
        rw [hlen, show 1 + ((more.takeWhile Char.isDigit).length + 1)
          = (more.takeWhile Char.isDigit).length + 1 + 1 by omega]
        simp [htake]
      · intro d hd
        rcases List.mem_cons.mp hd with rfl | hd
        · exact hdigit
        · exact List.mem_takeWhile_imp hd
    · exact .inl (by simp)
  · exact .inl (by simp)

/-- The length of the sign that a text starts with, if it does. -/
def signLength : List Char → Nat
  | s :: _ => if s == '+' || s == '-' then 1 else 0
  | [] => 0

theorem exponentLength_cons (e : Char) (cs : List Char) :
    exponentLength (e :: cs) =
      if e == 'e' || e == 'E' then
        if ((cs.drop (signLength cs)).takeWhile Char.isDigit).length = 0 then 0
        else 1 + signLength cs + ((cs.drop (signLength cs)).takeWhile Char.isDigit).length
      else 0 := by
  cases cs <;> rfl

theorem exists_sign (cs : List Char) : ∃ sign rest, cs = sign ++ rest ∧
    (sign = [] ∨ sign = ['+'] ∨ sign = ['-']) ∧ signLength cs = sign.length := by
  cases cs with
  | nil => exact ⟨[], [], rfl, .inl rfl, rfl⟩
  | cons s more =>
    by_cases hplus : s = '+'
    · exact ⟨['+'], more, by rw [hplus]; rfl, .inr (.inl rfl), by simp [signLength, hplus]⟩
    by_cases hminus : s = '-'
    · exact ⟨['-'], more, by rw [hminus]; rfl, .inr (.inr rfl), by simp [signLength, hminus]⟩
    · exact ⟨[], s :: more, rfl, .inl rfl, by simp [signLength, hplus, hminus]⟩

theorem isExponent_take (cs : List Char) : IsExponent (cs.take (exponentLength cs)) := by
  cases cs with
  | nil => exact .inl rfl
  | cons e cs =>
    rw [exponentLength_cons]
    by_cases he : (e == 'e' || e == 'E') = true
    · obtain ⟨sign, rest, rfl, hsign, hlen⟩ := exists_sign cs
      rw [if_pos he, hlen, List.drop_left]
      cases hrun : rest.takeWhile Char.isDigit with
      | nil => exact .inl (by simp)
      | cons d ds =>
        refine .inr ⟨e, sign, d, ds, ?_, by simpa using he, hsign, ?_⟩
        · have htake : rest.take (ds.length + 1) = d :: ds := by
            have := List.prefix_iff_eq_take.mp (List.takeWhile_prefix (l := rest) Char.isDigit)
            rw [hrun] at this
            exact this.symm
          rw [if_neg (by simp), List.length_cons,
            show 1 + sign.length + (ds.length + 1) = sign.length + (ds.length + 1) + 1 by omega,
            List.take_succ_cons, List.take_length_add_append, htake]
        · intro c hc
          exact List.mem_takeWhile_imp (by rw [hrun]; exact hc)
    · exact .inl (by rw [if_neg he]; rfl)

theorem isSuffix_take (cs : List Char) : IsSuffix (cs.take (suffixLength cs)) := by
  unfold suffixLength
  split
  · next c more =>
    split
    · next hletter =>
      simp only [Bool.or_eq_true, beq_iff_eq] at hletter
      cases more with
      | nil => rcases hletter with ((rfl | rfl) | rfl) | rfl <;> simp [IsSuffix]
      | cons d ds =>
        by_cases hd : isWordChar d = true
        · simp [IsSuffix, hd]
        · rcases hletter with ((rfl | rfl) | rfl) | rfl <;> simp [IsSuffix, hd]
    · simp [IsSuffix]
  · simp [IsSuffix]

/-- What the scanner takes for a number is the text of one. -/
theorem numberText_of_scan {c : Char} (cs : List Char) (h : c.isDigit = true) :
    ∃ isFloat, NumberText (scanNumber (c :: cs)).text isFloat ∧
      (scanNumber (c :: cs)).kind = numberKind isFloat (scanNumber (c :: cs)).text := by
  unfold scanNumber
  split
  · next digits heq =>
    exact ⟨false, .hex (.inl rfl) fun d hd => List.mem_takeWhile_imp hd, rfl⟩
  · next digits heq =>
    exact ⟨false, .hex (.inr rfl) fun d hd => List.mem_takeWhile_imp hd, rfl⟩
  · next hx hX =>
    obtain ⟨run, hrun⟩ : ∃ run, (c :: cs).takeWhile Char.isDigit = c :: run :=
      ⟨cs.takeWhile Char.isDigit, by simp [h]⟩
    generalize hrest : (c :: cs).dropWhile Char.isDigit = rest
    have hcs : c :: cs = (c :: run) ++ rest := by
      rw [← hrun, ← hrest, List.takeWhile_append_dropWhile]
    have hlen : ((c :: cs).takeWhile Char.isDigit).length = (c :: run).length := by rw [hrun]
    simp only [hlen]
    rw [hcs]
    simp only [← List.drop_drop, List.drop_left]
    generalize hf : fractionLength rest = f
    generalize he : exponentLength (rest.drop f) = e
    generalize hs : suffixLength ((rest.drop f).drop e) = s
    -- The text is made of the four parts.
    have htake : ((c :: run) ++ rest).take ((c :: run).length + f + e + s)
        = c :: (run ++ (rest.take f ++ ((rest.drop f).take e ++ ((rest.drop f).drop e).take s))) := by
      rw [show (c :: run).length + f + e + s = (c :: run).length + (f + (e + s)) by omega,
        List.take_length_add_append, List.take_add, List.take_add]
      rfl
    rw [htake]
    refine ⟨_, .decimal (fun d hd => ?_) (hf ▸ isFraction_take rest)
      (he ▸ isExponent_take _) (hs ▸ isSuffix_take _), ?_⟩
    · rw [← hrun] at hd
      exact List.mem_takeWhile_imp hd
    · -- Only an empty text has parts of no length that are not empty themselves.
      have hf' : rest.take f = [] ↔ f = 0 := by
        rw [List.take_eq_nil_iff]
        exact ⟨fun h => h.elim id fun h => by rw [← hf, h]; rfl, .inl⟩
      have he' : (rest.drop f).take e = [] ↔ e = 0 := by
        rw [List.take_eq_nil_iff]
        exact ⟨fun h => h.elim id fun h => by rw [← he, h]; rfl, .inl⟩
      have hs' : ((rest.drop f).drop e).take s = [] ↔ s = 0 := by
        rw [List.take_eq_nil_iff]
        exact ⟨fun h => h.elim id fun h => by rw [← hs, h]; rfl, .inl⟩
      have hwhole : (c :: run).length + f + e + s = (c :: run).length ↔
          (rest.take f ++ ((rest.drop f).take e ++ ((rest.drop f).drop e).take s)).isEmpty = true := by
        rw [List.isEmpty_iff, List.append_eq_nil_iff, List.append_eq_nil_iff, hf', he', hs']
        omega
      unfold numberKind
      by_cases hempty : (c :: run).length + f + e + s = (c :: run).length
      · rw [if_pos hempty, hwhole.mp hempty]
        rfl
      · rw [if_neg hempty, Bool.eq_false_iff.mpr (fun h => hempty (hwhole.mpr h))]
        rfl

theorem HeadFails.append {p : Char → Bool} {a b : List Char} (ha : HeadFails p a)
    (hb : a = [] → HeadFails p b) : HeadFails p (a ++ b) := by
  cases a with
  | nil => exact hb rfl
  | cons c cs => exact headFails_cons.mpr (headFails_cons.mp ha)

theorem IsFraction.head {f : List Char} (h : IsFraction f) {p : Char → Bool} (hp : p '.' = false) :
    HeadFails p f := by
  rcases h with rfl | ⟨d, ds, rfl, -⟩
  · exact .nil
  · exact headFails_cons.mpr hp

theorem IsExponent.head {e : List Char} (h : IsExponent e) {p : Char → Bool} (hp : p 'e' = false)
    (hp' : p 'E' = false) : HeadFails p e := by
  rcases h with rfl | ⟨l, sign, d, ds, rfl, rfl | rfl, -⟩
  · exact .nil
  · exact headFails_cons.mpr hp
  · exact headFails_cons.mpr hp'

theorem IsSuffix.head {s : List Char} (h : IsSuffix s) {p : Char → Bool}
    (hp : ∀ c ∈ ['d', 'D', 'f', 'F'], p c = false) : HeadFails p s := by
  rcases h with rfl | rfl | rfl | rfl | rfl
  · exact .nil
  all_goals exact headFails_cons.mpr (hp _ (by simp))

/-- The text of a number is scanned as that number. -/
theorem scanNumber_append_of_ends {text rest : List Char} {isFloat : Bool}
    (h : NumberText text isFloat) (hrest : EndsNumber rest) :
    scanNumber (text ++ rest) = ⟨numberKind isFloat text, text, rest⟩ := by
  cases h with
  | @hex letter digits hletter hdigits =>
    have hend : HeadFails isHexDigit rest := by
      intro c hc
      by_contra hhex
      have hword := isWordChar_of_isHexDigit (by simpa using hhex)
      rw [hrest.word c hc] at hword
      simp at hword
    rcases hletter with rfl | rfl <;>
      simp [scanNumber, scanNumber.hex, takeWhile_append_run hdigits hend,
        dropWhile_append_run hdigits hend, numberKind]
  | @decimal first whole fraction exponent suffix hwhole hfraction hexponent hsuffix =>
    have hends : ∀ {p : Char → Bool}, (∀ c, p c = true → isWordChar c = true) →
        HeadFails p rest := by
      intro p hp c hc
      by_contra hpc
      have := hrest.word c hc
      rw [hp c (by simpa using hpc)] at this
      simp at this
    have hdigit : HeadFails Char.isDigit rest := hrest.digit
    have hdigit₁ : HeadFails Char.isDigit (suffix ++ rest) :=
      HeadFails.append (hsuffix.head (by simp)) fun _ => hdigit
    have hdigit₂ : HeadFails Char.isDigit (exponent ++ (suffix ++ rest)) :=
      HeadFails.append (hexponent.head (by decide) (by decide)) fun _ => hdigit₁
    have hdigit₃ : HeadFails Char.isDigit (fraction ++ (exponent ++ (suffix ++ rest))) :=
      HeadFails.append (hfraction.head (by decide)) fun _ => hdigit₂
    -- The number is not in base sixteen.
    have hx : ∀ letter, letter = 'x' ∨ letter = 'X' → HeadFails (· == letter)
        (whole ++ (fraction ++ (exponent ++ (suffix ++ rest)))) := by
      intro letter hletter
      have hlast : HeadFails (· == letter) rest := hends fun c hc => by
        rw [beq_iff_eq.mp hc]
        rcases hletter with rfl | rfl <;> decide
      have hothers : ∀ c ∈ ['.', 'e', 'E', 'd', 'D', 'f', 'F'], (c == letter) = false := by
        rcases hletter with rfl | rfl <;> simp
      refine HeadFails.append ?_ fun _ =>
        HeadFails.append (hfraction.head (hothers _ (by simp))) fun _ =>
          HeadFails.append (hexponent.head (hothers _ (by simp)) (hothers _ (by simp))) fun _ =>
            HeadFails.append (hsuffix.head fun c hc => hothers c ?_) fun _ => hlast
      · intro d hd
        have hd : d.isDigit = true := hwhole d (by simp [List.mem_of_mem_head? hd])
        by_contra heq
        obtain rfl : d = letter := by simpa using heq
        rcases hletter with rfl | rfl <;> exact absurd hd (by decide)
      · simp only [List.mem_cons, List.not_mem_nil, or_false] at hc ⊢
        tauto
    have hpoint : fraction = [] → ∀ d more, exponent ++ (suffix ++ rest) = '.' :: d :: more →
        d.isDigit = false := by
      intro _ d more heq
      rcases hexponent with rfl | ⟨l, sign, d', ds, rfl, rfl | rfl, -⟩
      · rcases hsuffix with rfl | rfl | rfl | rfl | rfl
        · exact hrest.point d more heq
        all_goals simp at heq
      all_goals simp at heq
    have hletter : exponent = [] → HeadFails (fun c => c == 'e' || c == 'E') (suffix ++ rest) := by
      intro _
      refine HeadFails.append (hsuffix.head (by simp)) fun _ => hends fun c hc => ?_
      simp only [Bool.or_eq_true, beq_iff_eq] at hc
      rcases hc with rfl | rfl <;> decide
    have hrun := takeWhile_append_run hwhole hdigit₃
    have hf := fractionLength_append hfraction hdigit₂ hpoint
    have he := exponentLength_append hexponent hdigit₁ hletter
    have hs := suffixLength_append hsuffix hrest.word
    simp only [List.cons_append, List.append_assoc] at hrun ⊢
    unfold scanNumber
    split
    · next digits heq =>
      have := hx 'x' (.inl rfl)
      rw [(List.cons.inj heq).2] at this
      exact absurd (headFails_cons.mp this) (by simp)
    · next digits heq =>
      have := hx 'X' (.inr rfl)
      rw [(List.cons.inj heq).2] at this
      exact absurd (headFails_cons.mp this) (by simp)
    · rw [hrun, ← List.cons_append]
      simp only [← List.drop_drop, List.drop_left, hf, he, hs]
      have hlen : (first :: (whole ++ (fraction ++ (exponent ++ suffix)))).length
          = (first :: whole).length + fraction.length + exponent.length + suffix.length := by
        simp only [List.length_cons, List.length_append]
        omega
      have happ : first :: whole ++ (fraction ++ (exponent ++ (suffix ++ rest)))
          = first :: (whole ++ (fraction ++ (exponent ++ suffix))) ++ rest := by simp
      rw [happ, ← hlen, List.take_left, numberKind]
      by_cases hempty : fraction ++ (exponent ++ suffix) = []
      · simp [hempty]
      · have hpos : 0 < (fraction ++ (exponent ++ suffix)).length := List.length_pos_iff.mpr hempty
        rw [List.isEmpty_eq_false_iff.mpr hempty, if_neg, Bool.not_false, if_pos rfl]
        simp only [List.length_cons, List.length_append] at hpos ⊢
        omega

theorem NumberText.ne_newline {text : List Char} {isFloat : Bool} (h : NumberText text isFloat) :
    '\n' ∉ text := by
  have hdigits : ∀ {ds : List Char}, (∀ c ∈ ds, c.isDigit = true) → '\n' ∉ ds :=
    fun h hn => absurd (h _ hn) (by decide)
  cases h with
  | @hex letter digits hletter hdigits =>
    have hnot : '\n' ∉ digits := fun hn => absurd (hdigits _ hn) (by decide)
    rcases hletter with rfl | rfl <;> simp [hnot]
  | @decimal first whole fraction exponent suffix hwhole hfraction hexponent hsuffix =>
    have hf : '\n' ∉ fraction := by
      rcases hfraction with rfl | ⟨d, ds, rfl, hds⟩
      · simp
      · simpa using hdigits hds
    have he : '\n' ∉ exponent := by
      rcases hexponent with rfl | ⟨l, sign, d, ds, rfl, rfl | rfl, rfl | rfl | rfl, hds⟩
      · simp
      all_goals simpa using hdigits hds
    have hs : '\n' ∉ suffix := by
      rcases hsuffix with rfl | rfl | rfl | rfl | rfl <;> simp
    have hw := hdigits hwhole
    simp only [List.mem_cons, not_or] at hw
    simp [hw, hf, he, hs]

end Lexer

/-! ### Words, strings and marks -/

namespace Lexer

theorem scanWord_append {word rest : List Char} (hword : ∀ c ∈ word, isWordChar c = true)
    (hrest : HeadFails isWordChar rest) :
    scanWord (word ++ rest) = ⟨classifyWord word, word, rest⟩ := by
  rw [scanWord, takeWhile_append_run hword hrest, dropWhile_append_run hword hrest]

theorem scanQuoted_plain {c : Char} (hslash : c ≠ '\\') (hquote : c ≠ '"') (hline : c ≠ '\n')
    (cs : List Char) : scanQuoted (c :: cs) = (scanQuoted cs).push c [c] := by
  rw [scanQuoted]
  · exact fun h _ => hslash h
  · exact fun _ _ h _ => hslash h
  · exact hquote
  · exact hline

/-- A scan that gets through one more unit of a literal got through the rest of it. -/
theorem push_eq_closed {c : Char} {unit value read rest : List Char} {q : QuotedScan}
    (h : q.push c unit = .closed value read rest) :
    ∃ v r, q = .closed v r rest ∧ value = c :: v ∧ read = unit ++ r := by
  cases q with
  | closed v r more =>
    simp only [QuotedScan.push, QuotedScan.closed.injEq] at h
    obtain ⟨rfl, rfl, rfl⟩ := h
    exact ⟨v, r, rfl, rfl, rfl⟩
  | unterminated r => simp [QuotedScan.push] at h
  | badEscape b l => simp [QuotedScan.push] at h

/-- A literal that is scanned, unit by unit. -/
theorem scanQuoted_induction {P : List Char → List Char → Prop} (close : P [] ['"'])
    (escaped : ∀ e c value read, unescape? e = some c → P value read →
      P (c :: value) ('\\' :: e :: read))
    (plain : ∀ c value read, c ≠ '\\' → c ≠ '"' → c ≠ '\n' → P value read →
      P (c :: value) (c :: read))
    {cs value read rest : List Char} (h : scanQuoted cs = .closed value read rest) :
    P value read := by
  fun_induction scanQuoted cs generalizing value read with
  | case1 => simp at h
  | case2 => simp at h
  | case3 e cs c hc ih =>
    obtain ⟨v, r, hs, rfl, rfl⟩ := push_eq_closed h
    exact escaped e c v r hc (ih hs)
  | case4 => simp at h
  | case5 =>
    simp only [QuotedScan.closed.injEq] at h
    obtain ⟨rfl, rfl, rfl⟩ := h
    exact close
  | case6 => simp at h
  | case7 c cs hlone hslash hquote hline ih =>
    obtain ⟨v, r, hs, rfl, rfl⟩ := push_eq_closed h
    refine plain c v r (fun heq => ?_) hquote hline (ih hs)
    cases cs with
    | nil => exact hlone heq rfl
    | cons e cs => exact hslash e cs heq rfl

/-- Where a string literal ends does not depend on what follows it. -/
theorem scanQuoted_replace {cs value read rest : List Char}
    (h : scanQuoted cs = .closed value read rest) (other : List Char) :
    scanQuoted (read ++ other) = .closed value read other := by
  refine scanQuoted_induction (P := fun value read =>
    scanQuoted (read ++ other) = .closed value read other) rfl ?_ ?_ h
  · intro e c value read hc ih
    simp [scanQuoted, hc, ih, QuotedScan.push]
  · intro c value read hslash hquote hline ih
    rw [List.cons_append, scanQuoted_plain hslash hquote hline, ih]
    rfl

theorem scanQuoted_ne_newline {cs value read rest : List Char}
    (h : scanQuoted cs = .closed value read rest) : '\n' ∉ read := by
  refine scanQuoted_induction (P := fun _ read => '\n' ∉ read) (by decide) ?_ ?_ h
  · intro e c value read hc ih
    have he : '\n' ≠ e := by
      rintro rfl
      simp [unescape?] at hc
    simp [he, ih]
  · intro c value read _ _ hline ih
    simp [hline.symm, ih]

/-- The literal for a value is read as that value. -/
theorem scanQuoted_escape (value rest : List Char) :
    scanQuoted (escape value ++ '"' :: rest) = .closed value (escape value ++ ['"']) rest := by
  induction value with
  | nil => rfl
  | cons c cs ih =>
    cases hc : escapeLetter? c with
    | some e =>
      have he : unescape? e = some c := by
        unfold escapeLetter? at hc
        split at hc <;> cases hc <;> rfl
      simp [escape, hc, scanQuoted, he, ih, QuotedScan.push]
    | none =>
      have hplain : c ≠ '\\' ∧ c ≠ '"' ∧ c ≠ '\n' := by
        refine ⟨?_, ?_, ?_⟩ <;> (rintro rfl; exact absurd hc (by decide))
      simp only [escape, hc, List.cons_append]
      rw [scanQuoted_plain hplain.1 hplain.2.1 hplain.2.2, ih]
      rfl

end Lexer

namespace Mark

/-- A character that would make another token of a mark, or a comment, if it stood right behind
it. -/
def lengthens (m : Mark) (c : Char) : Bool :=
  all.any (fun longer => (m.text.toList ++ [c]).isPrefixOf longer.text.toList)
    || (m == .slash && c == '/')

theorem ofChars?_text (m : Mark) : ofChars? m.text.toList = some m := by
  cases m <;> decide

theorem ofChars?_append {m : Mark} {rest : List Char} (h : HeadFails m.lengthens rest) :
    ofChars? (m.text.toList ++ rest) = some m := by
  rw [← ofChars?_text m]
  unfold ofChars?
  refine List.find?_congr fun longer hmem => ?_
  rw [Bool.eq_iff_iff, List.isPrefixOf_iff_prefix, List.isPrefixOf_iff_prefix]
  refine ⟨fun hprefix => ?_, fun hprefix => hprefix.trans (List.prefix_append _ _)⟩
  rcases List.prefix_or_prefix_of_prefix hprefix (List.prefix_append m.text.toList rest) with
    hshort | ⟨more, hlong⟩
  · exact hshort
  · cases more with
    | nil => exact ⟨[], by simpa using hlong.symm⟩
    | cons c more =>
      -- The longer mark goes on with what follows the shorter one.
      rw [← hlong, List.prefix_append_right_inj] at hprefix
      obtain ⟨behind, rfl⟩ := hprefix
      have hc : m.lengthens c = true := by
        rw [lengthens, Bool.or_eq_true, List.any_eq_true]
        refine .inl ⟨longer, hmem, ?_⟩
        rw [List.isPrefixOf_iff_prefix]
        exact ⟨more, by rw [← hlong]; simp⟩
      rw [headFails_cons.mp h] at hc
      simp at hc

end Mark

/-! ### Spellings -/

/-- The spellings of tokens. -/
inductive Spells : TokenKind → List Char → Prop
  | word {c : Char} {cs : List Char} (start : isWordStart c = true)
      (others : ∀ d ∈ c :: cs, isWordChar d = true) : Spells (Lexer.classifyWord (c :: cs)) (c :: cs)
  | quotedName {cs : List Char} (word : ∀ d ∈ cs, isWordChar d = true) :
      Spells (.ident (String.ofList cs)) ('\x27' :: cs)
  | number {text : List Char} {isFloat : Bool} (h : Lexer.NumberText text isFloat) :
      Spells (Lexer.numberKind isFloat text) text
  | string {value read : List Char} (h : scanQuoted read = .closed value read []) :
      Spells (.string (String.ofList value)) ('"' :: read)
  | mark (m : Mark) : Spells (.mark m) m.text.toList

/-- A text that stands behind a token of a kind and does not lengthen it. -/
def TokenKind.Ends (k : TokenKind) (rest : List Char) : Prop :=
  match k with
  | .ident _ | .keyword _ => HeadFails isWordChar rest
  | .int _ | .float _ => Lexer.EndsNumber rest
  | .mark m => HeadFails m.lengthens rest
  | .string _ | .endOfFile => True

theorem Lexer.classifyWord_cases (word : List Char) :
    (∃ k, classifyWord word = .keyword k ∧ k.text = String.ofList word) ∨
      classifyWord word = .ident (String.ofList word) := by
  unfold classifyWord
  cases h : Keyword.ofText? (String.ofList word) with
  | none => exact .inr (by simp [h])
  | some k => exact .inl ⟨k, by simp [h], by simpa using List.find?_some h⟩

/-- A word of the language is spelled only one way. -/
theorem Spells.keyword {k : Keyword} {text : List Char} (h : Spells (.keyword k) text) :
    String.ofList text = k.text := by
  generalize hkind : TokenKind.keyword k = kind at h
  cases h with
  | @word c cs start others =>
    rcases Lexer.classifyWord_cases (c :: cs) with ⟨k', hk, htext⟩ | hk
    · rw [hk] at hkind
      exact (TokenKind.keyword.inj hkind) ▸ htext.symm
    · rw [hk] at hkind
      exact absurd hkind (by simp)
  | @number _ isFloat => cases isFloat <;> exact absurd hkind (by simp [Lexer.numberKind])
  | _ => exact absurd hkind (by simp)

/-- How a mark starts. -/
theorem Mark.text_head (m : Mark) : ∃ c cs, m.text.toList = c :: cs ∧ isWordStart c = false ∧
    c ≠ '\x27' ∧ c.isDigit = false ∧ c ≠ '"' ∧ isBlank c = false ∧ c ≠ '\n' := by
  cases m <;> exact ⟨_, _, rfl, by decide, by decide, by decide, by decide, by decide, by decide⟩

/-- **A spelling is scanned as its token** where what follows does not lengthen it. -/
theorem Lexer.scanToken_of_spells {k : TokenKind} {text rest : List Char} (h : Spells k text)
    (hrest : k.Ends rest) : ∃ c more, text ++ rest = c :: more ∧
      ∀ offset, scanToken offset c more = .ok ⟨k, text, rest⟩ := by
  cases h with
  | @word c cs start others =>
    refine ⟨c, cs ++ rest, rfl, fun offset => ?_⟩
    have hend : HeadFails isWordChar rest := by
      rcases classifyWord_cases (c :: cs) with ⟨k, hk, -⟩ | hk <;> rw [hk] at hrest <;> exact hrest
    rw [scanToken, if_pos start, ← List.cons_append, scanWord_append others hend]
  | @quotedName cs word =>
    refine ⟨'\x27', cs ++ rest, rfl, fun offset => ?_⟩
    rw [scanToken, if_neg (by decide), if_pos rfl, scanQuotedName, takeWhile_append_run word hrest,
      dropWhile_append_run word hrest]
  | @number text isFloat hnumber =>
    have hend : EndsNumber rest := by cases isFloat <;> exact hrest
    obtain ⟨c, more, htext, hdigit⟩ : ∃ c more, text = c :: more ∧ c.isDigit = true := by
      cases hnumber with
      | hex => exact ⟨_, _, rfl, by decide⟩
      | decimal hwhole => exact ⟨_, _, rfl, hwhole _ (by simp)⟩
    subst htext
    refine ⟨c, more ++ rest, rfl, fun offset => ?_⟩
    have hstart := isWordStart_of_isDigit hdigit
    have hmark : c ≠ '\x27' := by
      rintro rfl
      exact absurd hdigit (by decide)
    rw [scanToken, if_neg (by simp [hstart]), if_neg hmark, if_pos hdigit, ← List.cons_append,
      scanNumber_append_of_ends hnumber hend]
  | @string value read hread =>
    refine ⟨'"', read ++ rest, rfl, fun offset => ?_⟩
    rw [scanToken, if_neg (by decide), if_neg (by decide), if_neg (by decide), if_pos rfl,
      scanString, scanQuoted_replace hread rest]
  | mark m =>
    obtain ⟨c, cs, htext, hstart, hname, hdigit, hquote, -⟩ := m.text_head
    refine ⟨c, cs ++ rest, by rw [htext]; rfl, fun offset => ?_⟩
    have hmark := Mark.ofChars?_append hrest
    rw [htext, List.cons_append] at hmark
    rw [scanToken, if_neg (by simp [hstart]), if_neg hname, if_neg (by simp [hdigit]),
      if_neg hquote, hmark]
    have hlen : m.text.length = (c :: cs).length := by rw [← htext, String.length_toList]
    simp only [hlen, htext, ← List.cons_append, List.take_left, List.drop_left]

/-- What is scanned as a token is a spelling of it. -/
theorem Lexer.spells_of_scanToken {offset : Nat} {c : Char} {cs : List Char} {l : Lexeme}
    (h : scanToken offset c cs = .ok l) : Spells l.kind l.text := by
  unfold scanToken at h
  split at h
  · next hstart =>
    simp only [Except.ok.injEq] at h
    subst h
    have htake : (c :: cs).takeWhile isWordChar = c :: cs.takeWhile isWordChar := by
      simp [isWordChar_of_isWordStart hstart]
    rw [scanWord, htake]
    exact .word hstart fun d hd => List.mem_takeWhile_imp (htake ▸ hd)
  split at h
  · simp only [Except.ok.injEq] at h
    subst h
    exact .quotedName fun d hd => List.mem_takeWhile_imp hd
  split at h
  · next hdigit =>
    simp only [Except.ok.injEq] at h
    subst h
    obtain ⟨isFloat, hnumber, hkind⟩ := numberText_of_scan cs hdigit
    rw [hkind]
    exact .number hnumber
  split at h
  · obtain ⟨value, read, hscan, hkind, htext⟩ := scanString_eq_ok h
    rw [hkind, htext]
    have := scanQuoted_replace hscan []
    rw [List.append_nil] at this
    exact .string this
  split at h
  · next m hm =>
    simp only [Except.ok.injEq] at h
    subst h
    have hprefix : m.text.toList.isPrefixOf (c :: cs) = true := by
      simpa using List.find?_some hm
    obtain ⟨more, hmore⟩ := List.isPrefixOf_iff_prefix.mp hprefix
    have htake : (c :: cs).take m.text.length = m.text.toList := by
      rw [← hmore, ← String.length_toList, List.take_left]
    rw [htake]
    exact .mark m
  · simp at h

theorem Spells.text_of_mark {m : Mark} {text : List Char} (h : Spells (.mark m) text) :
    text = m.text.toList := by
  generalize hk : TokenKind.mark m = k at h
  cases h with
  | @word c cs _ _ =>
    rcases Lexer.classifyWord_cases (c :: cs) with ⟨k, hword, -⟩ | hword <;> simp [hword] at hk
  | quotedName | string => simp at hk
  | @number _ isFloat _ => cases isFloat <;> simp [Lexer.numberKind] at hk
  | mark m' =>
    obtain rfl := TokenKind.mark.inj hk
    rfl

theorem Spells.ne_endOfFile {text : List Char} : ¬ Spells .endOfFile text := by
  intro h
  generalize hk : TokenKind.endOfFile = k at h
  cases h with
  | @word c cs _ _ =>
    rcases Lexer.classifyWord_cases (c :: cs) with ⟨k, hword, -⟩ | hword <;> simp [hword] at hk
  | quotedName | string | mark => simp at hk
  | @number _ isFloat _ => cases isFloat <;> simp [Lexer.numberKind] at hk

/-- No spelling breaks a line. -/
theorem Spells.ne_newline {k : TokenKind} {text : List Char} (h : Spells k text) : '\n' ∉ text := by
  have hword : ∀ {cs : List Char}, (∀ d ∈ cs, isWordChar d = true) → '\n' ∉ cs :=
    fun h hn => absurd (h _ hn) (by decide)
  cases h with
  | word _ others => exact hword others
  | quotedName word => simpa using hword word
  | number h => exact h.ne_newline
  | string h => simpa using Lexer.scanQuoted_ne_newline h
  | mark m => cases m <;> decide

theorem Tile.Starts.spells {t : Tile} {cs rest : List Char} (h : t.Starts cs rest) :
    Spells t.kind t.text := by
  obtain ⟨c, more, -, hscan⟩ := h.scan
  exact Lexer.spells_of_scanToken (hscan 0)

end Durable
