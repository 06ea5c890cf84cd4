/-
Edits made in one pass.

`applyAll` sorts edits and makes them one after another on a text that changes under them.  `atOnce`
does neither: it goes through the text as it was, once, and at every offset puts in what the edits
put in there and drops the character that stands there if an edit takes it away.  Where edits keep
clear of each other the two come to the same (`toList_applyAll_eq`).

The induction is on the edits in the order in which they are made.  What it rests on is that the next
edit stands in front of all that have been made: so up to its end the text is still as it was, the
edit finds the piece that it names, and the one pass puts its text in where that piece was.  That the
edits were sorted does not show in the result, because at one offset sorting keeps the order they
had, and an offset is all that the pass looks at.
-/
import Mathlib.Data.List.Induction
import Durable.Proofs.Text.Splice

namespace Durable.Text.Edit

/-! ### One pass over a text -/

/-- What edits put in at an offset.  Of several the last one in the list comes first. -/
def textsAt (es : List Edit) (n : Nat) : List Char :=
  (es.filter (·.span.start == n)).reverse.flatMap (·.text.toList)

/-- Some edit takes away what stands at an offset. -/
def takesAway (es : List Edit) (n : Nat) : Bool :=
  es.any fun e => e.span.start ≤ n && n < e.span.stop

/-- What edits make of a text that starts at an offset, in one pass: at every character, and at the
end, what is put in there, and then the character itself unless it is taken away. -/
def atOnce (es : List Edit) (n : Nat) : List Char → List Char
  | [] => textsAt es n
  | c :: cs =>
    textsAt es n ++ (if takesAway es n then [] else [c]) ++ atOnce es (n + c.utf8Size) cs

theorem atOnce_nil (n : Nat) (cs : List Char) : atOnce [] n cs = cs := by
  induction cs generalizing n with
  | nil => rfl
  | cons c cs ih =>
    rw [atOnce, ih]
    rfl

/-- The pass looks at nothing but what is put in and taken away from where it starts. -/
theorem atOnce_congr {es es' : List Edit} {n : Nat}
    (htexts : ∀ k, n ≤ k → textsAt es k = textsAt es' k)
    (htaken : ∀ k, n ≤ k → takesAway es k = takesAway es' k) (cs : List Char) :
    atOnce es n cs = atOnce es' n cs := by
  induction cs generalizing n with
  | nil => exact htexts n (Nat.le_refl n)
  | cons c cs ih =>
    have hlater := ih (n := n + c.utf8Size) (fun k hk => htexts k (by omega))
      (fun k hk => htaken k (by omega))
    rw [atOnce, atOnce, htexts n (Nat.le_refl n), htaken n (Nat.le_refl n), hlater]

/-! ### In front of all edits -/

section

variable {es : List Edit} {n : Nat}

theorem textsAt_front (h : ∀ e ∈ es, n < e.span.start) : textsAt es n = [] := by
  have hnone : es.filter (·.span.start == n) = [] := by
    rw [List.filter_eq_nil_iff]
    intro e he
    have := h e he
    simp only [beq_iff_eq]
    omega
  rw [textsAt, hnone]
  rfl

theorem takesAway_front (h : ∀ e ∈ es, n < e.span.start) : takesAway es n = false := by
  rw [takesAway, List.any_eq_false]
  intro e he
  have := h e he
  simp only [Bool.and_eq_true, decide_eq_true_eq]
  omega

theorem atOnce_front {a : List Char} (h : ∀ e ∈ es, n + byteLength a ≤ e.span.start)
    (cs : List Char) : atOnce es n (a ++ cs) = a ++ atOnce es (n + byteLength a) cs := by
  induction a generalizing n with
  | nil => rfl
  | cons c a ih =>
    have hc : 0 < c.utf8Size := Char.utf8Size_pos c
    rw [byteLength_cons, ← Nat.add_assoc] at h ⊢
    have hfront : ∀ e ∈ es, n < e.span.start := by
      intro e he
      have := h e he
      omega
    rw [List.cons_append, atOnce, textsAt_front hfront, takesAway_front hfront, ih h]
    rfl

end

/-! ### One more edit, in front of the others -/

section

variable {es : List Edit} {e : Edit}

theorem textsAt_concat (n : Nat) :
    textsAt (es ++ [e]) n = (if e.span.start = n then e.text.toList else []) ++ textsAt es n := by
  by_cases h : e.span.start = n <;> simp [textsAt, h]

theorem takesAway_concat (n : Nat) :
    takesAway (es ++ [e]) n = (takesAway es n || (e.span.start ≤ n && n < e.span.stop)) := by
  simp [takesAway]

theorem takesAway_within {n : Nat} (hstart : e.span.start ≤ n) (hstop : n < e.span.stop) :
    takesAway (es ++ [e]) n = true := by
  simp [takesAway_concat, hstart, hstop]

/-- Behind the edit the others are made as they are without it. -/
theorem atOnce_concat_behind {n : Nat} (hstart : e.span.start < n) (hstop : e.span.stop ≤ n)
    (cs : List Char) : atOnce (es ++ [e]) n cs = atOnce es n cs := by
  refine atOnce_congr (fun k hk => ?_) (fun k hk => ?_) cs
  · rw [textsAt_concat, if_neg (by omega), List.nil_append]
  · have hpast : ¬ k < e.span.stop := by omega
    simp [takesAway_concat, hpast]

/-- Inside the edit everything is taken away. -/
theorem atOnce_concat_within {n : Nat} {b : List Char} (hstart : e.span.start < n)
    (hstop : n + byteLength b = e.span.stop) (hothers : ∀ x ∈ es, e.span.stop ≤ x.span.start)
    (cs : List Char) : atOnce (es ++ [e]) n (b ++ cs) = atOnce es e.span.stop cs := by
  induction b generalizing n with
  | nil =>
    obtain rfl : n = e.span.stop := hstop
    exact atOnce_concat_behind hstart (Nat.le_refl _) cs
  | cons c b ih =>
    have hc : 0 < c.utf8Size := Char.utf8Size_pos c
    rw [byteLength_cons] at hstop
    have hfront : ∀ x ∈ es, n < x.span.start := by
      intro x hx
      have := hothers x hx
      omega
    rw [List.cons_append, atOnce, textsAt_concat, if_neg (by omega), textsAt_front hfront,
      takesAway_within (by omega) (by omega), ih (by omega) (by omega)]
    rfl

/-- Where the edit starts its text is put in, and the pass goes on where it ends. -/
theorem atOnce_concat_start {b : List Char} (hstop : e.span.start + byteLength b = e.span.stop)
    (hothers : ∀ x ∈ es, e.span.stop ≤ x.span.start) (cs : List Char) :
    atOnce (es ++ [e]) e.span.start (b ++ cs) = e.text.toList ++ atOnce es e.span.stop cs := by
  cases b with
  | nil =>
    -- An insertion: the others may put something in at the same offset, behind it.
    have hempty : e.span.start = e.span.stop := hstop
    rw [List.nil_append, ← hempty]
    cases cs with
    | nil => simp [atOnce, textsAt_concat]
    | cons c cs =>
      have hc : 0 < c.utf8Size := Char.utf8Size_pos c
      rw [atOnce, atOnce, atOnce_concat_behind (by omega) (by omega)]
      simp [textsAt_concat, takesAway_concat, ← hempty]
  | cons c b =>
    have hc : 0 < c.utf8Size := Char.utf8Size_pos c
    rw [byteLength_cons] at hstop
    have hfront : ∀ x ∈ es, e.span.start < x.span.start := by
      intro x hx
      have := hothers x hx
      omega
    rw [List.cons_append, atOnce, textsAt_concat, if_pos rfl, textsAt_front hfront,
      takesAway_within (Nat.le_refl _) (by omega), atOnce_concat_within (by omega) (by omega) hothers]
    simp

variable {cs : List Char}

/-- The piece that the edit names stands in the text that the others make as it stood in the text
before, and the one pass puts the edit's text in its place. -/
theorem exists_piece (hfits : e.Fits cs) (hothers : ∀ x ∈ es, e.span.stop ≤ x.span.start) :
    ∃ a b c, e.span = ⟨byteLength a, byteLength a + byteLength b⟩ ∧
      atOnce es 0 cs = a ++ b ++ c ∧ atOnce (es ++ [e]) 0 cs = a ++ e.text.toList ++ c := by
  obtain ⟨a, b, c, rfl, hspan⟩ := hfits
  have hstart : e.span.start = byteLength a := congrArg Span.start hspan
  have hstop : e.span.stop = byteLength a + byteLength b := congrArg Span.stop hspan
  refine ⟨a, b, atOnce es e.span.stop c, hspan, ?_, ?_⟩
  · have hfront : ∀ x ∈ es, 0 + byteLength (a ++ b) ≤ x.span.start := by
      intro x hx
      have := hothers x hx
      rw [byteLength_append]
      omega
    rw [atOnce_front hfront, Nat.zero_add, byteLength_append, hstop]
  · have hfront : ∀ x ∈ es ++ [e], 0 + byteLength a ≤ x.span.start := by
      intro x hx
      rcases List.mem_append.mp hx with hx | hx
      · have := hothers x hx
        omega
      · rw [List.mem_singleton.mp hx]
        omega
    rw [List.append_assoc a b c, atOnce_front hfront, Nat.zero_add, ← hstart,
      atOnce_concat_start (by omega) hothers, List.append_assoc]

theorem Fits.atOnce (hfits : e.Fits cs) (hothers : ∀ x ∈ es, e.span.stop ≤ x.span.start) :
    e.Fits (atOnce es 0 cs) := by
  obtain ⟨a, b, c, hspan, hbefore, -⟩ := exists_piece hfits hothers
  exact ⟨a, b, c, hbefore, hspan⟩

/-- To make the edit on the text that the others make is to make it with them. -/
theorem apply_atOnce (hfits : e.Fits cs) (hothers : ∀ x ∈ es, e.span.stop ≤ x.span.start) :
    apply (atOnce es 0 cs) e = atOnce (es ++ [e]) 0 cs := by
  obtain ⟨a, b, c, hspan, hbefore, hafter⟩ := exists_piece hfits hothers
  obtain ⟨span, text⟩ := e
  obtain rfl : span = _ := hspan
  rw [hbefore, hafter, apply_append]

/-- Edits that are made from the back to the front are made at once. -/
theorem foldl_apply (hfits : ∀ e ∈ es, e.Fits cs)
    (horder : es.Pairwise fun a b => b.span.stop ≤ a.span.start) :
    es.foldl apply cs = atOnce es 0 cs := by
  induction es using List.reverseRecOn with
  | nil => exact (atOnce_nil 0 cs).symm
  | append_singleton es e ih =>
    obtain ⟨horder, -, hlast⟩ := List.pairwise_append.mp horder
    have hmade := ih (fun x hx => hfits x (List.mem_append_left _ hx)) horder
    rw [List.foldl_append, hmade]
    exact apply_atOnce (hfits e (by simp)) fun x hx => hlast x hx e (List.mem_singleton_self e)

end

/-! ### The order of the list -/

section

variable {es es' : List Edit}

/-- Sorting shows at no offset. -/
theorem atOnce_backToFront (es : List Edit) (n : Nat) (cs : List Char) :
    atOnce (backToFront es) n cs = atOnce es n cs := by
  refine atOnce_congr (fun k _ => ?_) (fun k _ => ?_) cs
  · have hlevel : (backToFront es).filter (·.span.start == k) = es.filter (·.span.start == k) := by
      refine filter_sortBy (fun a b ha hb => ?_) es
      rw [beq_iff_eq] at ha hb
      rw [ha, hb]
      exact decide_eq_true (Nat.le_refl k)
    rw [textsAt, textsAt, hlevel]
  · exact (backToFront_perm es).any_eq

/-- At one offset there are only insertions, or one edit alone. -/
theorem filter_start_cases (hlen : ∀ e ∈ es, e.span.start ≤ e.span.stop)
    (hclear : es.Pairwise Clear) (n : Nat) :
    (∀ e ∈ es, e.span.start = n → e.span = ⟨n, n⟩) ∨
      ∃ e, es.filter (·.span.start == n) = [e] := by
  have hmem : ∀ {e}, e ∈ es.filter (·.span.start == n) ↔ e ∈ es ∧ e.span.start = n := by
    intro e
    rw [List.mem_filter, beq_iff_eq]
  have hlevel := hclear.filter (·.span.start == n)
  generalize es.filter (·.span.start == n) = level at hmem hlevel
  match level with
  | [] => exact .inl fun e he hstart => absurd (hmem.mpr ⟨he, hstart⟩) List.not_mem_nil
  | [a] => exact .inr ⟨a, rfl⟩
  | a :: b :: others =>
    -- The first one ends where any other one does, and one of the two ends where it starts.
    have hstop : ∀ x ∈ b :: others, a.span.stop = n ∧ x.span.stop = n := by
      intro x hx
      obtain ⟨hapart, hsame⟩ := (List.pairwise_cons.mp hlevel).1 x hx
      obtain ⟨ha, hstart⟩ := hmem.mp List.mem_cons_self
      obtain ⟨hx, hstart'⟩ := hmem.mp (List.mem_cons_of_mem a hx)
      have := hlen a ha
      have := hlen x hx
      omega
    refine .inl fun e he hstart => congrArg₂ Span.mk hstart ?_
    rcases List.mem_cons.mp (hmem.mpr ⟨he, hstart⟩) with rfl | hlater
    · exact (hstop b List.mem_cons_self).1
    · exact (hstop e hlater).2

/-- What is put in at an offset depends on the order of the insertions there and on no other. -/
theorem textsAt_of_perm (hlen : ∀ e ∈ es, e.span.start ≤ e.span.stop) (hclear : es.Pairwise Clear)
    (hperm : es'.Perm es)
    (hinsertions : ∀ n, es'.filter (·.span == ⟨n, n⟩) = es.filter (·.span == ⟨n, n⟩)) (n : Nat) :
    textsAt es' n = textsAt es n := by
  have hlevel : es'.filter (·.span.start == n) = es.filter (·.span.start == n) := by
    rcases filter_start_cases hlen hclear n with hall | ⟨e, hone⟩
    · have hfilter : ∀ fs : List Edit, (∀ e ∈ fs, e ∈ es) →
          fs.filter (·.span.start == n) = fs.filter (·.span == ⟨n, n⟩) := by
        intro fs hfs
        refine List.filter_congr fun e he => ?_
        rw [Bool.eq_iff_iff, beq_iff_eq, beq_iff_eq]
        exact ⟨hall e (hfs e he), fun h => by rw [h]⟩
      rw [hfilter es' fun e he => hperm.mem_iff.mp he, hfilter es fun e he => he, hinsertions]
    · have hsame := hperm.filter (·.span.start == n)
      rw [hone] at hsame ⊢
      exact List.perm_singleton.mp hsame
  rw [textsAt, textsAt, hlevel]

variable {text : String}

theorem toList_applyAll_eq (hfits : ∀ e ∈ es, e.Fits text.toList) (hclear : es.Pairwise Clear) :
    (applyAll text es).toList = atOnce es 0 text.toList := by
  have hfits' : ∀ e ∈ backToFront es, e.Fits text.toList :=
    fun e he => hfits e ((backToFront_perm es).mem_iff.mp he)
  have horder := backToFront_pairwise (fun e he => (hfits e he).start_le_stop) hclear
  rw [toList_applyAll, foldl_apply hfits' horder, atOnce_backToFront]

/-- **Edits that keep clear of each other are made at once.**  What they make is what one pass over
the text as it was makes; each of them, when its turn comes, names a piece of the text as it then is;
and of the order of the list only that of insertions at one offset shows. -/
theorem applyAll_simultaneous (hfits : ∀ e ∈ es, e.Fits text.toList) (hclear : es.Pairwise Clear) :
    (applyAll text es).toList = atOnce es 0 text.toList ∧
    (∀ made e later, backToFront es = made ++ e :: later →
      e.Fits (made.foldl apply text.toList)) ∧
    ∀ es' : List Edit, es'.Perm es →
      (∀ n, es'.filter (·.span == ⟨n, n⟩) = es.filter (·.span == ⟨n, n⟩)) →
      applyAll text es' = applyAll text es := by
  have hlen : ∀ e ∈ es, e.span.start ≤ e.span.stop := fun e he => (hfits e he).start_le_stop
  refine ⟨toList_applyAll_eq hfits hclear, ?_, ?_⟩
  · intro made e later hsplit
    have hfits' : ∀ x ∈ made ++ e :: later, x.Fits text.toList :=
      fun x hx => hfits x ((backToFront_perm es).mem_iff.mp (hsplit ▸ hx))
    have horder := backToFront_pairwise hlen hclear
    rw [hsplit] at horder
    obtain ⟨horder, -, hlater⟩ := List.pairwise_append.mp horder
    rw [foldl_apply (fun x hx => hfits' x (List.mem_append_left _ hx)) horder]
    exact (hfits' e (by simp)).atOnce fun x hx => hlater x hx e List.mem_cons_self
  · intro es' hperm hinsertions
    have hfits' : ∀ e ∈ es', e.Fits text.toList := fun e he => hfits e (hperm.mem_iff.mp he)
    have hclear' : es'.Pairwise Clear := (hperm.pairwise_iff fun h => Clear.symm h).mpr hclear
    rw [String.ext_iff, toList_applyAll_eq hfits hclear, toList_applyAll_eq hfits' hclear']
    exact atOnce_congr (fun k _ => textsAt_of_perm hlen hclear hperm hinsertions k)
      (fun k _ => hperm.any_eq) text.toList

/-- The replacement of the second character of `aéb`, which has two bytes. -/
def overAccent : Edit := ⟨⟨1, 3⟩, "xy"⟩

/-- Insertions at both ends of `aéb`, and two behind its second character. -/
def aroundAccent : List Edit :=
  [.insertion 4 "!", .insertion 3 "1", .insertion 3 "2", .insertion 0 ">"]

/-- The two insertions at one offset come out in reverse, wherever the replacement is listed. -/
theorem applyAll_aroundAccent : applyAll "aéb" (overAccent :: aroundAccent) = ">axy21b!" ∧
    applyAll "aéb" (aroundAccent ++ [overAccent]) = applyAll "aéb" (overAccent :: aroundAccent) ∧
    ∀ made e later, backToFront (overAccent :: aroundAccent) = made ++ e :: later →
      e.Fits (made.foldl apply "aéb".toList) := by
  have htext : "aéb".toList = ['a', 'é', 'b'] := by decide
  have hfits : ∀ e ∈ overAccent :: aroundAccent, e.Fits "aéb".toList := by
    rw [htext]
    simp only [aroundAccent, List.forall_mem_cons, List.not_mem_nil, false_imp_iff, implies_true,
      and_true]
    exact ⟨⟨['a'], ['é'], ['b'], rfl, by decide⟩, ⟨['a', 'é', 'b'], [], [], rfl, by decide⟩,
      ⟨['a', 'é'], [], ['b'], rfl, by decide⟩, ⟨['a', 'é'], [], ['b'], rfl, by decide⟩,
      ⟨[], [], ['a', 'é', 'b'], rfl, by decide⟩⟩
  obtain ⟨hpass, hturn, horder⟩ := applyAll_simultaneous hfits (by decide)
  refine ⟨?_, horder _ (List.perm_append_singleton ..) fun n => ?_, hturn⟩
  · rw [String.ext_iff, hpass, htext]
    decide
  · have hreplaces : ¬ (overAccent.span == ⟨n, n⟩) = true := by
      rw [beq_iff_eq]
      intro heq
      obtain ⟨hstart, hstop⟩ := Span.mk.inj heq
      omega
    simp only [List.filter_append, List.filter_cons, if_neg hreplaces, List.filter_nil,
      List.append_nil]

end

end Durable.Text.Edit
