/-
Edits that do not overlap are made all at once.

`applyAll` makes edits one after another, on texts that earlier edits have already changed.
What it comes to is simpler: the text falls apart into pieces that are kept and pieces that
are edited, and every edited piece is replaced where it stands.  A `Patch` is one edited piece
with the kept piece in front of it, and `applyAll_eq` says that edits in order of their places
are a list of patches.

From the patches everything about the layout can be read: what is kept stays in order, and as
long as no edit takes away or puts in a newline it stays on its line.
-/
import Durable.Proofs.Order
import Durable.Proofs.Text.Bytes
import Durable.Text.Edit

namespace Durable

namespace Text

/-! ### Patches -/

/-- An edited piece of a text: what it was and what it becomes, and the piece in front of it that is
kept. -/
structure Patch where
  kept : List Char
  removed : List Char
  inserted : List Char

namespace Patch

/-- The text that patches are made on. -/
def before (ps : List Patch) : List Char := ps.flatMap fun p => p.kept ++ p.removed

/-- The text that patches make. -/
def after (ps : List Patch) : List Char := ps.flatMap fun p => p.kept ++ p.inserted

@[simp] theorem before_cons (p : Patch) (ps : List Patch) :
    before (p :: ps) = p.kept ++ p.removed ++ before ps := rfl

@[simp] theorem after_cons (p : Patch) (ps : List Patch) :
    after (p :: ps) = p.kept ++ p.inserted ++ after ps := rfl

@[simp] theorem before_nil : before [] = [] := rfl

@[simp] theorem after_nil : after [] = [] := rfl

/-- The edits that patches are, where the first one's kept piece starts at an offset. -/
def edits (offset : Nat) : List Patch → List Edit
  | [] => []
  | p :: ps =>
    let start := offset + byteLength p.kept
    let stop := start + byteLength p.removed
    ⟨⟨start, stop⟩, String.ofList p.inserted⟩ :: edits stop ps

end Patch

namespace Edit

/-- The span of an edit is a part of a text. -/
def Fits (cs : List Char) (e : Edit) : Prop :=
  ∃ a b c, cs = a ++ b ++ c ∧ e.span = ⟨byteLength a, byteLength a + byteLength b⟩

theorem Fits.start_le_stop {cs : List Char} {e : Edit} (h : e.Fits cs) :
    e.span.start ≤ e.span.stop := by
  obtain ⟨a, b, c, -, hspan⟩ := h
  rw [hspan]
  exact Nat.le_add_right _ _

/-- Two edits do not get in each other's way: one ends before the other starts, and only
insertions share an offset. -/
def Clear (a b : Edit) : Prop :=
  (a.span.stop ≤ b.span.start ∨ b.span.stop ≤ a.span.start)
    ∧ (a.span.start = b.span.start → a.span.stop = b.span.stop)

instance (a b : Edit) : Decidable (a.Clear b) := inferInstanceAs (Decidable (_ ∧ (_ → _)))

theorem Clear.symm {a b : Edit} (h : a.Clear b) : b.Clear a :=
  ⟨h.1.symm, fun heq => (h.2 heq.symm).symm⟩

/-- An edit of a piece of a text puts another text in its place. -/
theorem apply_append (a b c : List Char) (text : String) :
    apply (a ++ b ++ c) ⟨⟨byteLength a, byteLength a + byteLength b⟩, text⟩
      = a ++ text.toList ++ c := by
  have hsub : byteLength a + byteLength b - byteLength a = byteLength b := by omega
  rw [apply, if_pos (Nat.le_add_right _ _), List.append_assoc a b c]
  simp only [splitAtByte_append, hsub]

/-- Patches are made by making their edits from the last one to the first. -/
theorem foldl_reverse_edits (ps : List Patch) (front tail : List Char) :
    (Patch.edits (byteLength front) ps).reverse.foldl apply (front ++ Patch.before ps ++ tail)
      = front ++ Patch.after ps ++ tail := by
  induction ps generalizing front with
  | nil => rfl
  | cons p ps ih =>
    have hlater := ih (front ++ p.kept ++ p.removed)
    have happly := apply_append (front ++ p.kept) p.removed (Patch.after ps ++ tail)
      (String.ofList p.inserted)
    simp only [byteLength_append, List.append_assoc, String.toList_ofList] at hlater happly
    rw [← Nat.add_assoc] at hlater
    simp only [Patch.edits, List.reverse_cons, List.foldl_append, List.foldl_cons, List.foldl_nil,
      Patch.before_cons, Patch.after_cons, List.append_assoc]
    rw [hlater, happly]

/-- Edits in order of their places are patches. -/
theorem patches_of_ordered {cs rest : List Char} (front : List Char) (hcs : cs = front ++ rest) {es : List Edit}
    (hfits : ∀ e ∈ es, e.Fits cs) (hfront : ∀ e ∈ es, byteLength front ≤ e.span.start)
    (horder : es.Pairwise fun a b => a.span.stop ≤ b.span.start) :
    ∃ ps tail, rest = Patch.before ps ++ tail ∧ Patch.edits (byteLength front) ps = es := by
  induction es generalizing front rest with
  | nil => exact ⟨[], rest, rfl, rfl⟩
  | cons e es ih =>
    obtain ⟨hbehind, horder⟩ := List.pairwise_cons.mp horder
    obtain ⟨a, b, c, hparts, hspan⟩ := hfits e (by simp)
    -- What stands in front of the edit starts with what has been cut off already.
    obtain ⟨kept, rfl⟩ : ∃ kept, a = front ++ kept := by
      have hle : byteLength front ≤ byteLength a := by
        have := hfront e (by simp)
        rwa [hspan] at this
      rw [hcs, List.append_assoc] at hparts
      exact exists_append_of_byteLength_le hparts hle
    have hrest : rest = kept ++ b ++ c := by
      rw [hcs] at hparts
      simpa using hparts
    have hcs' : cs = (front ++ kept ++ b) ++ c := by rw [hcs, hrest]; simp
    have hfront' : ∀ e' ∈ es, byteLength (front ++ kept ++ b) ≤ e'.span.start := by
      intro e' he'
      have := hbehind e' he'
      rw [hspan] at this
      rwa [byteLength_append]
    obtain ⟨ps, tail, hc, hes⟩ := ih _ hcs' (fun e' he' => hfits e' (by simp [he'])) hfront' horder
    refine ⟨⟨kept, b, e.text.toList⟩ :: ps, tail, by rw [hrest, hc]; simp, ?_⟩
    obtain ⟨span, text⟩ := e
    obtain rfl : span = _ := hspan
    simp only [byteLength_append] at hes
    simp [Patch.edits, hes]

/-- Edits in the order in which they are made. -/
def backToFront (es : List Edit) : List Edit :=
  sortBy (fun a b => decide (b.span.start ≤ a.span.start)) es

theorem backToFront_perm (es : List Edit) : (backToFront es).Perm es := sortBy_perm es

theorem toList_applyAll (text : String) (es : List Edit) :
    (applyAll text es).toList = (backToFront es).foldl apply text.toList :=
  String.toList_ofList

/-- Of edits that keep clear of each other one that is made later ends in front of all that have been
made. -/
theorem backToFront_pairwise {es : List Edit} (hlen : ∀ e ∈ es, e.span.start ≤ e.span.stop)
    (hclear : es.Pairwise Clear) :
    (backToFront es).Pairwise fun a b => b.span.stop ≤ a.span.start := by
  have hperm := backToFront_perm es
  have hdown : (backToFront es).Pairwise fun a b => decide (b.span.start ≤ a.span.start) = true :=
    sortBy_pairwise (by intro a b; simp only [decide_eq_true_eq]; omega)
      (by intro a b c; simp only [decide_eq_true_eq]; omega) es
  have hclear' : (backToFront es).Pairwise Clear :=
    (hperm.pairwise_iff fun h => Clear.symm h).mpr hclear
  refine (hdown.and hclear').imp_of_mem fun {a b} ha hb h => ?_
  obtain ⟨hle, hapart, hlevel⟩ := h
  have ha' := hlen a (hperm.mem_iff.mp ha)
  have hb' := hlen b (hperm.mem_iff.mp hb)
  rw [decide_eq_true_eq] at hle
  rcases hapart with h | h
  · have := hlevel (by omega)
    omega
  · exact h

/-- **Edits that keep clear of each other are patches of the text**, whatever order they are listed
in. -/
theorem applyAll_eq {text : String} {es : List Edit} (hfits : ∀ e ∈ es, e.Fits text.toList)
    (hclear : es.Pairwise Clear) :
    ∃ ps tail, text.toList = Patch.before ps ++ tail ∧
      (applyAll text es).toList = Patch.after ps ++ tail ∧ (Patch.edits 0 ps).Perm es := by
  have hperm := backToFront_perm es
  have horder := backToFront_pairwise (fun e he => (hfits e he).start_le_stop) hclear
  obtain ⟨ps, tail, hbefore, hedits⟩ := patches_of_ordered [] rfl
    (fun e he => hfits e (hperm.mem_iff.mp (List.mem_reverse.mp he)))
    (fun _ _ => Nat.zero_le _) (List.pairwise_reverse.mpr horder)
  rw [byteLength_nil] at hedits
  refine ⟨ps, tail, hbefore, ?_, ?_⟩
  · have := foldl_reverse_edits ps [] tail
    rw [byteLength_nil, hedits, List.reverse_reverse] at this
    rw [List.nil_append, List.nil_append, ← hbefore] at this
    rw [toList_applyAll]
    exact this
  · rw [hedits]
    exact (List.reverse_perm _).trans hperm

/-! ### Edits in front -/

/-- An edit that is listed last and stands in front of the others, or level with them, is made on
the text that they make. -/
theorem applyAll_concat {text : String} {es : List Edit} {e : Edit}
    (h : ∀ x ∈ es, e.span.start ≤ x.span.start) :
    (applyAll text (es ++ [e])).toList = apply (applyAll text es).toList e := by
  simp only [applyAll, String.toList_ofList]
  rw [sortBy_concat fun x hx => by simpa using h x hx, List.foldl_append]
  rfl

/-- So is one that stands in front of all others. -/
theorem applyAll_cons {text : String} {es : List Edit} {e : Edit}
    (h : ∀ x ∈ es, e.span.start < x.span.start) :
    (applyAll text (e :: es)).toList = apply (applyAll text es).toList e := by
  simp only [applyAll, String.toList_ofList]
  rw [sortBy_cons_of_above fun x hx => by simpa using h x hx, List.foldl_append]
  rfl

theorem apply_front {front rest : List Char} {e : Edit} (h : byteLength front ≤ e.span.start) :
    ∃ rest', apply (front ++ rest) e = front ++ rest' := by
  unfold apply
  split
  · split
    · next before after hcut =>
      obtain ⟨hparts, hlen⟩ := splitAtByte_eq_some hcut
      obtain ⟨kept, rfl⟩ := exists_append_of_byteLength_le hparts (hlen ▸ h)
      split
      · exact ⟨_, by rw [List.append_assoc, List.append_assoc]⟩
      · exact ⟨rest, rfl⟩
    · exact ⟨rest, rfl⟩
  · exact ⟨rest, rfl⟩

/-- Edits leave alone what stands in front of all of them. -/
theorem applyAll_front {text : String} {es : List Edit} {front rest : List Char}
    (htext : text.toList = front ++ rest) (h : ∀ e ∈ es, byteLength front ≤ e.span.start) :
    ∃ rest', (applyAll text es).toList = front ++ rest' := by
  have hfold : ∀ (fs : List Edit) (rest : List Char), (∀ e ∈ fs, byteLength front ≤ e.span.start) →
      ∃ rest', fs.foldl apply (front ++ rest) = front ++ rest' := by
    intro fs
    induction fs with
    | nil => exact fun rest _ => ⟨rest, rfl⟩
    | cons e fs ih =>
      intro rest hfs
      obtain ⟨rest', hfirst⟩ : ∃ rest', apply (front ++ rest) e = front ++ rest' :=
        apply_front (hfs e (by simp))
      rw [List.foldl_cons, hfirst]
      exact ih rest' fun x hx => hfs x (by simp [hx])
  rw [applyAll, String.toList_ofList, htext]
  exact hfold _ _ fun e he => h e ((sortBy_perm es).mem_iff.mp he)

theorem apply_insertion (a b : List Char) (text : String) :
    apply (a ++ b) (insertion (byteLength a) text) = a ++ (text.toList ++ b) := by
  simpa [insertion] using apply_append a [] b text

/-- An insertion in front of all other edits comes to stand behind what is in front of it. -/
theorem applyAll_insertion {text : String} (inserted : String) {es : List Edit}
    {front rest : List Char} (htext : text.toList = front ++ rest)
    (h : ∀ e ∈ es, byteLength front < e.span.start) :
    ∃ rest', (applyAll text (insertion (byteLength front) inserted :: es)).toList
      = front ++ (inserted.toList ++ rest') := by
  obtain ⟨rest', hothers⟩ := applyAll_front htext fun e he => Nat.le_of_lt (h e he)
  exact ⟨rest', by rw [applyAll_cons h, hothers, apply_insertion]⟩

/-- An insertion that is listed last comes to stand in front of what others make behind it. -/
theorem applyAll_concat_insertion {text : String} (inserted : String) {es : List Edit}
    {front rest : List Char} (hrest : (applyAll text es).toList = front ++ rest)
    (h : ∀ e ∈ es, byteLength front ≤ e.span.start) :
    (applyAll text (es ++ [insertion (byteLength front) inserted])).toList
      = front ++ (inserted.toList ++ rest) := by
  rw [applyAll_concat h, hrest, apply_insertion]

end Edit

/-! ### Lines -/

namespace Patch

/-- Patches neither take away nor put in a newline. -/
def KeepsLines (ps : List Patch) : Prop := ∀ p ∈ ps, '\n' ∉ p.removed ∧ '\n' ∉ p.inserted

theorem count_newline {ps : List Patch} (h : KeepsLines ps) :
    (after ps).count '\n' = (before ps).count '\n' := by
  induction ps with
  | nil => rfl
  | cons p ps ih =>
    obtain ⟨hremoved, hinserted⟩ := h p (by simp)
    have hlater := ih fun q hq => h q (by simp [hq])
    simp [List.count_eq_zero_of_not_mem hremoved, List.count_eq_zero_of_not_mem hinserted, hlater]

/-- Where a character of two joined texts stands: in the first or in the second one. -/
theorem split_append {a b x y : List Char} {c : Char} (h : a ++ b = x ++ c :: y) :
    (∃ m, a = x ++ c :: m ∧ y = m ++ b) ∨ ∃ m, x = a ++ m ∧ b = m ++ c :: y := by
  rcases List.append_eq_append_iff.mp h with ⟨m, hx, hb⟩ | ⟨m, ha, hy⟩
  · exact .inr ⟨m, hx, hb⟩
  · cases m with
    | nil => exact .inr ⟨[], by simpa using ha.symm, by simpa using hy.symm⟩
    | cons d m =>
      obtain ⟨rfl, rfl⟩ := List.cons.inj hy
      exact .inl ⟨m, ha, rfl⟩

/-- A character that no patch takes away stays, on the line it was on. -/
theorem KeepsLines.keeps_line {ps : List Patch} (h : KeepsLines ps) (offset : Nat) {tail x y : List Char}
    {c : Char} (hsplit : before ps ++ tail = x ++ c :: y)
    (hkept : ∀ e ∈ edits offset ps,
      ¬ (e.span.start ≤ offset + byteLength x ∧ offset + byteLength x < e.span.stop)) :
    ∃ x' y', after ps ++ tail = x' ++ c :: y' ∧ x'.count '\n' = x.count '\n' := by
  induction ps generalizing offset x with
  | nil => exact ⟨x, y, hsplit, rfl⟩
  | cons p ps ih =>
    obtain ⟨hremoved, hinserted⟩ := h p (by simp)
    rw [before_cons, List.append_assoc] at hsplit
    rcases split_append hsplit with ⟨m, hpiece, -⟩ | ⟨m, rfl, hlater⟩
    · rcases split_append hpiece with ⟨m', hkeep, -⟩ | ⟨m', rfl, hgone⟩
      · exact ⟨x, m' ++ p.inserted ++ after ps ++ tail, by simp [hkeep], rfl⟩
      · -- The character would have been taken away.
        have := hkept ⟨⟨offset + byteLength p.kept,
          offset + byteLength p.kept + byteLength p.removed⟩, String.ofList p.inserted⟩
          (List.mem_cons_self ..)
        have hc : 0 < c.utf8Size := Char.utf8Size_pos c
        simp only [hgone, byteLength_append, byteLength_cons] at this
        omega
    · obtain ⟨x', y', hafter, hcount⟩ := ih (fun q hq => h q (by simp [hq]))
        (offset + byteLength p.kept + byteLength p.removed) hlater <| by
        intro e he
        have := hkept e (List.mem_cons_of_mem _ he)
        simp only [byteLength_append] at this
        omega
      refine ⟨p.kept ++ p.inserted ++ x', y', by simp [hafter], ?_⟩
      simp [List.count_eq_zero_of_not_mem hremoved, List.count_eq_zero_of_not_mem hinserted, hcount]

end Patch

end Text

end Durable
