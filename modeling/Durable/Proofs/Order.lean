/-
Sorting, and the items of a list once each.

`sortBy` rearranges a list so that it stands in order, and items that are level with each other stay
in the order they had: a filter that passes only such items does not tell the sorted list from the
one that was sorted.  `distinct` keeps the first occurrence of each item and drops the others.
-/
import Mathlib.Data.List.Basic
import Durable.Order

namespace Durable

/-! ### Sorting -/

section

variable {α : Type} {le : α → α → Bool}

theorem insertSorted_perm (a : α) (as : List α) : (insertSorted le a as).Perm (a :: as) := by
  induction as with
  | nil => exact .refl _
  | cons b bs ih =>
    rw [insertSorted]
    split
    · exact .refl _
    · exact (List.Perm.cons b ih).trans (List.Perm.swap a b bs)

theorem sortBy_perm (as : List α) : (sortBy le as).Perm as := by
  induction as with
  | nil => exact .refl _
  | cons a as ih => exact (insertSorted_perm a _).trans (ih.cons a)

/-- Sorting puts a list in order, for an order in which any two items compare. -/
theorem sortBy_pairwise (total : ∀ a b, le a b = true ∨ le b a = true)
    (trans : ∀ a b c, le a b = true → le b c = true → le a c = true) (as : List α) :
    (sortBy le as).Pairwise fun a b => le a b = true := by
  have insert : ∀ (a : α) (bs : List α), bs.Pairwise (fun a b => le a b = true) →
      (insertSorted le a bs).Pairwise fun a b => le a b = true := by
    intro a bs hbs
    induction bs with
    | nil => simp [insertSorted]
    | cons b bs ih =>
      obtain ⟨hb, hbs'⟩ := List.pairwise_cons.mp hbs
      rw [insertSorted]
      split
      · next hab =>
        refine List.pairwise_cons.mpr ⟨fun x hx => ?_, hbs⟩
        rcases List.mem_cons.mp hx with rfl | hx
        · exact hab
        · exact trans a b x hab (hb x hx)
      · next hab =>
        refine List.pairwise_cons.mpr ⟨fun x hx => ?_, ih hbs'⟩
        rcases List.mem_cons.mp ((insertSorted_perm a bs).mem_iff.mp hx) with rfl | hx
        · exact (total x b).resolve_left hab
        · exact hb x hx
  induction as with
  | nil => exact .nil
  | cons a as ih => exact insert a _ ih

theorem insertSorted_concat {a b : α} (h : le a b = true) (bs : List α) :
    insertSorted le a (bs ++ [b]) = insertSorted le a bs ++ [b] := by
  induction bs with
  | nil => simp [insertSorted, h]
  | cons c bs ih => by_cases hc : le a c = true <;> simp [insertSorted, hc, ih]

/-- What is level with all items or above them, and comes last, stays last. -/
theorem sortBy_concat {a : α} {as : List α} (h : ∀ b ∈ as, le b a = true) :
    sortBy le (as ++ [a]) = sortBy le as ++ [a] := by
  induction as with
  | nil => rfl
  | cons b as ih =>
    rw [List.cons_append, sortBy, ih fun c hc => h c (by simp [hc]), sortBy,
      insertSorted_concat (h b (by simp))]

/-- What is above all others comes last. -/
theorem sortBy_cons_of_above {a : α} {as : List α} (h : ∀ b ∈ as, le a b = false) :
    sortBy le (a :: as) = sortBy le as ++ [a] := by
  have insert : ∀ bs : List α, (∀ b ∈ bs, le a b = false) → insertSorted le a bs = bs ++ [a] := by
    intro bs hbs
    induction bs with
    | nil => rfl
    | cons b bs ih => simp [insertSorted, hbs b, ih fun c hc => hbs c (by simp [hc])]
  exact insert _ fun b hb => h b ((sortBy_perm as).mem_iff.mp hb)

/-- Sorting what a function gives is sorting by what it gives. -/
theorem sortBy_map {β : Type} {le' : β → β → Bool} {f : α → β} {as : List α}
    (h : ∀ a ∈ as, ∀ b ∈ as, le' (f a) (f b) = le a b) :
    sortBy le' (as.map f) = (sortBy le as).map f := by
  have insert : ∀ (a : α) (bs : List α), (∀ b ∈ bs, le' (f a) (f b) = le a b) →
      insertSorted le' (f a) (bs.map f) = (insertSorted le a bs).map f := by
    intro a bs hbs
    induction bs with
    | nil => rfl
    | cons b bs ih =>
      rw [List.map_cons, insertSorted, insertSorted, hbs b (by simp),
        ih fun c hc => hbs c (by simp [hc])]
      split <;> rfl
  induction as with
  | nil => rfl
  | cons a as ih =>
    rw [List.map_cons, sortBy, sortBy, ih fun b hb c hc => h b (by simp [hb]) c (by simp [hc])]
    exact insert a _ fun b hb => h a (by simp) b (by simp [(sortBy_perm as).mem_iff.mp hb])

/-- Sorting keeps the order of items that are level with each other. -/
theorem filter_sortBy {test : α → Bool} (h : ∀ a b, test a = true → test b = true → le a b = true)
    (as : List α) : (sortBy le as).filter test = as.filter test := by
  have insert : ∀ (a : α) (bs : List α),
      (insertSorted le a bs).filter test = (a :: bs).filter test := by
    intro a bs
    induction bs with
    | nil => rfl
    | cons b bs ih =>
      rw [insertSorted]
      split
      · rfl
      · next hab =>
        -- At most one of the two passes the test, so it does not matter which comes first.
        rw [List.filter_cons, ih, List.filter_cons, List.filter_cons, List.filter_cons]
        by_cases ha : test a = true
        · have hb : ¬ test b = true := fun hb => hab (h a b ha hb)
          rw [if_neg hb, if_neg hb]
        · rw [if_neg ha, if_neg ha]
  induction as with
  | nil => rfl
  | cons a as ih => rw [sortBy, insert, List.filter_cons, ih, ← List.filter_cons]

end

/-! ### Items once each -/

section

variable {α : Type} [BEq α]

theorem distinct_eq_nil {as : List α} (h : distinct as = []) : as = [] := by
  cases as with
  | nil => rfl
  | cons a as => simp [distinct] at h

variable [LawfulBEq α]

theorem mem_distinct {as : List α} {a : α} : a ∈ distinct as ↔ a ∈ as := by
  induction as with
  | nil => simp [distinct]
  | cons b as ih =>
    rw [distinct, List.mem_cons, List.mem_cons, List.mem_filter, ih]
    by_cases h : a = b <;> simp [h]

theorem nodup_distinct (as : List α) : (distinct as).Nodup := by
  induction as with
  | nil => exact .nil
  | cons a as ih => exact List.nodup_cons.mpr ⟨by simp, ih.filter _⟩

/-- The distinct values that some things have come in the order in which the things first have
them. -/
theorem pairwise_distinct_filterMap {β : Type} (value? : β → Option α)
    (xs : List β) : (distinct (xs.filterMap value?)).Pairwise fun a b =>
      xs.findIdx (value? · == some a) < xs.findIdx (value? · == some b) := by
  induction xs with
  | nil => exact .nil
  | cons x xs ih =>
    cases hx : value? x with
    | none =>
      rw [List.filterMap_cons_none hx]
      refine ih.imp fun hlt => ?_
      simpa [List.findIdx_cons, hx] using hlt
    | some a =>
      rw [List.filterMap_cons_some hx, distinct]
      have hfirst : (x :: xs).findIdx (value? · == some a) = 0 := by simp [List.findIdx_cons, hx]
      have hlater : ∀ b, b ≠ a → (x :: xs).findIdx (value? · == some b) =
          xs.findIdx (value? · == some b) + 1 := by
        intro b hb
        simp [List.findIdx_cons, hx, beq_false_of_ne (Ne.symm hb)]
      refine List.pairwise_cons.mpr ⟨fun b hb => ?_, ?_⟩
      · have hne : b ≠ a := by simpa using (List.mem_filter.mp hb).2
        rw [hfirst, hlater b hne]
        exact Nat.succ_pos _
      · refine (ih.filter _).imp_of_mem fun {b c} hb hc hlt => ?_
        have hb : b ≠ a := by simpa using (List.mem_filter.mp hb).2
        have hc : c ≠ a := by simpa using (List.mem_filter.mp hc).2
        rw [hlater b hb, hlater c hc]
        exact Nat.succ_lt_succ hlt

/-- A list has the items of another, each once, in the order in which they first occur there. -/
structure FirstOccurrences (as bs : List α) : Prop where
  nodup : bs.Nodup
  mem_iff : ∀ a, a ∈ bs ↔ a ∈ as
  ordered : bs.Pairwise fun a b => as.idxOf a < as.idxOf b

theorem firstOccurrences_distinct (as : List α) : FirstOccurrences as (distinct as) := by
  refine ⟨nodup_distinct as, fun _ => mem_distinct, ?_⟩
  have hordered := pairwise_distinct_filterMap some as
  rw [List.filterMap_some] at hordered
  simpa [List.idxOf] using hordered

end

end Durable
