/-
Cutting a text at a byte offset.

`splitAtByte` succeeds exactly at the offsets that are the byte length of some part the text
starts with, and then gives that part and what follows it.  Everything that is later said
about spans rests on this: a span of a text is the byte length of what stands before it, and
slicing by it gives the characters in between.
-/
import Mathlib.Data.List.Basic
import Durable.Text.Source

namespace Durable.Text

@[simp] theorem byteLength_nil : byteLength [] = 0 := rfl

@[simp] theorem byteLength_cons (c : Char) (cs : List Char) :
    byteLength (c :: cs) = c.utf8Size + byteLength cs := rfl

@[simp] theorem byteLength_append (a b : List Char) :
    byteLength (a ++ b) = byteLength a + byteLength b := by
  induction a with
  | nil => simp
  | cons c a ih => simp [ih, Nat.add_assoc]

theorem byteLength_pos {cs : List Char} (h : cs ≠ []) : 0 < byteLength cs := by
  cases cs with
  | nil => exact absurd rfl h
  | cons c cs =>
    have hc : 0 < c.utf8Size := Char.utf8Size_pos c
    rw [byteLength_cons]
    omega

theorem byteLength_eq_zero {cs : List Char} : byteLength cs = 0 ↔ cs = [] := by
  refine ⟨fun h => ?_, fun h => by rw [h]; rfl⟩
  by_contra hne
  have := byteLength_pos hne
  omega

/-- A text can be cut behind any part it starts with. -/
theorem splitAtByte_append (a b : List Char) :
    splitAtByte (byteLength a) (a ++ b) = some (a, b) := by
  induction a with
  | nil => cases b <;> rfl
  | cons c a ih =>
    have hc : 0 < c.utf8Size := Char.utf8Size_pos c
    obtain ⟨n, hn⟩ : ∃ n, byteLength (c :: a) = n + 1 :=
      ⟨byteLength (c :: a) - 1, by rw [byteLength_cons]; omega⟩
    have hrest : n + 1 - c.utf8Size = byteLength a := by
      rw [← hn, byteLength_cons]
      omega
    have hle : c.utf8Size ≤ n + 1 := by
      rw [← hn, byteLength_cons]
      omega
    rw [hn, List.cons_append, splitAtByte, if_pos hle, hrest, ih]
    rfl

/-- A text is cut nowhere else. -/
theorem splitAtByte_eq_some {n : Nat} {cs a b : List Char} (h : splitAtByte n cs = some (a, b)) :
    cs = a ++ b ∧ byteLength a = n := by
  induction cs generalizing n a with
  | nil =>
    cases n with
    | zero =>
      obtain ⟨rfl, rfl⟩ : [] = a ∧ [] = b := by simpa [splitAtByte] using h
      exact ⟨rfl, rfl⟩
    | succ n => simp [splitAtByte] at h
  | cons c cs ih =>
    cases n with
    | zero =>
      obtain ⟨rfl, rfl⟩ : [] = a ∧ c :: cs = b := by simpa [splitAtByte] using h
      exact ⟨rfl, rfl⟩
    | succ n =>
      rw [splitAtByte] at h
      split at h
      · obtain ⟨⟨a', b'⟩, hcut, heq⟩ := Option.map_eq_some_iff.mp h
        obtain ⟨rfl, rfl⟩ := Prod.mk.inj heq
        obtain ⟨rfl, hlen⟩ := ih hcut
        exact ⟨rfl, by rw [byteLength_cons]; omega⟩
      · simp at h

/-- A text is cut in one way at an offset. -/
theorem append_inj_of_byteLength {a b x y : List Char} (h : a ++ x = b ++ y)
    (hlen : byteLength a = byteLength b) : a = b ∧ x = y := by
  have hsplit := splitAtByte_append a x
  rw [h, hlen, splitAtByte_append] at hsplit
  simp only [Option.some.injEq, Prod.mk.injEq] at hsplit
  exact ⟨hsplit.1.symm, hsplit.2.symm⟩

/-- Of two parts that a text starts with the longer one starts with the other. -/
theorem exists_append_of_byteLength_le {a b x y : List Char} (h : a ++ x = b ++ y)
    (hle : byteLength a ≤ byteLength b) : ∃ z, b = a ++ z := by
  rcases List.append_eq_append_iff.mp h with ⟨z, rfl, -⟩ | ⟨more, rfl, -⟩
  · exact ⟨z, rfl⟩
  · rw [byteLength_append] at hle
    have : more = [] := byteLength_eq_zero.mp (by omega)
    exact ⟨[], by simp [this]⟩

/-- Slicing between two cuts gives what stands between them. -/
theorem slice?_append (a b c : List Char) :
    slice? (a ++ b ++ c) (byteLength a) (byteLength a + byteLength b) = some b := by
  have hle : byteLength a ≤ byteLength a + byteLength b := by omega
  have hsub : byteLength a + byteLength b - byteLength a = byteLength b := by omega
  rw [slice?, if_pos hle, List.append_assoc, splitAtByte_append, hsub]
  simp only [Option.bind_eq_bind, Option.bind_some, splitAtByte_append]
  rfl

end Durable.Text

namespace Durable.Source

/-- The slice of a source between two cuts of its text. -/
theorem slice_append {s : Source} {a b c : List Char} (h : s.text.toList = a ++ b ++ c) :
    s.slice ⟨Text.byteLength a, Text.byteLength a + Text.byteLength b⟩ = String.ofList b := by
  rw [slice, h, Text.slice?_append]
  rfl

end Durable.Source
