/-
Lines and columns name the places of a text.

A table of the offsets at which lines start is searched for the last one that is not behind an
offset.  What the search comes to depends only on the characters that end at or in front of the
offset: the table of the whole text is the table of those characters, followed by starts that are
all behind the offset (`filter_lineStarts`).  So the line is one more than the number of newlines
in front of the offset, and, at the boundary of a character, the column is one more than the number
of characters since the last of them.

Going on in a text either passes a newline, which raises the line, or stays on the line and raises
the column.  Hence the order of places is the order of their lines and columns, and diagnostics of
one file that are sorted by the second are sorted by the first.
-/
import Mathlib.Data.List.DropRight
import Mathlib.Data.Prod.Lex
import Durable.Proofs.Package.Canonical
import Durable.Proofs.Token.Faults

namespace Durable

namespace Text

variable {cs before after : List Char} {offset : Nat}

/-- An offset in front of a character of a text, or at its end. -/
def IsBoundary (cs : List Char) (offset : Nat) : Prop :=
  ∃ before after, cs = before ++ after ∧ byteLength before = offset

/-! ### The table of line starts -/

theorem newlineStops_append (offset : Nat) (a b : List Char) :
    newlineStops offset (a ++ b) =
      newlineStops offset a ++ newlineStops (offset + byteLength a) b := by
  induction a generalizing offset with
  | nil => rfl
  | cons c a ih =>
    rw [List.cons_append, newlineStops, newlineStops, ih, byteLength_cons, ← Nat.add_assoc]
    split <;> rfl

theorem lineStarts_append (a b : List Char) :
    lineStarts (a ++ b) = lineStarts a ++ newlineStops (byteLength a) b := by
  rw [lineStarts, newlineStops_append, Nat.zero_add]
  rfl

theorem length_newlineStops (offset : Nat) (cs : List Char) :
    (newlineStops offset cs).length = cs.count '\n' := by
  induction cs generalizing offset with
  | nil => rfl
  | cons c cs ih =>
    rw [newlineStops, List.count_cons]
    split
    · next h => simp [h, ih]
    · next h => simp [h, ih]

/-- There is one line more than there are newlines. -/
@[simp] theorem length_lineStarts (cs : List Char) :
    (lineStarts cs).length = cs.count '\n' + 1 := by
  rw [lineStarts, List.length_cons, length_newlineStops]

theorem le_of_mem_newlineStops {start : Nat} (h : start ∈ newlineStops offset cs) :
    start ≤ offset + byteLength cs := by
  induction cs generalizing offset with
  | nil => exact absurd h List.not_mem_nil
  | cons c cs ih =>
    rw [byteLength_cons, ← Nat.add_assoc]
    rw [newlineStops] at h
    split at h
    · rcases List.mem_cons.mp h with rfl | h
      · exact Nat.le_add_right _ _
      · exact ih h
    · exact ih h

theorem le_of_mem_lineStarts {start : Nat} (h : start ∈ lineStarts cs) :
    start ≤ byteLength cs := by
  rcases List.mem_cons.mp h with rfl | h
  · exact Nat.zero_le _
  · exact Nat.zero_add (byteLength cs) ▸ le_of_mem_newlineStops h

/-- The first start behind an offset is behind the character that stands there. -/
theorem lt_of_mem_newlineStops {start bound : Nat}
    (hbound : ∀ c rest, cs = c :: rest → bound < offset + c.utf8Size)
    (h : start ∈ newlineStops offset cs) : bound < start := by
  induction cs generalizing offset with
  | nil => exact absurd h List.not_mem_nil
  | cons c cs ih =>
    have hc := hbound c cs rfl
    have hlater : start ∈ newlineStops (offset + c.utf8Size) cs → bound < start :=
      ih fun d rest _ => Nat.lt_add_right _ hc
    rw [newlineStops] at h
    split at h
    · rcases List.mem_cons.mp h with rfl | h
      · exact hc
      · exact hlater h
    · exact hlater h

/-- The last line of a text starts behind its last newline. -/
theorem getLast?_lineStarts (cs : List Char) :
    (lineStarts cs).getLast? = some (byteLength (cs.rdropWhile (· ≠ '\n'))) := by
  induction cs using List.reverseRecOn with
  | nil => rfl
  | append_singleton cs c ih =>
    rw [lineStarts_append, List.rdropWhile_concat]
    by_cases hc : c = '\n'
    · simp [newlineStops, hc]
    · simpa [newlineStops, hc] using ih

/-! ### The search -/

/-- The characters that end at or in front of an offset, and those that do not. -/
theorem exists_cut_at (cs : List Char) (offset : Nat) :
    ∃ before after, cs = before ++ after ∧ byteLength before ≤ offset ∧
      ∀ c rest, after = c :: rest → offset < byteLength before + c.utf8Size := by
  induction cs generalizing offset with
  | nil => exact ⟨[], [], rfl, Nat.zero_le _, fun c rest h => by simp at h⟩
  | cons c cs ih =>
    by_cases hc : c.utf8Size ≤ offset
    · obtain ⟨before, after, rfl, hle, hlt⟩ := ih (offset - c.utf8Size)
      refine ⟨c :: before, after, rfl, by rw [byteLength_cons]; omega, fun d rest h => ?_⟩
      have := hlt d rest h
      rw [byteLength_cons]
      omega
    · refine ⟨[], c :: cs, rfl, Nat.zero_le _, fun d rest h => ?_⟩
      obtain ⟨rfl, -⟩ := List.cons.inj h
      rw [byteLength_nil]
      omega

/-- **The lines that start at or in front of an offset** are those of the characters that end
there. -/
theorem filter_lineStarts (hle : byteLength before ≤ offset)
    (hlt : ∀ c rest, after = c :: rest → offset < byteLength before + c.utf8Size) :
    (lineStarts (before ++ after)).filter (· ≤ offset) = lineStarts before := by
  have hfront : (lineStarts before).filter (· ≤ offset) = lineStarts before :=
    List.filter_eq_self.mpr fun start h =>
      decide_eq_true (Nat.le_trans (le_of_mem_lineStarts h) hle)
  have hback : (newlineStops (byteLength before) after).filter (· ≤ offset) = [] :=
    List.filter_eq_nil_iff.mpr fun start h => by
      simpa using lt_of_mem_newlineStops hlt h
  rw [lineStarts_append, List.filter_append, hfront, hback, List.append_nil]

/-- What the search for an offset gives: a line of the text, which starts at or in front of the
offset, while the next one, if there is one, starts behind it. -/
theorem line_cases (cs : List Char) (offset : Nat) :
    ∃ i, (lineCol cs offset).1 = i + 1 ∧ i ≤ cs.count '\n' ∧
      (∃ start, (lineStarts cs)[i]? = some start ∧ start ≤ offset) ∧
      ∀ next, (lineStarts cs)[i + 1]? = some next → offset < next := by
  obtain ⟨before, after, rfl, hle, hlt⟩ := exists_cut_at cs offset
  refine ⟨before.count '\n', ?_, by simp, ?_, fun next h => ?_⟩
  · rw [lineCol, filter_lineStarts hle hlt, length_lineStarts]
  · have hin : before.count '\n' < (lineStarts before).length := by simp
    refine ⟨(lineStarts before)[before.count '\n'], ?_, ?_⟩
    · rw [lineStarts_append, List.getElem?_append_left hin, List.getElem?_eq_getElem hin]
    · exact Nat.le_trans (le_of_mem_lineStarts (List.getElem_mem hin)) hle
  · rw [lineStarts_append, List.getElem?_append_right (by simp), length_lineStarts] at h
    exact lt_of_mem_newlineStops hlt (List.mem_of_getElem? h)

/-- **The line and the column of the boundary of a character**: one more than the number of
newlines in front of it, and one more than the number of characters since the last of them. -/
theorem lineCol_append (before after : List Char) :
    lineCol (before ++ after) (byteLength before) =
      (before.count '\n' + 1, (before.rtakeWhile (· ≠ '\n')).length + 1) := by
  have hstarts : (lineStarts (before ++ after)).filter (· ≤ byteLength before) =
      lineStarts before :=
    filter_lineStarts (Nat.le_refl _) fun c _ _ => Nat.lt_add_of_pos_right c.utf8Size_pos
  have hparts : before.rdropWhile (· ≠ '\n') ++ before.rtakeWhile (· ≠ '\n') = before :=
    List.rdropWhile_append_rtakeWhile
  have hmin : min (byteLength before) (byteLength (before ++ after)) = byteLength before := by
    rw [byteLength_append]
    omega
  -- The line is sliced out between its start and the offset.
  have hslice : slice? (before ++ after) (byteLength (before.rdropWhile (· ≠ '\n')))
      (byteLength before) = some (before.rtakeWhile (· ≠ '\n')) := by
    have := slice?_append (before.rdropWhile (· ≠ '\n')) (before.rtakeWhile (· ≠ '\n')) after
    rwa [← byteLength_append, hparts] at this
  rw [lineCol, hstarts, List.getLastD_eq_getLast?, getLast?_lineStarts, Option.getD_some, hmin,
    hslice, length_lineStarts]

/-! ### The order of places -/

/-- Further on in a text the line is a later one, or the column is a later one of the same line. -/
theorem lineCol_lt_append (before more after : List Char) (h : more ≠ []) :
    toLex (lineCol (before ++ (more ++ after)) (byteLength before)) <
      toLex (lineCol (before ++ (more ++ after)) (byteLength (before ++ more))) := by
  rw [lineCol_append, ← List.append_assoc, lineCol_append, Prod.Lex.toLex_lt_toLex]
  by_cases hline : '\n' ∈ more
  · have := List.count_pos_iff.mpr hline
    exact .inl (by rw [List.count_append]; omega)
  · have hsame : (before ++ more).rtakeWhile (· ≠ '\n') =
        before.rtakeWhile (· ≠ '\n') ++ more := by
      rw [List.rtakeWhile, List.reverse_append, List.takeWhile_append_of_pos, List.reverse_append,
        List.reverse_reverse, ← List.rtakeWhile]
      intro c hc
      exact decide_eq_true fun heq => hline (heq ▸ List.mem_reverse.mp hc)
    have := List.length_pos_iff.mpr h
    refine .inr ⟨?_, ?_⟩
    · rw [List.count_append, List.count_eq_zero_of_not_mem hline, Nat.add_zero]
    · rw [hsame, List.length_append]
      omega

theorem lineCol_lt_of_lt {p q : Nat} (hp : IsBoundary cs p) (hq : IsBoundary cs q) (h : p < q) :
    toLex (lineCol cs p) < toLex (lineCol cs q) := by
  obtain ⟨a, x, rfl, rfl⟩ := hp
  obtain ⟨b, y, heq, rfl⟩ := hq
  obtain ⟨more, rfl⟩ := exists_append_of_byteLength_le heq (Nat.le_of_lt h)
  obtain rfl : x = more ++ y := by simpa using heq
  exact lineCol_lt_append a more y fun hnil => by simp [hnil] at h

/-- **Lines and columns are in the order of the places they name.** -/
theorem lineCol_lt_iff {p q : Nat} (hp : IsBoundary cs p) (hq : IsBoundary cs q) :
    toLex (lineCol cs p) < toLex (lineCol cs q) ↔ p < q := by
  refine ⟨fun h => ?_, lineCol_lt_of_lt hp hq⟩
  rcases Nat.lt_trichotomy p q with hlt | rfl | hgt
  · exact hlt
  · exact absurd h (lt_irrefl _)
  · exact absurd (h.trans (lineCol_lt_of_lt hq hp hgt)) (lt_irrefl _)

theorem lineCol_eq_iff {p q : Nat} (hp : IsBoundary cs p) (hq : IsBoundary cs q) :
    lineCol cs p = lineCol cs q ↔ p = q := by
  refine ⟨fun h => ?_, congrArg _⟩
  rcases Nat.lt_trichotomy p q with hlt | heq | hgt
  · exact absurd (lineCol_lt_of_lt hp hq hlt) (by rw [h]; exact lt_irrefl _)
  · exact heq
  · exact absurd (lineCol_lt_of_lt hq hp hgt) (by rw [h]; exact lt_irrefl _)

end Text

/-! ### Sorting by line and column -/

/-- To compare lines and columns is to compare places. -/
theorem Text.compare_lineCol {cs : List Char} {p q : Nat} (hp : IsBoundary cs p)
    (hq : IsBoundary cs q) :
    (compare (lineCol cs p).1 (lineCol cs q).1).then (compare (lineCol cs p).2 (lineCol cs q).2) =
      compare p q := by
  rcases Nat.lt_trichotomy p q with hlt | rfl | hgt
  · rw [Nat.compare_eq_lt.mpr hlt]
    rcases Prod.Lex.toLex_lt_toLex.mp (lineCol_lt_of_lt hp hq hlt) with h | ⟨heq, h⟩
    · rw [Nat.compare_eq_lt.mpr h]
      rfl
    · rw [Nat.compare_eq_eq.mpr heq, Nat.compare_eq_lt.mpr h]
      rfl
  · simp
  · rw [Nat.compare_eq_gt.mpr hgt]
    rcases Prod.Lex.toLex_lt_toLex.mp (lineCol_lt_of_lt hq hp hgt) with h | ⟨heq, h⟩
    · rw [Nat.compare_eq_gt.mpr h]
      rfl
    · rw [Nat.compare_eq_eq.mpr heq.symm, Nat.compare_eq_gt.mpr h]
      rfl

/-- The order of the findings of a text: by place and rule. -/
def Finding.compare (a b : Finding) : Ordering :=
  (Ord.compare a.span.start b.span.start).then (Ord.compare a.violation.number b.violation.number)

/-- The start of a span that cuts a piece out of a text is a boundary. -/
theorem Span.Cuts.isBoundary {s : Span} {cs : List Char} (h : s.Cuts cs) :
    Text.IsBoundary cs s.start := by
  obtain ⟨front, piece, rest, rfl, rfl⟩ := h
  exact ⟨front, piece ++ rest, by simp, rfl⟩

theorem Diagnostic.compare_ofFinding {source : Source} {a b : Finding}
    (ha : a.span.Cuts source.text.toList) (hb : b.span.Cuts source.text.toList) :
    (ofFinding source a).compare (ofFinding source b) = a.compare b := by
  have hfile : Path.compare source.path source.path = .eq :=
    Std.ReflCmp.compare_self (a := Path.components source.path)
  have hplace := Text.compare_lineCol ha.isBoundary hb.isBoundary
  rw [Finding.compare, ← hplace, Ordering.then_assoc, Diagnostic.compare]
  show (Path.compare source.path source.path).then _ = _
  rw [hfile]
  rfl

namespace Source

/-- **Lines and columns name the places of a text exactly.**  At the boundary of a character they
count what is in front of it, so they come in the order of the places, and findings that are sorted
by them are sorted by place.  At any offset at all the search ends at a line of the text. -/
theorem lineCol_exact (s : Source) :
    (∀ before after, s.text.toList = before ++ after →
      s.lineCol (Text.byteLength before) =
        (before.count '\n' + 1, (before.rtakeWhile (· ≠ '\n')).length + 1)) ∧
    (∀ p q, Text.IsBoundary s.text.toList p → Text.IsBoundary s.text.toList q →
      (toLex (s.lineCol p) < toLex (s.lineCol q) ↔ p < q) ∧
        (s.lineCol p = s.lineCol q ↔ p = q)) ∧
    (∀ fs : List Finding, (∀ f ∈ fs, f.span.Cuts s.text.toList) →
      Diagnostics.sorted (fs.map (.ofFinding s)) =
        (sortBy (fun a b => (a.compare b).isLE) fs).map (.ofFinding s)) ∧
    ∀ offset, ∃ i, (s.lineCol offset).1 = i + 1 ∧ i ≤ s.text.toList.count '\n' ∧
      (∃ start, (Text.lineStarts s.text.toList)[i]? = some start ∧ start ≤ offset) ∧
      ∀ next, (Text.lineStarts s.text.toList)[i + 1]? = some next → offset < next := by
  refine ⟨fun before after h => ?_, fun p q hp hq => ?_, fun fs h => ?_, fun offset => ?_⟩
  · rw [lineCol, h, Text.lineCol_append]
  · exact ⟨Text.lineCol_lt_iff hp hq, Text.lineCol_eq_iff hp hq⟩
  · refine sortBy_map fun a ha b hb => ?_
    rw [Diagnostic.compare_ofFinding (h a ha) (h b hb)]
  · exact Text.line_cases s.text.toList offset

/-- A text with a character of two bytes, an empty line and no newline at its end. -/
def accented : Source := ⟨"a.bal", "é\n\nb"⟩

theorem lineCol_exact_accented :
    accented.lineCol 4 = (3, 1) ∧ toLex (accented.lineCol 2) < toLex (accented.lineCol 4) ∧
      Diagnostics.sorted ([⟨.methodParam, ⟨4, 5⟩⟩, ⟨.methodReturn, ⟨0, 2⟩⟩].map (.ofFinding accented)) =
        [⟨.methodReturn, ⟨0, 2⟩⟩, ⟨.methodParam, ⟨4, 5⟩⟩].map (.ofFinding accented) ∧
      (∃ i, (accented.lineCol 1).1 = i + 1 ∧ i ≤ 2) ∧ ∃ i, (accented.lineCol 9).1 = i + 1 ∧ i ≤ 2 := by
  have htext : accented.text.toList = ['é', '\n'] ++ ['\n', 'b'] := by decide
  obtain ⟨hplace, horder, hsorted, hline⟩ := lineCol_exact accented
  have hend : accented.text.toList = ['é', '\n', '\n'] ++ ['b'] := htext
  have hfirst : accented.text.toList = ['é'] ++ ['\n', '\n', 'b'] := htext
  refine ⟨hplace _ _ hend, (horder 2 4 ⟨_, _, hfirst, by decide⟩ ⟨_, _, hend, by decide⟩).1.mpr
    (by decide), ?_, ?_, ?_⟩
  · refine hsorted [⟨.methodParam, ⟨4, 5⟩⟩, ⟨.methodReturn, ⟨0, 2⟩⟩] fun f hf => ?_
    rcases List.mem_cons.mp hf with rfl | hf
    · exact ⟨['é', '\n', '\n'], ['b'], [], hend, by decide⟩
    · obtain rfl := List.mem_singleton.mp hf
      exact ⟨[], ['é'], ['\n', '\n', 'b'], hfirst, by decide⟩
  · obtain ⟨i, hi, hle, -⟩ := hline 1
    exact ⟨i, hi, by simpa [htext] using hle⟩
  · obtain ⟨i, hi, hle, -⟩ := hline 9
    exact ⟨i, hi, by simpa [htext] using hle⟩

end Source

end Durable
