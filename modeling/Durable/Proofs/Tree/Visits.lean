/-
Everything in a tree is visited once.

A node occurs in another at the end of a way through places (`Node.Occurs`), and two occurrences are
the same exactly when their ways are.  A position leads the same way by the indexes of children that
a way leads by the names of places (`Node.slotsAlong`), because children are what stands at the
listed places.  So ways and positions match one to one, but for the ways that end in a silent
place, and reading the nodes of an outline from position to position visits every occurrence once.
-/
import Durable.Proofs.Tree.Slots

namespace Durable

namespace Node

/-- A node occurs in another, at the end of a way through places. -/
inductive Occurs : Node → List Slot → Node → Prop
  | here (n) : Occurs n [] n
  | inside {n slot c way k} (h : n.Holds slot c) (hk : Occurs c way k) : Occurs n (slot :: way) k

/-- The places that a position leads through. -/
def slotsAlong : Node → List Nat → List Slot
  | _, [] => []
  | n, i :: path =>
    match n.places[i]? with
    | some (slot, c) => slot :: c.slotsAlong path
    | none => []

variable {n k k' c : Node} {slot : Slot} {way : List Slot} {path path' : List Nat} {i : Nat}

/-! ### Silent places -/

/-- A place is passed over exactly when a name stands there that is not that of a value. -/
theorem Holds.isSilent_iff (h : n.Holds slot k) :
    slot.isSilent = false ↔ ∀ r, k = .ref r → slot ∈ [.name, .callee, .shorthand] := by
  grind

/-- What stands at a silent place is a name. -/
theorem Holds.eq_ref (h : n.Holds slot k) (hslot : slot.isSilent = true) : ∃ r, k = .ref r := by
  grind

/-- A way ends where it begins, or at a place of what is before it. -/
theorem Occurs.eq_or_exists (h : n.Occurs way k) : (way = [] ∧ k = n) ∨
    ∃ above slot holder, way = above ++ [slot] ∧ n.Occurs above holder ∧ holder.Holds slot k := by
  induction h with
  | here n => exact .inl ⟨rfl, rfl⟩
  | @inside n slot c way k hc hk ih =>
    rcases ih with ⟨rfl, rfl⟩ | ⟨above, last, holder, rfl, hholder, hlast⟩
    · exact .inr ⟨[], slot, n, rfl, .here n, hc⟩
    · exact .inr ⟨slot :: above, last, holder, rfl, .inside hc hholder, hlast⟩

/-- A way leads through no silent place unless it ends there, for nothing stands in a name. -/
theorem Occurs.eq_ref_of_mem (h : n.Occurs way k) (hslot : slot ∈ way)
    (hsilent : slot.isSilent = true) : ∃ r, k = .ref r := by
  induction h with
  | here n => simp at hslot
  | @inside n slot' c way k hc hk ih =>
    rcases List.mem_cons.mp hslot with rfl | hslot
    · obtain ⟨r, rfl⟩ := hc.eq_ref hsilent
      cases hk with
      | here => exact ⟨r, rfl⟩
      | inside hnone => nomatch hnone
    · exact ih hslot

/-- A way that leads to something in a module leads through no silent place exactly when it leads to
the name of a value, if to a name at all. -/
theorem Occurs.forall_not_silent_iff {m : Module} (h : (Node.module m).Occurs way k) :
    (∀ slot ∈ way, slot.isSilent = false) ↔
      ∀ r, k = .ref r → way.getLast? ∈ [some .name, some .callee, some .shorthand] := by
  rcases h.eq_or_exists with ⟨rfl, rfl⟩ | ⟨above, last, holder, rfl, habove, hlast⟩
  · simp
  · have hloud : ∀ slot ∈ above, slot.isSilent = false := by
      intro slot hslot
      refine Bool.eq_false_iff.mpr fun hsilent => ?_
      obtain ⟨r, rfl⟩ := habove.eq_ref_of_mem hslot hsilent
      nomatch hlast
    rw [List.getLast?_concat]
    have hall : (∀ slot ∈ above ++ [last], slot.isSilent = false) ↔ last.isSilent = false :=
      ⟨fun h => h last (by simp), fun h => List.forall_mem_append.mpr ⟨hloud, by simpa using h⟩⟩
    rw [hall]
    simpa using hlast.isSilent_iff

/-! ### Ways and positions -/

/-- A position inside a node leads through a listed place first. -/
theorem at?_cons_iff : n.at? (i :: path) = some k ↔
    ∃ slot c, n.places[i]? = some (slot, c) ∧ c.at? path = some k := by
  rw [at?_cons, ← n.listing.nodes, List.getElem?_map]
  constructor
  · rintro ⟨c, hc, hk⟩
    obtain ⟨⟨slot, c⟩, hplace, rfl⟩ := Option.map_eq_some_iff.mp hc
    exact ⟨slot, c, hplace, hk⟩
  · rintro ⟨slot, c, hplace, hk⟩
    exact ⟨c, by rw [hplace]; rfl, hk⟩

theorem slotsAlong_cons (h : n.places[i]? = some (slot, c)) :
    n.slotsAlong (i :: path) = slot :: c.slotsAlong path := by
  rw [slotsAlong, h]

/-- What stands at a position occurs at the end of the way that the position leads. -/
theorem occurs_slotsAlong (h : n.at? path = some k) :
    n.Occurs (n.slotsAlong path) k ∧ ∀ slot ∈ n.slotsAlong path, slot.isSilent = false := by
  induction path generalizing n with
  | nil =>
    obtain rfl := Option.some.inj h
    exact ⟨.here n, by simp [slotsAlong]⟩
  | cons i path ih =>
    obtain ⟨slot, c, hc, hk⟩ := at?_cons_iff.mp h
    obtain ⟨hslot, hloud⟩ := (n.listing.exact slot c).mp (List.mem_of_getElem? hc)
    rw [slotsAlong_cons hc]
    exact ⟨.inside hslot (ih hk).1, List.forall_mem_cons.mpr ⟨hloud, (ih hk).2⟩⟩

/-- A way without silent places is led by a position. -/
theorem Occurs.exists_at? (h : n.Occurs way k) (hway : ∀ slot ∈ way, slot.isSilent = false) :
    ∃ path, n.at? path = some k ∧ n.slotsAlong path = way := by
  induction h with
  | here n => exact ⟨[], rfl, rfl⟩
  | @inside n slot c way k hc hk ih =>
    obtain ⟨hslot, hway⟩ := List.forall_mem_cons.mp hway
    obtain ⟨path, hpath, rfl⟩ := ih hway
    obtain ⟨i, hi⟩ := List.mem_iff_getElem?.mp ((n.listing.exact slot c).mpr ⟨hc, hslot⟩)
    exact ⟨i :: path, at?_cons_iff.mpr ⟨slot, c, hi, hpath⟩, slotsAlong_cons hi⟩

/-- Different positions lead different ways. -/
theorem slotsAlong_inj (h : n.at? path = some k) (h' : n.at? path' = some k')
    (heq : n.slotsAlong path = n.slotsAlong path') : path = path' := by
  induction path generalizing n path' with
  | nil =>
    cases path' with
    | nil => rfl
    | cons i path' =>
      obtain ⟨slot, c, hc, -⟩ := at?_cons_iff.mp h'
      rw [slotsAlong_cons hc] at heq
      nomatch heq
  | cons i path ih =>
    obtain ⟨slot, c, hc, hk⟩ := at?_cons_iff.mp h
    rw [slotsAlong_cons hc] at heq
    cases path' with
    | nil => nomatch heq
    | cons i' path' =>
      obtain ⟨slot', c', hc', hk'⟩ := at?_cons_iff.mp h'
      rw [slotsAlong_cons hc'] at heq
      obtain ⟨rfl, htail⟩ := List.cons.inj heq
      obtain rfl := n.listing.distinct.eq_of_getElem? hc hc'
      obtain rfl := (Prod.mk.inj (Option.some.inj (hc.symm.trans hc'))).2
      rw [ih hk hk' htail]

end Node

/-- **Everything in a module is visited, and nothing twice.**  The visits of a walk over a module
can be labelled with ways, no two alike, so that they are exactly the occurrences of nodes in the
module: those of names only where a name is that of a value, in a name expression, as a callee or
as a shorthand field. -/
theorem Module.visits_exact (m : Module) : ∃ visited : List (List Slot × Node),
    visited.map (·.2) = m.outline.nodes ∧ (visited.map (·.1)).Nodup ∧
      ∀ way n, (way, n) ∈ visited ↔ (Node.module m).Occurs way n ∧
        ∀ r, n = .ref r → way.getLast? ∈ [some .name, some .callee, some .shorthand] := by
  let root := Node.module m
  refine ⟨root.outline.positions.map fun x => (root.slotsAlong x.1, x.2), ?_, ?_, ?_⟩
  · rw [List.map_map]
    exact root.outline.nodes_eq.symm
  · rw [List.map_map, List.Nodup, List.pairwise_map]
    refine root.outline.pairwise_positions.imp_of_mem fun hx hy hlt heq => ?_
    have hpath := Node.slotsAlong_inj (Node.mem_positions.mp hx) (Node.mem_positions.mp hy) heq
    exact absurd hlt (hpath ▸ List.lt_irrefl _)
  · intro way n
    rw [List.mem_map]
    constructor
    · rintro ⟨⟨path, k⟩, hk, heq⟩
      obtain ⟨rfl, rfl⟩ := Prod.mk.inj heq
      obtain ⟨hoccurs, hloud⟩ := Node.occurs_slotsAlong (Node.mem_positions.mp hk)
      exact ⟨hoccurs, hoccurs.forall_not_silent_iff.mp hloud⟩
    · rintro ⟨hoccurs, hname⟩
      obtain ⟨path, hpath, rfl⟩ := hoccurs.exists_at? (hoccurs.forall_not_silent_iff.mpr hname)
      exact ⟨(path, n), Node.mem_positions.mpr hpath, rfl⟩

end Durable
