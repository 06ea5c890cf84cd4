/-
Values cross to the engine and back.

What is built from nil, booleans, whole numbers, finite floating-point numbers, strings, arrays and
maps crosses over and comes back as it was, bits included; an engine value whose whole numbers fit a
word with a sign comes over and goes back as it was.  Everything else that fails does so for one of
three reasons, each of them seen at one leaf: a function, a number that is not finite, a decimal
that spells no number.  A leaf is found by a way of steps through the parts of containers, and ways
are compared step by step, items by their places and fields by their keys; the error is that of the
leaf whose way comes first.

A map is the list of its entries, so that order is the order of keys only where the entries stand in
it.  They do in every map that is put together entry by entry (`Ordered.map_ofEntries`).
-/
import Mathlib.Data.List.Pairwise
import Mathlib.Data.String.Basic
import Mathlib.Order.Basic
import Durable.Value.Convert

namespace Durable

/-! ### Tables in order -/

namespace Table

variable {α : Type}

/-- The keys of a table stand in order, each once. -/
def Sorted (t : Table α) : Prop := t.Pairwise fun x y => x.1 < y.1

theorem mem_put {t : Table α} {key : String} {a : α} {x : String × α} (h : x ∈ t.put key a) :
    x = (key, a) ∨ x ∈ t := by
  induction t with
  | nil => simpa [put] using h
  | cons entry more ih =>
    obtain ⟨k, b⟩ := entry
    rw [put] at h
    split at h
    · rcases List.mem_cons.mp h with h | h
      · exact .inl h
      · exact .inr (List.mem_cons_of_mem _ h)
    split at h
    · exact (List.mem_cons.mp h)
    · rcases List.mem_cons.mp h with rfl | h
      · exact .inr List.mem_cons_self
      · exact (ih h).imp id (List.mem_cons_of_mem _)

theorem Sorted.put {t : Table α} (h : Sorted t) (key : String) (a : α) :
    Sorted (t.put key a) := by
  induction t with
  | nil => exact List.pairwise_singleton _ _
  | cons entry more ih =>
    obtain ⟨k, b⟩ := entry
    obtain ⟨hfirst, hmore⟩ := List.pairwise_cons.mp h
    rw [Table.put]
    split
    · next heq => exact List.pairwise_cons.mpr ⟨fun y hy => heq ▸ hfirst y hy, hmore⟩
    split
    · next hne hlt =>
      refine List.pairwise_cons.mpr ⟨fun y hy => ?_, h⟩
      rcases List.mem_cons.mp hy with rfl | hy
      · exact hlt
      · exact lt_trans hlt (hfirst y hy)
    · next hne hle =>
      refine List.pairwise_cons.mpr ⟨fun y hy => ?_, ih hmore⟩
      rcases mem_put hy with rfl | hy
      · exact lt_of_le_of_ne (not_lt.mp hle) hne
      · exact hfirst y hy

theorem mem_foldl_put {entries : List (String × α)} {t : Table α} {x : String × α}
    (h : x ∈ entries.foldl (fun t (key, a) => t.put key a) t) : x ∈ entries ∨ x ∈ t := by
  induction entries generalizing t with
  | nil => exact .inr h
  | cons entry more ih =>
    rcases ih h with h | h
    · exact .inl (List.mem_cons_of_mem _ h)
    · rcases mem_put h with rfl | h
      · exact .inl List.mem_cons_self
      · exact .inr h

theorem sorted_ofEntries (entries : List (String × α)) : Sorted (ofEntries entries) := by
  suffices h : ∀ t : Table α, Sorted t →
      Sorted (entries.foldl (fun t (key, a) => t.put key a) t) from h [] List.Pairwise.nil
  induction entries with
  | nil => exact fun _ ht => ht
  | cons entry more ih => exact fun t ht => ih _ (ht.put entry.1 entry.2)

end Table

namespace Value

/-! ### There and back -/

/-- Values that can be written down as they are. -/
inductive Serializable : Value → Prop
  | nil : Serializable .nil
  | boolean (b : Bool) : Serializable (.boolean b)
  | int (i : Int64) : Serializable (.int i)
  | float {d : Double} (finite : d.isFinite = true) : Serializable (.float d)
  | string (s : String) : Serializable (.string s)
  | array {items : List Value} (h : ∀ v ∈ items, Serializable v) : Serializable (.array items)
  | map {entries : List (String × Value)} (h : ∀ x ∈ entries, Serializable x.2) :
      Serializable (.map entries)

/-- A value crosses over and comes back as it was. -/
def Returns (v : Value) : Prop := ∃ e, v.toEngine = .ok e ∧ ofEngine e = v

theorem ofEngineNumber_ofInt64 (i : Int64) : ofEngineNumber (.ofInt64 i) = .int i := by
  have hlow := Int64.le_toInt i
  have hhigh := Int64.toInt_lt i
  rw [EngineNumber.ofInt64, ofEngineNumber, if_pos ⟨hlow, hhigh⟩, Int64.ofInt_toInt]

theorem returns_items {items : List Value} (h : ∀ v ∈ items, v.Returns) :
    ∃ es, toEngineItems items = .ok es ∧ ofEngineItems es = items := by
  induction items with
  | nil => exact ⟨[], rfl, rfl⟩
  | cons v items ih =>
    obtain ⟨e, hv, he⟩ := h v (by simp)
    obtain ⟨es, hitems, hes⟩ := ih fun u hu => h u (by simp [hu])
    exact ⟨e :: es, by simp [toEngineItems, hv, hitems, bind, Except.bind, pure, Except.pure],
      by rw [ofEngineItems, he, hes]⟩

theorem returns_fields {entries : List (String × Value)} (h : ∀ x ∈ entries, x.2.Returns) :
    ∃ es, toEngineFields entries = .ok es ∧ ofEngineFields es = entries := by
  induction entries with
  | nil => exact ⟨[], rfl, rfl⟩
  | cons entry entries ih =>
    obtain ⟨key, v⟩ := entry
    obtain ⟨e, hv, he⟩ := h (key, v) (by simp)
    obtain ⟨es, hentries, hes⟩ := ih fun u hu => h u (by simp [hu])
    exact ⟨(key, e) :: es,
      by simp [toEngineFields, hv, hentries, bind, Except.bind, pure, Except.pure],
      by rw [ofEngineFields, he, hes]⟩

theorem Serializable.returns {v : Value} (h : v.Serializable) : v.Returns := by
  induction h with
  | nil => exact ⟨_, rfl, rfl⟩
  | boolean b => exact ⟨_, rfl, rfl⟩
  | int i => exact ⟨_, rfl, ofEngineNumber_ofInt64 i⟩
  | float finite => exact ⟨_, by rw [toEngine, EngineNumber.ofDouble?, dif_pos finite], rfl⟩
  | string s => exact ⟨_, rfl, rfl⟩
  | array _ ih =>
    obtain ⟨es, hitems, hes⟩ := returns_items ih
    exact ⟨.array es, by rw [toEngine, hitems]; rfl, by rw [ofEngine, hes]⟩
  | map _ ih =>
    obtain ⟨es, hentries, hes⟩ := returns_fields ih
    exact ⟨.object es, by rw [toEngine, hentries]; rfl, by rw [ofEngine, hes]⟩

end Value

namespace EngineValue

open Value

/-- All whole numbers in an engine value fit a word with a sign. -/
inductive FitsSigned : EngineValue → Prop
  | null : FitsSigned .null
  | bool (b : Bool) : FitsSigned (.bool b)
  | int {i : Int} (inRange : Word.leastSigned ≤ i ∧ i < Word.bound) (fits : i < Word.signedBound) :
      FitsSigned (.number (.int i inRange))
  | float (d : Double) (finite : d.isFinite = true) : FitsSigned (.number (.float d finite))
  | string (s : String) : FitsSigned (.string s)
  | array {items : List EngineValue} (h : ∀ e ∈ items, FitsSigned e) : FitsSigned (.array items)
  | object {fields : List (String × EngineValue)} (h : ∀ x ∈ fields, FitsSigned x.2) :
      FitsSigned (.object fields)

theorem toEngineItems_ofEngineItems {items : List EngineValue}
    (h : ∀ e ∈ items, (ofEngine e).toEngine = .ok e) :
    toEngineItems (ofEngineItems items) = .ok items := by
  induction items with
  | nil => rfl
  | cons e items ih =>
    have he := h e (by simp)
    have hitems := ih fun u hu => h u (by simp [hu])
    simp [ofEngineItems, toEngineItems, he, hitems, bind, Except.bind, pure, Except.pure]

theorem toEngineFields_ofEngineFields {fields : List (String × EngineValue)}
    (h : ∀ x ∈ fields, (ofEngine x.2).toEngine = .ok x.2) :
    toEngineFields (ofEngineFields fields) = .ok fields := by
  induction fields with
  | nil => rfl
  | cons field fields ih =>
    obtain ⟨key, e⟩ := field
    have he := h (key, e) (by simp)
    have hfields := ih fun u hu => h u (by simp [hu])
    simp [ofEngineFields, toEngineFields, he, hfields, bind, Except.bind, pure, Except.pure]

theorem FitsSigned.toEngine_ofEngine {e : EngineValue} (h : e.FitsSigned) :
    (ofEngine e).toEngine = .ok e := by
  induction h with
  | null | bool | string => rfl
  | @int i inRange fits =>
    have hi : (Int64.ofInt i).toInt = i := Int64.toInt_ofInt_of_le inRange.1 fits
    rw [ofEngine, ofEngineNumber, if_pos ⟨inRange.1, fits⟩, toEngine]
    simp only [EngineNumber.ofInt64, hi]
  | float d finite => rw [ofEngine, ofEngineNumber, toEngine, EngineNumber.ofDouble?, dif_pos finite]
  | array _ ih => rw [ofEngine, toEngine, toEngineItems_ofEngineItems ih]; rfl
  | object _ ih => rw [ofEngine, toEngine, toEngineFields_ofEngineFields ih]; rfl

end EngineValue

namespace Value

/-! ### Ways through a value -/

/-- A step from a container to one of its parts. -/
inductive Step where
  | item (index : Nat)
  | field (key : String)
deriving DecidableEq

/-- The order in which the parts of a container are read. -/
inductive Step.Before : Step → Step → Prop
  | item {i j : Nat} (h : i < j) : Before (.item i) (.item j)
  | field {k l : String} (h : k < l) : Before (.field k) (.field l)

theorem Step.Before.ne {s t : Step} (h : s.Before t) : s ≠ t := by
  rintro rfl
  cases h with
  | item h => exact absurd h (lt_irrefl _)
  | field h => exact absurd h (lt_irrefl _)

theorem Step.Before.asymm {s t : Step} (h : s.Before t) : ¬ t.Before s := by
  cases h with
  | item h => exact fun | .item h' => lt_asymm h h'
  | field h => exact fun | .field h' => lt_asymm h h'

/-- The parts of a container, each with the step to it. -/
def parts : Value → List (Step × Value)
  | array items => items.mapIdx fun i v => (.item i, v)
  | map entries => entries.map fun x => (.field x.1, x.2)
  | _ => []

/-- What stands at the end of a way through a value. -/
def at? : List Step → Value → Option Value
  | [], v => some v
  | s :: way, v => (v.parts.lookup s).bind (at? way)

/-- What keeps a value from crossing to the engine, apart from what is in it. -/
def obstacle? : Value → Option ConversionError
  | float d => if d.isFinite then none else some (.notFinite d)
  | decimal text => if (EngineNumber.read? text).isSome then none else some (.invalidDecimal text)
  | function _ => some (.unsupported "function")
  | _ => none

/-- What keeps a value from crossing because of what stands at the end of a way. -/
def obstacleAt? (v : Value) (way : List Step) : Option ConversionError :=
  (v.at? way).bind obstacle?

/-- The obstacle at the end of a way, in front of which there is none. -/
structure First (v : Value) (way : List Step) (err : ConversionError) : Prop where
  here : v.obstacleAt? way = some err
  before : ∀ earlier, List.Lex Step.Before earlier way → v.obstacleAt? earlier = none

/-- The parts of every container in a value stand in the order in which they are read: the keys of
its maps are in order, each once. -/
def Ordered (v : Value) : Prop :=
  ∀ way u, v.at? way = some u → u.parts.Pairwise fun x y => x.1.Before y.1

/-! ### The parts of a container -/

theorem sizeOf_part {v : Value} {x : Step × Value} (h : x ∈ v.parts) : sizeOf x.2 < sizeOf v := by
  cases v with
  | array items =>
    obtain ⟨i, hi, rfl⟩ := List.mem_mapIdx.mp h
    have := List.sizeOf_lt_of_mem (List.getElem_mem hi)
    simp only [array.sizeOf_spec]
    omega
  | map entries =>
    obtain ⟨⟨k, u⟩, hu, rfl⟩ := List.mem_map.mp h
    have := List.sizeOf_lt_of_mem hu
    simp only [map.sizeOf_spec, Prod.mk.sizeOf_spec] at this ⊢
    omega
  | _ => simp [parts] at h

/-- What holds of a value when it holds of its parts holds of every value. -/
theorem parts_induction {P : Value → Prop} (h : ∀ v, (∀ x ∈ v.parts, P x.2) → P v) (v : Value) :
    P v := by
  induction hn : sizeOf v using Nat.strong_induction_on generalizing v with
  | _ n ih => exact h v fun x hx => ih _ (hn ▸ sizeOf_part hx) x.2 rfl

theorem pairwise_items (items : List Value) :
    (array items).parts.Pairwise fun x y => x.1.Before y.1 := by
  rw [parts, List.pairwise_iff_getElem]
  intro i j hi hj hij
  simp only [List.getElem_mapIdx]
  exact .item hij

theorem pairwise_fields {entries : List (String × Value)} (h : Table.Sorted entries) :
    (map entries).parts.Pairwise fun x y => x.1.Before y.1 :=
  List.pairwise_map.mpr (h.imp fun hlt => .field hlt)

/-- A value is ordered when its own parts are, and each of them is. -/
theorem Ordered.of_parts {v : Value} (h : v.parts.Pairwise fun x y => x.1.Before y.1)
    (hparts : ∀ x ∈ v.parts, x.2.Ordered) : v.Ordered := by
  rintro (_ | ⟨s, way⟩) u hu
  · obtain rfl := Option.some.inj hu
    exact h
  · obtain ⟨w, hw, hu⟩ := Option.bind_eq_some_iff.mp hu
    obtain ⟨_, _, heq, -⟩ := List.lookup_eq_some_iff.mp hw
    exact hparts (s, w) (by rw [heq]; simp) way u hu

/-- **A map that is put together entry by entry is ordered**, if the values put into it are. -/
theorem Ordered.map_ofEntries {entries : List (String × Value)} (h : ∀ x ∈ entries, x.2.Ordered) :
    (map (Table.ofEntries entries)).Ordered := by
  refine .of_parts (pairwise_fields (Table.sorted_ofEntries entries)) fun x hx => ?_
  obtain ⟨y, hy, rfl⟩ := List.mem_map.mp hx
  exact (Table.mem_foldl_put hy).elim (h y) fun hnil => absurd hnil List.not_mem_nil

section

variable {v u : Value} {s : Step} {way : List Step} {err : ConversionError}

theorem lookup_of_mem {xs : List (Step × Value)} (h : xs.Pairwise fun x y => x.1.Before y.1)
    (hmem : (s, u) ∈ xs) : xs.lookup s = some u := by
  obtain ⟨pre, post, rfl⟩ := List.append_of_mem hmem
  refine List.lookup_eq_some_iff.mpr ⟨pre, post, rfl, fun x hx => ?_⟩
  have hbefore := (List.pairwise_append.mp h).2.2 x hx (s, u) (by simp)
  simpa using hbefore.ne.symm

theorem eq_or_before {xs : List (Step × Value)} (h : xs.Pairwise fun x y => x.1.Before y.1)
    {x y : Step × Value} (hx : x ∈ xs) (hy : y ∈ xs) :
    x = y ∨ x.1.Before y.1 ∨ y.1.Before x.1 := by
  exact List.Pairwise.forall_of_forall_of_flip (R := fun x y => x = y ∨ x.1.Before y.1 ∨ y.1.Before x.1)
    (fun _ _ => .inl rfl) (h.imp fun hxy => .inr (.inl hxy)) (h.imp fun hxy => .inr (.inr hxy)) hx hy

theorem mem_of_lookup {xs : List (Step × Value)} (h : xs.lookup s = some u) : (s, u) ∈ xs := by
  obtain ⟨_, _, heq, -⟩ := List.lookup_eq_some_iff.mp h
  simp [heq]

theorem Ordered.parts (h : v.Ordered) : v.parts.Pairwise fun x y => x.1.Before y.1 :=
  h [] v rfl

theorem Ordered.part (h : v.Ordered) (hu : (s, u) ∈ v.parts) : u.Ordered := by
  intro way w hw
  refine h (s :: way) w ?_
  rw [at?, lookup_of_mem h.parts hu]
  exact hw

/-! ### Obstacles along a way -/

theorem obstacleAt?_cons : v.obstacleAt? (s :: way) =
    (v.parts.lookup s).bind fun u => u.obstacleAt? way := by
  rw [obstacleAt?, at?, Option.bind_assoc]
  rfl

/-- Nothing keeps a value from crossing, wherever in it one looks. -/
def Clear (v : Value) : Prop := ∀ way, v.obstacleAt? way = none

theorem clear_iff (hv : v.Ordered) :
    v.Clear ↔ v.obstacle? = none ∧ ∀ x ∈ v.parts, x.2.Clear := by
  constructor
  · intro h
    refine ⟨h [], fun ⟨s, u⟩ hu way => ?_⟩
    have := h (s :: way)
    rwa [obstacleAt?_cons, lookup_of_mem hv.parts hu] at this
  · rintro ⟨hnone, hparts⟩ (_ | ⟨s, way⟩)
    · exact hnone
    · rw [obstacleAt?_cons]
      cases hu : v.parts.lookup s with
      | none => rfl
      | some u => exact hparts _ (mem_of_lookup hu) way

/-- The first obstacle of a container is the first one of a part, and all parts in front of that one
are clear. -/
theorem First.cons (hv : v.Ordered) {pre post : List (Step × Value)}
    (hparts : v.parts = pre ++ (s, u) :: post) (hself : v.obstacle? = none)
    (hpre : ∀ x ∈ pre, x.2.Clear) (h : u.First way err) : v.First (s :: way) err := by
  have hlookup : v.parts.lookup s = some u := lookup_of_mem hv.parts (by simp [hparts])
  refine ⟨by rw [obstacleAt?_cons, hlookup]; exact h.here, ?_⟩
  intro earlier hlex
  cases hlex with
  | nil => exact hself
  | cons hlex =>
    rw [obstacleAt?_cons, hlookup]
    exact h.before _ hlex
  | @rel s' way' _ _ hbefore =>
    rw [obstacleAt?_cons]
    cases hu' : v.parts.lookup s' with
    | none => rfl
    | some u' =>
      have hmem := mem_of_lookup hu'
      rw [hparts, List.mem_append, List.mem_cons] at hmem
      -- A part that a step in front of `s` leads to stands in front of the part at `s`.
      rcases hmem with hmem | heq | hmem
      · exact hpre _ hmem way'
      · exact absurd (Prod.mk.inj heq).1 hbefore.ne
      · have hsorted := hv.parts
        rw [hparts] at hsorted
        have hafter := (List.pairwise_cons.mp (List.pairwise_append.mp hsorted).2.1).1 _ hmem
        exact absurd hafter hbefore.asymm

/-- The first obstacle behind a step is the first one of the part that the step leads to. -/
theorem First.part (h : v.First (s :: way) err) :
    ∃ u, v.parts.lookup s = some u ∧ u.First way err := by
  have hhere := h.here
  rw [obstacleAt?_cons] at hhere
  obtain ⟨u, hu, herr⟩ := Option.bind_eq_some_iff.mp hhere
  refine ⟨u, hu, herr, fun earlier hlex => ?_⟩
  have := h.before (s :: earlier) (.cons hlex)
  rwa [obstacleAt?_cons, hu] at this

/-- One obstacle at most is the first. -/
theorem First.eq (hv : v.Ordered) {way' : List Step} {err' : ConversionError}
    (h : v.First way err) (h' : v.First way' err') : err = err' := by
  induction way generalizing v way' with
  | nil =>
    cases way' with
    | nil => exact Option.some.inj (h.here.symm.trans h'.here)
    | cons s way' => exact absurd ((h'.before [] .nil).symm.trans h.here) (by simp)
  | cons s way ih =>
    cases way' with
    | nil => exact absurd ((h.before [] .nil).symm.trans h'.here) (by simp)
    | cons s' way' =>
      obtain ⟨u, hu, hfirst⟩ := h.part
      obtain ⟨u', hu', hfirst'⟩ := h'.part
      rcases eq_or_before hv.parts (mem_of_lookup hu) (mem_of_lookup hu') with heq | hlt | hlt
      · obtain ⟨rfl, rfl⟩ := Prod.mk.inj heq
        exact ih (hv.part (mem_of_lookup hu)) hfirst hfirst'
      · exact absurd ((h'.before _ (.rel hlt)).symm.trans h.here) (by simp)
      · exact absurd ((h.before _ (.rel hlt)).symm.trans h'.here) (by simp)

end

/-! ### Crossing part by part -/

section

variable {α β ε : Type} {f : α → Except ε β} {as : List α}

theorem exists_of_mapM_eq_error {err : ε} (h : as.mapM f = .error err) :
    ∃ pre a post, as = pre ++ a :: post ∧ (∀ x ∈ pre, ∃ b, f x = .ok b) ∧ f a = .error err := by
  induction as with
  | nil => simp [pure, Except.pure] at h
  | cons a as ih =>
    rw [List.mapM_cons] at h
    cases ha : f a with
    | error e =>
      simp only [ha, bind, Except.bind, Except.error.injEq] at h
      exact ⟨[], a, as, rfl, by simp, h ▸ ha⟩
    | ok b =>
      cases has : as.mapM f with
      | ok bs => simp [ha, has, bind, Except.bind, pure, Except.pure] at h
      | error e =>
        simp only [ha, has, bind, Except.bind, Except.error.injEq] at h
        obtain ⟨pre, a', post, rfl, hpre, ha'⟩ := ih (h ▸ has)
        refine ⟨a :: pre, a', post, rfl, fun x hx => ?_, ha'⟩
        rcases List.mem_cons.mp hx with rfl | hx
        · exact ⟨b, ha⟩
        · exact hpre x hx

theorem exists_of_mapM_eq_ok {bs : List β} (h : as.mapM f = .ok bs) :
    ∀ a ∈ as, ∃ b, f a = .ok b := by
  induction as generalizing bs with
  | nil => simp
  | cons a as ih =>
    rw [List.mapM_cons] at h
    cases ha : f a with
    | error e => simp [ha, bind, Except.bind] at h
    | ok b =>
      cases has : as.mapM f with
      | error e => simp [ha, has, bind, Except.bind] at h
      | ok bs' =>
        intro x hx
        rcases List.mem_cons.mp hx with rfl | hx
        · exact ⟨b, ha⟩
        · exact ih has x hx

end

theorem toEngineItems_eq_mapM (items : List Value) : toEngineItems items = items.mapM toEngine := by
  induction items with
  | nil => rfl
  | cons v items ih => rw [toEngineItems, ih, List.mapM_cons]

/-- An entry of a map as the engine holds it. -/
def toEngineEntry (x : String × Value) : Except ConversionError (String × EngineValue) :=
  x.2.toEngine.map (x.1, ·)

theorem toEngineFields_eq_mapM (entries : List (String × Value)) :
    toEngineFields entries = entries.mapM toEngineEntry := by
  induction entries with
  | nil => rfl
  | cons entry entries ih =>
    obtain ⟨key, v⟩ := entry
    rw [toEngineFields, ih, List.mapM_cons]
    cases hv : v.toEngine <;> simp [toEngineEntry, hv, bind, Except.bind, Except.map]

theorem map_eq_ok {α β ε : Type} {f : α → β} {x : Except ε α} {b : β} (h : x.map f = .ok b) :
    ∃ a, x = .ok a := by
  cases x with
  | ok a => exact ⟨a, rfl⟩
  | error e => simp [Except.map] at h

theorem map_eq_error {α β ε : Type} {f : α → β} {x : Except ε α} {err : ε}
    (h : x.map f = .error err) : x = .error err := by
  cases x with
  | ok a => simp [Except.map] at h
  | error e => simpa [Except.map] using h

variable {v : Value} {err : ConversionError}

/-- What crosses over is no obstacle, and its parts cross over. -/
theorem parts_of_toEngine_eq_ok {e : EngineValue} (h : v.toEngine = .ok e) :
    v.obstacle? = none ∧ ∀ x ∈ v.parts, ∃ e, x.2.toEngine = .ok e := by
  cases v with
  | float d =>
    refine ⟨?_, by simp [parts]⟩
    by_cases hd : d.isFinite = true
    · simp [obstacle?, hd]
    · simp [toEngine, EngineNumber.ofDouble?, hd] at h
  | decimal text =>
    refine ⟨?_, by simp [parts]⟩
    cases hn : EngineNumber.read? text with
    | none => simp [toEngine, hn] at h
    | some n => simp [obstacle?, hn]
  | array items =>
    rw [toEngine, toEngineItems_eq_mapM] at h
    obtain ⟨es, hes⟩ := map_eq_ok h
    refine ⟨rfl, fun x hx => ?_⟩
    obtain ⟨i, hi, rfl⟩ := List.mem_mapIdx.mp hx
    exact exists_of_mapM_eq_ok hes _ (List.getElem_mem hi)
  | map entries =>
    rw [toEngine, toEngineFields_eq_mapM] at h
    obtain ⟨es, hes⟩ := map_eq_ok h
    refine ⟨rfl, fun x hx => ?_⟩
    obtain ⟨y, hy, rfl⟩ := List.mem_map.mp hx
    obtain ⟨_, hentry⟩ := exists_of_mapM_eq_ok hes y hy
    exact map_eq_ok hentry
  | function name => simp [toEngine] at h
  | _ => exact ⟨rfl, by simp [parts]⟩

/-- What does not cross over is an obstacle itself, or has a part that does not cross over behind
parts that do. -/
theorem parts_of_toEngine_eq_error (h : v.toEngine = .error err) :
    v.obstacle? = some err ∨ (v.obstacle? = none ∧ ∃ pre s u post,
      v.parts = pre ++ (s, u) :: post ∧ (∀ x ∈ pre, ∃ e, x.2.toEngine = .ok e) ∧
        u.toEngine = .error err) := by
  cases v with
  | float d =>
    by_cases hd : d.isFinite = true
    · simp [toEngine, EngineNumber.ofDouble?, hd] at h
    · left
      simpa [toEngine, EngineNumber.ofDouble?, hd, obstacle?] using h
  | decimal text =>
    cases hn : EngineNumber.read? text with
    | none =>
      left
      simpa [toEngine, obstacle?, hn] using h
    | some n => simp [toEngine, hn] at h
  | array items =>
    rw [toEngine, toEngineItems_eq_mapM] at h
    obtain ⟨pre, u, post, rfl, hpre, hu⟩ := exists_of_mapM_eq_error (map_eq_error h)
    refine .inr ⟨rfl, _, .item (0 + pre.length), u, _,
      by rw [parts, List.mapIdx_append, List.mapIdx_cons], fun x hx => ?_, hu⟩
    obtain ⟨i, hi, rfl⟩ := List.mem_mapIdx.mp hx
    exact hpre _ (List.getElem_mem hi)
  | map entries =>
    rw [toEngine, toEngineFields_eq_mapM] at h
    obtain ⟨pre, ⟨k, u⟩, post, rfl, hpre, hu⟩ := exists_of_mapM_eq_error (map_eq_error h)
    refine .inr ⟨rfl, _, .field k, u, _, by rw [parts, List.map_append, List.map_cons],
      fun x hx => ?_, map_eq_error hu⟩
    obtain ⟨y, hy, rfl⟩ := List.mem_map.mp hx
    obtain ⟨_, hentry⟩ := hpre y hy
    exact map_eq_ok hentry
  | function name =>
    left
    simpa [toEngine, obstacle?] using h
  | _ => simp [toEngine] at h

/-- What crosses over holds no obstacle. -/
theorem clear_of_toEngine_eq_ok (hv : v.Ordered) {e : EngineValue} (h : v.toEngine = .ok e) :
    v.Clear := by
  induction v using parts_induction generalizing e with
  | h v ih =>
    obtain ⟨hself, hparts⟩ := parts_of_toEngine_eq_ok h
    refine (clear_iff hv).mpr ⟨hself, fun x hx => ?_⟩
    obtain ⟨e, he⟩ := hparts x hx
    exact ih x hx (hv.part hx) he

/-- The error is that of the first obstacle. -/
theorem first_of_toEngine_eq_error (hv : v.Ordered) (h : v.toEngine = .error err) :
    ∃ way, v.First way err := by
  induction v using parts_induction with
  | h v ih =>
    obtain hself | ⟨hself, pre, s, u, post, hparts, hpre, hu⟩ := parts_of_toEngine_eq_error h
    · exact ⟨[], hself, fun _ hlex => by cases hlex⟩
    · have hmem : ∀ x ∈ pre, x ∈ v.parts := fun x hx => by simp [hparts, hx]
      have hlast : (s, u) ∈ v.parts := by simp [hparts]
      obtain ⟨way, hfirst⟩ := ih (s, u) hlast (hv.part hlast) hu
      refine ⟨s :: way, .cons hv hparts hself (fun x hx => ?_) hfirst⟩
      obtain ⟨e, he⟩ := hpre x hx
      exact clear_of_toEngine_eq_ok (hv.part (hmem x hx)) he

/-- **A value fails to cross with the first obstacle in it**, and it does if there is one. -/
theorem toEngine_eq_error_iff (hv : v.Ordered) :
    v.toEngine = .error err ↔ ∃ way, v.First way err := by
  refine ⟨first_of_toEngine_eq_error hv, fun ⟨way, hfirst⟩ => ?_⟩
  cases h : v.toEngine with
  | ok e =>
    have := clear_of_toEngine_eq_ok hv h way
    rw [hfirst.here] at this
    simp at this
  | error err' =>
    obtain ⟨way', hfirst'⟩ := first_of_toEngine_eq_error hv h
    rw [hfirst.eq hv hfirst']

theorem toEngine_fails_iff (hv : v.Ordered) :
    (∃ err, v.toEngine = .error err) ↔ ∃ way u, v.at? way = some u ∧ u.obstacle?.isSome = true := by
  constructor
  · rintro ⟨err, h⟩
    obtain ⟨way, hfirst⟩ := first_of_toEngine_eq_error hv h
    obtain ⟨u, hu, herr⟩ := Option.bind_eq_some_iff.mp hfirst.here
    exact ⟨way, u, hu, by simp [herr]⟩
  · rintro ⟨way, u, hu, hsome⟩
    cases h : v.toEngine with
    | error err => exact ⟨err, rfl⟩
    | ok e =>
      have := clear_of_toEngine_eq_ok hv h way
      rw [obstacleAt?, hu] at this
      simp [show u.obstacle? = none from this] at hsome

/-- **Conversion is exact on what can be written down, and fails elsewhere with the first obstacle.**
-/
theorem conversion_exact :
    (∀ v : Value, v.Serializable → ∃ e, v.toEngine = .ok e ∧ ofEngine e = v) ∧
      (∀ e : EngineValue, e.FitsSigned → (ofEngine e).toEngine = .ok e) ∧
      ∀ v : Value, v.Ordered →
        ((∃ err, v.toEngine = .error err) ↔
            ∃ way u, v.at? way = some u ∧ u.obstacle?.isSome = true) ∧
          ∀ err, v.toEngine = .error err ↔ ∃ way, v.First way err :=
  ⟨fun _ h => h.returns, fun _ h => h.toEngine_ofEngine,
    fun _ h => ⟨toEngine_fails_iff h, fun _ => toEngine_eq_error_iff h⟩⟩

/-- An order that can be written down; its discount is the negative zero. -/
def writtenOrder : Value :=
  .map [("discount", .float ⟨0x8000000000000000⟩), ("lines", .array [.int (-3), .nil, .string "x"])]

/-- An order with three obstacles, put together from behind. -/
def callbackOrder : Value :=
  .map (Table.ofEntries [("notify", .function "mail"),
    ("lines", .array [.int 1, .decimal "ten", .float ⟨0x7ff0000000000000⟩])])

theorem conversion_exact_of_orders :
    (∃ e, writtenOrder.toEngine = .ok e ∧ ofEngine e = writtenOrder) ∧
      (ofEngine (.array [.number (.int 9223372036854775807 (by decide)), .null])).toEngine
        = .ok (.array [.number (.int 9223372036854775807 (by decide)), .null]) ∧
      callbackOrder.Ordered ∧ ∃ way, callbackOrder.First way (.invalidDecimal "ten") := by
  have hleaf : ∀ v : Value, v.parts = [] → v.Ordered := fun v hv =>
    .of_parts (by simp [hv]) (by simp [hv])
  have hordered : callbackOrder.Ordered := by
    refine .map_ofEntries fun x hx => ?_
    simp only [List.mem_cons, List.not_mem_nil, or_false] at hx
    rcases hx with rfl | rfl
    · exact hleaf _ rfl
    · refine .of_parts (pairwise_items _) fun y hy => ?_
      simp only [parts, List.mapIdx_cons, List.mapIdx_nil, List.mem_cons, List.not_mem_nil,
        or_false] at hy
      rcases hy with rfl | rfl | rfl <;> exact hleaf _ rfl
  have hwritten : writtenOrder.Serializable := by
    refine .map fun x hx => ?_
    simp only [List.mem_cons, List.not_mem_nil, or_false] at hx
    rcases hx with rfl | rfl
    · exact .float (by decide)
    · refine .array fun v hv => ?_
      simp only [List.mem_cons, List.not_mem_nil, or_false] at hv
      rcases hv with rfl | rfl | rfl
      exacts [.int _, .nil, .string _]
  have hfits : (EngineValue.array
      [.number (.int 9223372036854775807 (by decide)), .null]).FitsSigned := by
    refine .array fun e he => ?_
    simp only [List.mem_cons, List.not_mem_nil, or_false] at he
    rcases he with rfl | rfl
    exacts [.int _ (by decide), .null]
  exact ⟨conversion_exact.1 _ hwritten, conversion_exact.2.1 _ hfits, hordered,
    ((conversion_exact.2.2 _ hordered).2 _).mp rfl⟩

end Value

end Durable
