/-
A package does not depend on the order in which its sources are handed over.

Sources are read in the order of their paths.  That order is total on what paths denote, so sources
whose paths denote different files stand in one order, whatever list they came in: the first fault
is the same, and so is the package.  Its documents are the sources, grouped by submodule; a group
is what a filter leaves of the sorted list, so it stands in order, and the groups together are a
rearrangement of the list, because every source has one submodule and every submodule one group.
-/
import Mathlib.Data.List.Pairwise
import Mathlib.Data.String.Basic
import Durable.Check
import Durable.Proofs.Package.Sources
import Durable.Proofs.Text.Splice

namespace Durable

/-! ### The order of paths -/

namespace Path

@[simp] theorem compare_down (a b : String) :
    Ord.compare (Component.down a) (.down b) = Ord.compare a b :=
  Ordering.then_eq

instance : Std.OrientedOrd Component where
  eq_swap {a b} := by
    cases a <;> cases b <;> first | rfl | skip
    case down.down a b => exact compare_down a b ▸ compare_down b a ▸ Std.OrientedOrd.eq_swap

instance : Std.TransOrd Component where
  isLE_trans {a b c} hab hbc := by
    cases a <;> cases b <;> cases c <;> first | rfl | contradiction | skip
    case down.down.down a b c =>
      rw [compare_down] at hab hbc ⊢
      exact Std.TransOrd.isLE_trans hab hbc

instance : Std.LawfulEqOrd Component where
  compare_self {a} := by
    cases a <;> first | rfl | skip
    case down a => simp
  eq_of_compare {a b} h := by
    cases a <;> cases b <;> first | rfl | contradiction | skip
    case down.down a b => simpa using h

variable {a b c : String}

theorem le_total (a b : String) : le a b = true ∨ le b a = true := by
  have hswap : compare a b = (compare b a).swap := Std.OrientedOrd.eq_swap
  simp only [le, hswap]
  cases compare b a <;> simp

theorem le_trans (hab : le a b = true) (hbc : le b c = true) : le a c = true :=
  Std.TransOrd.isLE_trans hab hbc

/-- Paths that do not come behind each other denote the same. -/
theorem same_of_le (hab : le a b = true) (hba : le b a = true) : same a b = true := by
  have heq : Ord.compare (components a) (components b) = .eq :=
    Std.OrientedCmp.isLE_antisymm hab hba
  exact beq_iff_eq.mpr (Std.LawfulEqOrd.eq_of_compare heq)

theorem compare_eq_lt (hab : le a b = true) (h : same a b = false) : compare a b = .lt := by
  cases hcompare : compare a b with
  | lt => rfl
  | eq =>
    have heq : components a = components b := Std.LawfulEqOrd.eq_of_compare hcompare
    simp [same, heq] at h
  | gt => simp [le, hcompare] at hab

theorem same_comm (a b : String) : same a b = same b a := Bool.beq_comm

end Path

/-! ### Groups of a list -/

section

variable {α κ : Type} [BEq κ] [LawfulBEq κ]

/-- The groups of a list by a key are together a rearrangement of it. -/
theorem flatMap_filter_perm (key : α → κ) {keys : List κ} (hkeys : keys.Nodup) (as : List α)
    (h : ∀ a ∈ as, key a ∈ keys) :
    (keys.flatMap fun k => as.filter fun a => key a == k).Perm as := by
  induction keys generalizing as with
  | nil =>
    rw [List.eq_nil_iff_forall_not_mem.mpr fun a ha => absurd (h a ha) List.not_mem_nil]
    exact .refl _
  | cons k keys ih =>
    obtain ⟨hk, hkeys⟩ := List.nodup_cons.mp hkeys
    -- The other groups are those of the items with another key.
    have hothers : (keys.flatMap fun k' => as.filter fun a => key a == k') =
        keys.flatMap fun k' => (as.filter fun a => !(key a == k)).filter fun a => key a == k' := by
      refine List.flatMap_congr fun k' hk' => ?_
      rw [List.filter_filter]
      refine List.filter_congr fun a _ => ?_
      by_cases ha : key a = k'
      · have hne : key a ≠ k := fun heq => hk (heq ▸ ha ▸ hk')
        simp [ha, ha ▸ hne]
      · simp [ha]
    rw [List.flatMap_cons, hothers]
    refine .trans (.append_left _ (ih hkeys _ fun a ha => ?_)) (List.filter_append_perm _ as)
    obtain ⟨ha, hne⟩ := List.mem_filter.mp ha
    exact (List.mem_cons.mp (h a ha)).resolve_left (by simpa using hne)

end

/-- Texts that are sorted and different from each other stand in strict order. -/
theorem sortTexts_distinct_pairwise (xs : List String) :
    (sortTexts (distinct xs)).Pairwise (· < ·) := by
  have hsorted : (sortTexts (distinct xs)).Pairwise fun a b => decide (a ≤ b) = true :=
    sortBy_pairwise (fun a b => by simpa using le_total a b)
      (fun a b c => by simpa using le_trans) _
  have hnodup : (sortTexts (distinct xs)).Nodup :=
    (sortBy_perm _).nodup_iff.mpr (nodup_distinct xs)
  exact (hsorted.and hnodup).imp fun ⟨hle, hne⟩ => lt_of_le_of_ne (by simpa using hle) hne

namespace Package

/-! ### Reading in order -/

/-- A source that is not read behind another. -/
abbrev readsBefore (a b : Source) : Bool := Path.le a.path b.path

theorem sorted_pairwise (sources : List Source) :
    (sortBy readsBefore sources).Pairwise fun a b => readsBefore a b = true :=
  sortBy_pairwise (fun a b => Path.le_total a.path b.path)
    (fun a b c => Path.le_trans (a := a.path) (b := b.path) (c := c.path)) sources

/-- A source whose path comes in front of that of another. -/
def Precedes (a b : Source) : Prop := Path.compare a.path b.path = .lt

/-- The paths of sources denote different files. -/
def Apart (sources : List Source) : Prop :=
  sources.Pairwise fun a b => Path.same a.path b.path = false

instance (sources : List Source) : Decidable (Apart sources) :=
  inferInstanceAs (Decidable (sources.Pairwise fun a b => Path.same a.path b.path = false))

theorem Apart.perm {sources sources' : List Source} (h : Apart sources)
    (hperm : sources.Perm sources') : Apart sources' :=
  hperm.pairwise h fun hab => by rwa [Path.same_comm]

theorem Apart.eq_of_same {sources : List Source} (h : Apart sources) {a b : Source}
    (ha : a ∈ sources) (hb : b ∈ sources) (hsame : Path.same a.path b.path = true) : a = b := by
  by_contra hne
  have hall : ∀ ⦃a⦄, a ∈ sources → ∀ ⦃b⦄, b ∈ sources →
      a ≠ b → Path.same a.path b.path = false := by
    refine List.Pairwise.forall_of_forall_of_flip (fun _ _ hne => absurd rfl hne)
      (List.Pairwise.imp ?_ h) (List.Pairwise.imp ?_ h)
    · exact fun hab _ => hab
    · exact fun hab _ => Path.same_comm _ _ ▸ hab
  rw [hall ha hb hne] at hsame
  simp at hsame

/-- Sources apart stand in one order. -/
theorem Apart.sorted_eq {sources sources' : List Source} (h : Apart sources)
    (hperm : sources'.Perm sources) :
    sortBy readsBefore sources' = sortBy readsBefore sources := by
  refine List.Perm.eq_of_pairwise (fun a b ha hb hab hba => ?_) (sorted_pairwise _)
    (sorted_pairwise _) ((sortBy_perm _).trans (hperm.trans (sortBy_perm _).symm))
  exact h.eq_of_same (hperm.mem_iff.mp ((sortBy_perm _).mem_iff.mp ha))
    ((sortBy_perm _).mem_iff.mp hb) (Path.same_of_le hab hba)

/-! ### What is read -/

theorem submodule_of_readSource {s source : Source} {sub : Option String} {tree : Module}
    (h : readSource s = .ok (sub, source, tree)) : submoduleOf s.path = .ok sub := by
  unfold readSource at h
  cases hsub : submoduleOf s.path with
  | error e => simp [hsub, bind, Except.bind] at h
  | ok sub' =>
    cases htree : parseModule s.text with
    | error e => simp [hsub, htree, bind, Except.bind, Except.mapError] at h
    | ok tree' =>
      simp only [hsub, htree, bind, Except.bind, Except.mapError, pure, Except.pure,
        Except.ok.injEq, Prod.mk.injEq] at h
      rw [h.1]

/-- What is read of sources in order is about these sources in order. -/
theorem map_source_of_mapM {sources : List Source} {read : List (Option String × Source × Module)}
    (h : sources.mapM readSource = .ok read) : read.map (·.2.1) = sources := by
  induction sources generalizing read with
  | nil =>
    simp only [List.mapM_nil, pure, Except.pure, Except.ok.injEq] at h
    rw [← h]
    rfl
  | cons s sources ih =>
    rw [List.mapM_cons] at h
    cases hs : readSource s with
    | error e => simp [hs, bind, Except.bind] at h
    | ok first =>
      cases hothers : sources.mapM readSource with
      | error e => simp [hs, hothers, bind, Except.bind] at h
      | ok others =>
        simp only [hs, hothers, bind, Except.bind, pure, Except.pure, Except.ok.injEq] at h
        rw [← h, List.map_cons, ih hothers, (readSource_eq_ok hs).1]

/-- What was read of sources: each with the submodule of its path and the tree of its text. -/
structure Readings (sources : List Source) (read : List (Option String × Source × Module)) :
    Prop where
  sources : read.map (·.2.1) = sortBy readsBefore sources
  submodule : ∀ x ∈ read, submoduleOf x.2.1.path = .ok x.1

/-- A package is put together from what was read of its sources. -/
theorem readings_of_ofSources {org name : String} {sources : List Source} {p : Package}
    (h : ofSources org name sources = .ok p) : ∃ read, Readings sources read ∧
      p.modules = (none :: (submodulesOf read).map some).mapIdx fun i sub =>
        ⟨moduleNameOf p.org p.name sub, sub, documentsOf sub i read⟩ := by
  unfold ofSources at h
  cases hread : (sortBy (fun a b : Source => Path.le a.path b.path) sources).mapM readSource with
  | error e => simp [hread, bind, Except.bind] at h
  | ok read =>
    simp only [hread, bind, Except.bind, pure, Except.pure, Except.ok.injEq] at h
    refine ⟨read, ⟨map_source_of_mapM hread, fun x hx => ?_⟩, by rw [← h]⟩
    obtain ⟨s, -, hs⟩ := mapM_mem hread hx
    obtain ⟨rfl, -⟩ := readSource_eq_ok hs
    exact submodule_of_readSource hs

/-- What was read stands in strict order. -/
theorem Readings.pairwise {sources : List Source} {read : List (Option String × Source × Module)}
    (h : Readings sources read) (hapart : Apart sources) :
    (read.map (·.2.1)).Pairwise Precedes := by
  rw [h.sources]
  exact ((sorted_pairwise sources).and (hapart.perm (sortBy_perm _).symm)).imp
    fun ⟨hle, hne⟩ => Path.compare_eq_lt hle hne

/-- Every source read is in one of the submodules. -/
theorem mem_submodules {read : List (Option String × Source × Module)}
    {x : Option String × Source × Module} (hx : x ∈ read) :
    x.1 ∈ none :: (submodulesOf read).map some := by
  cases hsub : x.1 with
  | none => exact List.mem_cons_self
  | some sub =>
    refine List.mem_cons_of_mem _ (List.mem_map_of_mem ?_)
    rw [submodulesOf, sortTexts, (sortBy_perm _).mem_iff, mem_distinct]
    exact List.mem_filterMap.mpr ⟨x, hx, hsub⟩

theorem nodup_submodules (read : List (Option String × Source × Module)) :
    (none :: (submodulesOf read).map some).Nodup := by
  have hnodup : (submodulesOf read).Nodup := (sortTexts_distinct_pairwise _).imp fun h => ne_of_lt h
  exact List.nodup_cons.mpr ⟨by simp, List.Pairwise.map some (fun _ _ hne heq => hne (Option.some.inj heq)) hnodup⟩

/-! ### The arrangement -/

/-- The documents of a package are some sources, each in the module of its path; modules and documents
stand in order, and a document stands where its identity says. -/
structure Arranges (p : Package) (sources : List Source) : Prop where
  /-- Every source is one document. -/
  documents : (p.documents.map (·.source)).Perm sources
  /-- The default module comes first, then the submodules, in the order of their names. -/
  modules : ∃ names : List String,
    p.modules.map (·.submodule) = none :: names.map some ∧ names.Pairwise (· < ·)
  names : ∀ m ∈ p.modules, m.id = moduleNameOf p.org p.name m.submodule
  grouped : ∀ m ∈ p.modules, ∀ d ∈ m.documents,
    submoduleOf d.path = .ok m.submodule ∧ parseModule d.source.text = .ok d.tree
  sorted : ∀ m ∈ p.modules, (m.documents.map (·.source)).Pairwise Precedes
  identity : ∀ d ∈ p.documents, p.document? d.id = some d

theorem map_mapIdx {α β γ : Type} {f : Nat → α → β} {g : β → γ} {k : α → γ}
    (h : ∀ i a, g (f i a) = k a) (as : List α) : (as.mapIdx f).map g = as.map k :=
  List.ext_getElem (by simp) (by simp [h])

theorem documentsOf_source (sub : Option String) (i : Nat)
    (read : List (Option String × Source × Module)) :
    (documentsOf sub i read).map (·.source) = (read.filter (·.1 == sub)).map (·.2.1) := by
  rw [documentsOf, map_mapIdx (k := (·.2.1))]
  exact fun _ _ => rfl

theorem mem_documentsOf {sub : Option String} {i : Nat} {d : Document}
    {read : List (Option String × Source × Module)} (h : d ∈ documentsOf sub i read) :
    (sub, d.source, d.tree) ∈ read := by
  obtain ⟨j, hj, heq⟩ := List.mem_mapIdx.mp h
  have hfilter := List.getElem_mem hj
  generalize (read.filter (·.1 == sub))[j] = x at heq hfilter
  obtain ⟨sub', source, tree⟩ := x
  obtain ⟨hmem, hsub⟩ := List.mem_filter.mp hfilter
  obtain rfl : sub' = sub := beq_iff_eq.mp hsub
  subst heq
  exact hmem

/-- What is read of sources apart is arranged. -/
theorem Apart.arranges {org name : String} {sources : List Source} (h : Apart sources)
    {p : Package} (hp : ofSources org name sources = .ok p) : p.Arranges sources := by
  have hread := isRead_of_ofSources hp
  obtain ⟨read, hreadings, hmodules⟩ := readings_of_ofSources hp
  have hmodule : ∀ m ∈ p.modules, ∃ sub i,
      m = ⟨moduleNameOf p.org p.name sub, sub, documentsOf sub i read⟩ := by
    intro m hm
    rw [hmodules] at hm
    obtain ⟨i, hi, rfl⟩ := List.mem_mapIdx.mp hm
    exact ⟨_, _, rfl⟩
  constructor
  case documents =>
    have hsources : p.documents.map (·.source) =
        ((none :: (submodulesOf read).map some).flatMap fun sub =>
          read.filter (·.1 == sub)).map (·.2.1) := by
      rw [documents, hmodules, List.map_flatMap, List.map_flatMap, List.flatMap_def,
        List.flatMap_def, map_mapIdx]
      exact fun i sub => documentsOf_source sub i read
    rw [hsources]
    have hperm := flatMap_filter_perm (·.1) (nodup_submodules read) read fun x => mem_submodules
    exact (hperm.map _).trans (hreadings.sources ▸ sortBy_perm sources)
  case modules =>
    refine ⟨submodulesOf read, ?_, sortTexts_distinct_pairwise _⟩
    rw [hmodules, map_mapIdx (k := id), List.map_id]
    exact fun _ _ => rfl
  case names =>
    intro m hm
    obtain ⟨sub, i, rfl⟩ := hmodule m hm
    rfl
  case grouped =>
    intro m hm d hd
    have htree := (hread.document_eq (List.mem_flatMap.mpr ⟨m, hm, hd⟩)).2
    obtain ⟨sub, i, rfl⟩ := hmodule m hm
    exact ⟨hreadings.submodule _ (mem_documentsOf hd), htree⟩
  case sorted =>
    intro m hm
    obtain ⟨sub, i, rfl⟩ := hmodule m hm
    rw [documentsOf_source]
    exact (hreadings.pairwise h).sublist (List.filter_sublist.map _)
  case identity =>
    intro d hd
    exact (hread.document_eq hd).1

/-! ### Any order of the sources -/

/-- Sources apart read as one package, or have one first fault, in whatever order they come. -/
theorem Apart.ofSources_eq {sources sources' : List Source} (h : Apart sources)
    (hperm : sources'.Perm sources) (org name : String) :
    ofSources org name sources' = ofSources org name sources := by
  unfold ofSources
  rw [show sortBy (fun a b : Source => Path.le a.path b.path) sources' =
    sortBy (fun a b : Source => Path.le a.path b.path) sources from h.sorted_eq hperm]

/-- **A package is the same for every order of its sources**: so are its diagnostics and what it
is routed to.  If there is a package, it is the sources, arranged. -/
theorem ofSources_canonical (org name : String) {sources : List Source} (h : Apart sources) :
    (∀ sources', sources'.Perm sources →
      ofSources org name sources' = ofSources org name sources ∧
      ∀ o, (ofSources org name sources').map (Check.analyze · o) =
          (ofSources org name sources).map (Check.analyze · o) ∧
        (ofSources org name sources').map (Check.check · o) =
          (ofSources org name sources).map (Check.check · o)) ∧
    ∀ p, ofSources org name sources = .ok p → p.Arranges sources := by
  refine ⟨fun sources' hperm => ?_, fun p hp => h.arranges hp⟩
  have heq := h.ofSources_eq hperm org name
  exact ⟨heq, fun o => by rw [heq]; exact ⟨rfl, rfl⟩⟩

/-- Three sources, in no order. -/
def unsortedSources : List Source :=
  [⟨"modules/stock/b.wf", "int b = 1;"⟩, ⟨"service.wf", "int s = 2;"⟩,
    ⟨"modules/mail/a.wf", "import orders.stock;\nint a = stock:b;"⟩]

theorem unsortedSources_canonical :
    (ofSources "acme" "orders" unsortedSources.reverse =
      ofSources "acme" "orders" unsortedSources) ∧
    ∃ p, ofSources "acme" "orders" unsortedSources = .ok p ∧ p.Arranges unsortedSources ∧
      p.modules.map (·.id.name) = ["orders", "orders.mail", "orders.stock"] := by
  have hapart : Apart unsortedSources := by decide +kernel
  obtain ⟨horder, harranged⟩ := ofSources_canonical "acme" "orders" hapart
  obtain ⟨p, hp, hnames⟩ := exists_ok_of_any
    (show (ofSources "acme" "orders" unsortedSources).toOption.any
      (·.modules.map (·.id.name) == ["orders", "orders.mail", "orders.stock"]) = true by
        decide +kernel)
  exact ⟨(horder _ (List.reverse_perm _)).1, p, hp, harranged p hp, by simpa using hnames⟩

end Package

end Durable
