/-
Packages that were read from source texts.

Every document of such a package holds the tree its text reads as, and its place in the
package is its own: no two documents have one identity.
-/
import Mathlib.Data.List.Basic
import Durable.Package.Load

namespace Durable.Package

/-- A package was read from source texts; where it was found in a directory, that is kept too. -/
def IsRead (p : Package) : Prop :=
  ∃ sources q, ofSources p.org p.name sources = .ok q ∧ p.modules = q.modules

theorem isRead_of_ofSources {org name : String} {sources : List Source} {p : Package}
    (h : ofSources org name sources = .ok p) : p.IsRead := by
  have hp : p.org = org ∧ p.name = name := by
    unfold ofSources at h
    cases hread : (sortBy (fun a b : Source => Path.le a.path b.path) sources).mapM readSource with
    | error e => simp [hread, bind, Except.bind] at h
    | ok read =>
      simp only [hread, bind, Except.bind, pure, Except.pure, Except.ok.injEq] at h
      rw [← h]
      exact ⟨rfl, rfl⟩
  exact ⟨sources, p, by rw [hp.1, hp.2]; exact h, rfl⟩

/-- A result of which a test holds. -/
theorem exists_ok_of_any {ε α : Type} {x : Except ε α} {test : α → Bool}
    (h : x.toOption.any test = true) : ∃ a, x = .ok a ∧ test a = true := by
  cases x with
  | error e => simp [Except.toOption] at h
  | ok a => exact ⟨a, rfl, by simpa [Except.toOption] using h⟩

/-- Sources that read as a package with some property give such a package. -/
theorem exists_of_any {org name : String} {sources : List Source} {test : Package → Bool}
    (h : (ofSources org name sources).toOption.any test = true) :
    ∃ p : Package, p.IsRead ∧ test p = true := by
  obtain ⟨p, hp, htest⟩ := exists_ok_of_any h
  exact ⟨p, isRead_of_ofSources hp, htest⟩

theorem mapM_mem {α β ε : Type} {f : α → Except ε β} {as : List α} {bs : List β}
    (h : as.mapM f = .ok bs) {b : β} (hb : b ∈ bs) : ∃ a ∈ as, f a = .ok b := by
  induction as generalizing bs with
  | nil =>
    simp only [List.mapM_nil, pure, Except.pure, Except.ok.injEq] at h
    simp [← h] at hb
  | cons a as ih =>
    rw [List.mapM_cons] at h
    cases ha : f a with
    | error e => simp [ha, bind, Except.bind] at h
    | ok b' =>
      cases has : as.mapM f with
      | error e => simp [ha, has, bind, Except.bind] at h
      | ok bs' =>
        simp only [ha, has, bind, Except.bind, pure, Except.pure, Except.ok.injEq] at h
        rw [← h] at hb
        rcases List.mem_cons.mp hb with rfl | hb
        · exact ⟨a, by simp, ha⟩
        · obtain ⟨a', ha', hf⟩ := ih has hb
          exact ⟨a', by simp [ha'], hf⟩

theorem readSource_eq_ok {s : Source} {sub : Option String} {source : Source} {tree : Module}
    (h : readSource s = .ok (sub, source, tree)) :
    source = s ∧ parseModule s.text = .ok tree := by
  unfold readSource at h
  cases hsub : submoduleOf s.path with
  | error e => simp [hsub, bind, Except.bind] at h
  | ok sub' =>
    cases htree : parseModule s.text with
    | error e => simp [hsub, htree, bind, Except.bind, Except.mapError] at h
    | ok tree' =>
      simp only [hsub, htree, bind, Except.bind, Except.mapError, pure, Except.pure,
        Except.ok.injEq, Prod.mk.injEq] at h
      exact ⟨h.2.1.symm, by rw [h.2.2]⟩

section

variable {p : Package} {d d' : Document}

/-- The modules of a package that was read, one for each submodule, with their documents. -/
theorem IsRead.modules_eq (h : p.IsRead) : ∃ read : List (Option String × Source × Module),
    (∀ x ∈ read, parseModule x.2.1.text = .ok x.2.2) ∧
      ∃ submodules : List (Option String), p.modules = submodules.mapIdx fun i sub =>
        ⟨moduleNameOf p.org p.name sub, sub, documentsOf sub i read⟩ := by
  obtain ⟨sources, q, hq, hp⟩ := h
  unfold ofSources at hq
  cases hread : (sortBy (fun a b : Source => Path.le a.path b.path) sources).mapM readSource with
  | error e => simp [hread, bind, Except.bind] at hq
  | ok read =>
    simp only [hread, bind, Except.bind, pure, Except.pure, Except.ok.injEq] at hq
    refine ⟨read, fun x hx => ?_, _, by rw [hp, ← hq]⟩
    obtain ⟨s, -, hs⟩ := mapM_mem hread hx
    obtain ⟨sub, source, tree⟩ := x
    obtain ⟨rfl, htree⟩ := readSource_eq_ok hs
    exact htree

/-- A document stands where its identity says. -/
theorem IsRead.document_eq (h : p.IsRead) (hd : d ∈ p.documents) :
    p.document? d.id = some d ∧ parseModule d.source.text = .ok d.tree := by
  obtain ⟨read, hread, submodules, hmodules⟩ := h.modules_eq
  obtain ⟨m, hm, hd⟩ := List.mem_flatMap.mp hd
  rw [hmodules] at hm
  obtain ⟨i, hi, rfl⟩ := List.mem_mapIdx.mp hm
  obtain ⟨j, hj, rfl⟩ := List.mem_mapIdx.mp hd
  constructor
  · simp [document?, hmodules, documentsOf, hi, hj]
  · have hmem := List.getElem_mem hj
    exact hread _ (List.mem_of_mem_filter hmem)

/-- Two documents with one identity are one document. -/
theorem IsRead.eq_of_id_eq (h : p.IsRead) (hd : d ∈ p.documents) (hd' : d' ∈ p.documents)
    (hid : d.id = d'.id) : d = d' := by
  have h₁ := (h.document_eq hd).1
  have h₂ := (h.document_eq hd').1
  rw [hid, h₂] at h₁
  exact (Option.some.inj h₁).symm

end

end Durable.Package
