/-
What workflow services may look like.

The methods of a service are judged in one pass that carries along whether an entry was seen.  Only
the finding about a second entry depends on that; all others are faults of one method each
(`filter_methodFindings`), and `methodFaults` is said without places: a fault is one of the method,
of a parameter or of the return type.  A service fulfils its contract if no method has a fault and
exactly one is the entry.

Methods stand one behind the other, and what is found about a part of a method lies in the method.
So of all that is found in a service, what lies in a method is the faults of the method.  These
depend on the method without its places, and on the imports and the types of the package; the other
members of the service, and the other services, play no part.
-/
import Durable.Rule.Service
import Durable.Proofs.Grammar.Extents
import Durable.Proofs.Model.Frame
import Durable.Proofs.Routing.Mediation
import Durable.Proofs.Rule.Signature

namespace Durable

open Model (build)

namespace Rule

variable {m : Model} {doc : DocId} {f : Function} {s : Service}

/-! ### One method -/

/-- What a fault of a method is a fault of. -/
inductive MethodPart where
  | whole
  | param (index : Nat)
  | returns
deriving DecidableEq, Repr

/-- The place of a part of a method. -/
def partSpan (f : Function) : MethodPart → Span
  | .whole => f.span
  | .param index => ((f.params[index]?).map (·.span)).getD f.span
  | .returns => (f.returns.map (·.span)).getD f.span

/-- What is found about a method, given its faults. -/
def placed (f : Function) (faults : List (Violation × MethodPart)) : List Finding :=
  faults.map fun x => ⟨x.1, partSpan f x.2⟩

/-- The faults that written parameters hold more than plain data. -/
def paramFaults (m : Model) (doc : DocId) (f : Function) : List (Violation × MethodPart) :=
  ((f.params.map fun q => m.isAnydata doc q.type).zipIdx.filter fun x => !x.1).map fun x =>
    (.methodParam, .param x.2)

/-- The fault that a written return type is not admitted. -/
def returnFault (m : Model) (doc : DocId) (f : Function) : List (Violation × MethodPart) :=
  if m.role doc f.annotations = .query then
    if f.returns.all (m.isAnydataOrError doc) then [] else [(.queryReturn, .returns)]
  else if f.returns.all (m.isErrorOrNil doc) then [] else [(.methodReturn, .returns)]

/-- The faults of a method, however many entries there are. -/
def methodFaults (m : Model) (doc : DocId) (f : Function) : List (Violation × MethodPart) :=
  if f.isResource then [(.resourceMethod, .whole)]
  else if !f.isRemote then []
  else (if isEntry m f || isMarked m doc f then [] else [(.methodUnmarked, .whole)])
    ++ ((if f.isIsolated then [] else [(.methodNotIsolated, .whole)])
      ++ paramFaults m doc f ++ returnFault m doc f)

theorem placed_append (f : Function) (xs ys : List (Violation × MethodPart)) :
    placed f (xs ++ ys) = placed f xs ++ placed f ys := List.map_append

theorem placed_paramFaults (m : Model) (doc : DocId) (f : Function) :
    placed f (paramFaults m doc f) = paramFindings m doc .methodParam f.params := by
  have hparams : f.params = f.params.zipIdx.map Prod.fst := (List.zipIdx_map_fst 0 _).symm
  rw [placed, paramFaults, paramFindings, List.zipIdx_map, List.filter_map, List.map_map,
    List.map_map]
  conv_rhs => rw [hparams, List.filter_map, List.map_map]
  refine List.map_congr_left fun x hx => ?_
  obtain ⟨q, i⟩ := x
  have hget : f.params[i]? = some q := List.mem_zipIdx_iff_getElem?.mp (List.mem_of_mem_filter hx)
  simp [partSpan, hget]

theorem placed_returnFault (m : Model) (doc : DocId) (f : Function) :
    placed f (returnFault m doc f) =
      if m.role doc f.annotations = .query then
        returnFinding (m.isAnydataOrError doc) .queryReturn f.returns
      else returnFinding (m.isErrorOrNil doc) .methodReturn f.returns := by
  have hreturn : ∀ (ok : TypeDesc → Bool) (v : Violation),
      placed f (if f.returns.all ok then [] else [(v, .returns)]) =
        returnFinding ok v f.returns := by
    intro ok v
    cases ht : f.returns with
    | none => rfl
    | some t => cases hok : ok t <;> simp [returnFinding, placed, partSpan, ht, hok]
  rw [returnFault]
  split
  · exact hreturn _ _
  · exact hreturn _ _

/-- What is found about a remote method is its faults, but for its mark. -/
theorem placed_remoteMethod (m : Model) (doc : DocId) (f : Function) :
    placed f ((if f.isIsolated then [] else [(.methodNotIsolated, .whole)])
      ++ paramFaults m doc f ++ returnFault m doc f) = remoteMethod m doc f := by
  rw [placed_append, placed_append, placed_paramFaults, placed_returnFault, remoteMethod]
  split <;> rfl

/-- What is found at one method, given whether an entry came before it. -/
theorem methodFindings_cons (m : Model) (doc : DocId) (hasEntry : Bool) (f : Function)
    (fs : List Function) : methodFindings m doc hasEntry (f :: fs) =
      (if isEntry m f && hasEntry then [⟨.secondEntryMethod, f.name.span⟩] else [])
        ++ placed f (methodFaults m doc f)
        ++ methodFindings m doc (hasEntry || isEntry m f) fs := by
  rw [methodFindings, methodFaults]
  by_cases hresource : f.isResource = true
  · have hentry : isEntry m f = false := by simp [isEntry, hresource]
    simp [hresource, hentry, placed, partSpan]
  rw [if_neg hresource, if_neg hresource]
  by_cases hremote : f.isRemote = true
  · have hlocal : ¬ (!f.isRemote) = true := by simp [hremote]
    rw [if_neg hlocal, if_neg hlocal, placed_append, placed_remoteMethod]
    cases hentry : isEntry m f with
    | true => cases hasEntry <;> simp [placed]
    | false => cases isMarked m doc f <;> simp [placed, partSpan]
  · have hentry : isEntry m f = false := by simp [isEntry, hremote]
    simp [hremote, hentry, placed]

/-! ### All methods of a service -/

/-- No fault of a method is about how many entries there are. -/
theorem number_of_mem_methodFaults {x : Violation × MethodPart} (h : x ∈ methodFaults m doc f) :
    x.1.number ≠ 101 ∧ x.1.number ≠ 122 := by
  have hif : ∀ {b : Bool} {v : Violation} {part : MethodPart},
      x ∈ (if b then [] else [(v, part)]) → x.1 = v := by
    intro b v part hx
    cases b with
    | true => exact absurd hx List.not_mem_nil
    | false => exact congrArg Prod.fst (List.mem_singleton.mp hx)
  have hviolation : x.1 ∈ [.resourceMethod, .methodUnmarked, .methodNotIsolated, .methodParam,
      .queryReturn, Violation.methodReturn] := by
    rw [methodFaults] at h
    split at h
    · rw [List.mem_singleton.mp h]
      decide
    split at h
    · exact absurd h List.not_mem_nil
    simp only [List.mem_append, paramFaults, returnFault] at h
    obtain h | (h | h) | h := h
    · rw [hif h]
      decide
    · rw [hif h]
      decide
    · obtain ⟨y, -, rfl⟩ := List.mem_map.mp h
      simp
    · split at h
      · rw [hif h]
        decide
      · rw [hif h]
        decide
  revert hviolation
  generalize x.1 = v
  simp only [List.mem_cons, List.not_mem_nil, or_false]
  rintro (rfl | rfl | rfl | rfl | rfl | rfl) <;> decide

theorem number_of_mem_placed {x : Finding} (h : x ∈ placed f (methodFaults m doc f)) :
    x.violation.number ≠ 101 ∧ x.violation.number ≠ 122 := by
  obtain ⟨fault, hfault, rfl⟩ := List.mem_map.mp h
  exact number_of_mem_methodFaults hfault

/-- Apart from second entries, what is found at the methods are the faults of each. -/
theorem filter_methodFindings (m : Model) (doc : DocId) (hasEntry : Bool) (fs : List Function) :
    (methodFindings m doc hasEntry fs).filter (·.violation.number != 122) =
      fs.flatMap fun f => placed f (methodFaults m doc f) := by
  induction fs generalizing hasEntry with
  | nil => rfl
  | cons f fs ih =>
    have hfaults : (placed f (methodFaults m doc f)).filter (·.violation.number != 122) =
        placed f (methodFaults m doc f) :=
      List.filter_eq_self.mpr fun x hx => by simp [(number_of_mem_placed hx).2]
    rw [methodFindings_cons, List.filter_append, List.filter_append, ih, List.flatMap_cons, hfaults]
    split <;> rfl

/-- Every entry but the first of all is found to be one too many. -/
theorem filter_methodFindings_second (m : Model) (doc : DocId) (hasEntry : Bool)
    (fs : List Function) :
    (methodFindings m doc hasEntry fs).filter (·.violation.number == 122) =
      ((fs.filter (isEntry m)).drop (if hasEntry then 0 else 1)).map fun f =>
        ⟨.secondEntryMethod, f.name.span⟩ := by
  induction fs generalizing hasEntry with
  | nil => simp [methodFindings]
  | cons f fs ih =>
    have hfaults : (placed f (methodFaults m doc f)).filter (·.violation.number == 122) = [] :=
      List.filter_eq_nil_iff.mpr fun x hx => by simp [(number_of_mem_placed hx).2]
    rw [methodFindings_cons, List.filter_append, List.filter_append, ih, hfaults, List.append_nil]
    cases hentry : isEntry m f with
    | false => simp [hentry]
    | true =>
      cases hasEntry with
      | false => simp [hentry]
      | true =>
        simp only [hentry, Bool.and_self, if_true, List.filter_cons_of_pos, Bool.or_self,
          List.drop_zero, List.map_cons]
        rfl

/-- Whether there is an entry at all is not found at the methods. -/
theorem number_of_mem_methodFindings {hasEntry : Bool} {fs : List Function} {x : Finding}
    (h : x ∈ methodFindings m doc hasEntry fs) : x.violation.number ≠ 101 := by
  induction fs generalizing hasEntry with
  | nil => exact absurd h List.not_mem_nil
  | cons f fs ih =>
    rw [methodFindings_cons] at h
    obtain h | h := List.mem_append.mp h
    · obtain h | h := List.mem_append.mp h
      · split at h
        · rw [List.mem_singleton.mp h]
          exact (by decide : (122 : Nat) ≠ 101)
        · exact absurd h List.not_mem_nil
      · exact (number_of_mem_placed h).1
    · exact ih h

/-! ### The contract -/

/-- What is asked of a remote method, whatever its name. -/
structure SoundMethod (m : Model) (doc : DocId) (f : Function) : Prop where
  isolated : f.isIsolated = true
  params : ∀ q ∈ f.params, m.isAnydata doc q.type = true
  returns : ∀ t ∈ f.returns, if m.role doc f.annotations = .query then
    m.isAnydataOrError doc t = true else m.isErrorOrNil doc t = true

/-- What is asked of a service. -/
structure FulfilsContract (m : Model) (doc : DocId) (s : Service) : Prop where
  noResource : ∀ f ∈ s.methods, f.isResource = false
  oneEntry : (s.methods.filter fun f =>
    f.isRemote && f.name.name == m.options.entryMethod).length = 1
  marked : ∀ f ∈ s.methods, f.isRemote = true → f.name.name ≠ m.options.entryMethod →
    m.role doc f.annotations = .signal ∨ m.role doc f.annotations = .query
  sound : ∀ f ∈ s.methods, f.isRemote = true → SoundMethod m doc f

theorem paramFaults_eq_nil_iff :
    paramFaults m doc f = [] ↔ ∀ q ∈ f.params, m.isAnydata doc q.type = true := by
  rw [← List.map_eq_nil_iff (f := fun x => (⟨x.1, partSpan f x.2⟩ : Finding)),
    show (paramFaults m doc f).map _ = _ from placed_paramFaults m doc f]
  simp [paramFindings]

theorem returnFault_eq_nil_iff : returnFault m doc f = [] ↔
    ∀ t ∈ f.returns, if m.role doc f.annotations = .query then
      m.isAnydataOrError doc t = true else m.isErrorOrNil doc t = true := by
  rw [returnFault]
  cases f.returns with
  | none => simp
  | some t => split <;> simp

/-- A method has no fault exactly if it is no resource method and, if it is remote, is marked unless
it goes by the name of the entry, and is sound. -/
theorem methodFaults_eq_nil_iff : methodFaults m doc f = [] ↔ f.isResource = false ∧
    (f.isRemote = true → (f.name.name ≠ m.options.entryMethod →
      m.role doc f.annotations = .signal ∨ m.role doc f.annotations = .query) ∧
      SoundMethod m doc f) := by
  have hif : ∀ (b : Bool) (x : Violation × MethodPart), (if b then [] else [x]) = [] ↔ b = true := by
    intro b x
    cases b <;> simp
  have hsound : SoundMethod m doc f ↔ (f.isIsolated = true ∧ paramFaults m doc f = []) ∧
      returnFault m doc f = [] := by
    rw [paramFaults_eq_nil_iff, returnFault_eq_nil_iff]
    exact ⟨fun h => ⟨⟨h.isolated, h.params⟩, h.returns⟩, fun h => ⟨h.1.1, h.1.2, h.2⟩⟩
  rw [methodFaults]
  by_cases hresource : f.isResource = true
  · simp [hresource]
  rw [if_neg hresource]
  by_cases hremote : f.isRemote = true
  · have hmark : (isEntry m f || isMarked m doc f) = true ↔
        (f.name.name ≠ m.options.entryMethod →
          m.role doc f.annotations = .signal ∨ m.role doc f.annotations = .query) := by
      simp [isEntry, isMarked, hresource, hremote, Classical.or_iff_not_imp_left]
    rw [if_neg (by simp [hremote]), List.append_eq_nil_iff, List.append_eq_nil_iff,
      List.append_eq_nil_iff, hif, hif, hmark, hsound]
    simp only [hresource, hremote, forall_const, true_and]
  · simp [hresource, hremote]

theorem methodFindings_eq_nil_iff {fs : List Function} : methodFindings m doc false fs = [] ↔
    (∀ f ∈ fs, methodFaults m doc f = []) ∧ (fs.filter (isEntry m)).length ≤ 1 := by
  have hfaults := filter_methodFindings m doc false fs
  have hsecond := filter_methodFindings_second m doc false fs
  have hempty : (∀ f ∈ fs, methodFaults m doc f = []) ↔
      (fs.flatMap fun f => placed f (methodFaults m doc f)) = [] := by
    simp only [List.flatMap_eq_nil_iff, placed, List.map_eq_nil_iff]
  have hfew : (fs.filter (isEntry m)).length ≤ 1 ↔
      (((fs.filter (isEntry m)).drop 1).map fun f =>
        (⟨.secondEntryMethod, f.name.span⟩ : Finding)) = [] := by
    rw [List.map_eq_nil_iff, List.drop_eq_nil_iff]
  rw [hempty, hfew, ← hfaults]
  constructor
  · intro h
    rw [h] at hsecond ⊢
    exact ⟨rfl, hsecond.symm⟩
  · rintro ⟨hnone, hdrop⟩
    rw [if_neg Bool.false_ne_true, hdrop] at hsecond
    rw [List.eq_nil_iff_forall_not_mem]
    intro x hx
    have hne := List.filter_eq_nil_iff.mp hnone x hx
    exact List.filter_eq_nil_iff.mp hsecond x hx (by simpa using hne)

/-- Nothing is found in a service exactly if it fulfils its contract. -/
theorem serviceContract_eq_nil_iff : serviceContract m doc s = [] ↔ FulfilsContract m doc s := by
  have hentries : (∀ f ∈ s.methods, f.isResource = false) → s.methods.filter (isEntry m) =
      s.methods.filter fun f => f.isRemote && f.name.name == m.options.entryMethod := by
    intro hno
    refine List.filter_congr fun f hf => ?_
    rw [isEntry, hno f hf, Bool.not_false, Bool.true_and]
  have hmissing : (if (entries m s).isEmpty then [(⟨.noEntryMethod, s.span⟩ : Finding)] else []) =
      [] ↔ 1 ≤ (s.methods.filter (isEntry m)).length := by
    rw [entries]
    cases s.methods.filter (isEntry m) <;> simp
  rw [serviceContract, List.append_eq_nil_iff, methodFindings_eq_nil_iff, hmissing]
  constructor
  · rintro ⟨⟨hfaults, hfew⟩, hsome⟩
    have hmethod := fun f hf => methodFaults_eq_nil_iff.mp (hfaults f hf)
    have hno := fun f hf => (hmethod f hf).1
    exact ⟨hno, hentries hno ▸ Nat.le_antisymm hfew hsome,
      fun f hf hremote => ((hmethod f hf).2 hremote).1,
      fun f hf hremote => ((hmethod f hf).2 hremote).2⟩
  · intro h
    have hone := h.oneEntry
    rw [← hentries h.noResource] at hone
    refine ⟨⟨fun f hf => methodFaults_eq_nil_iff.mpr ⟨h.noResource f hf, fun hremote =>
      ⟨h.marked f hf hremote, h.sound f hf hremote⟩⟩, hone.le⟩, hone.ge⟩

/-! ### What lies in a method -/

/-- The methods of a service stand one behind the other and behind its start, and the parts of each
stand in it. -/
structure StandsApart (s : Service) : Prop where
  follow : s.methods.Pairwise fun f g => f.span.stop ≤ g.span.start
  behind : ∀ f ∈ s.methods, s.span.start < f.span.start
  inside : ∀ f ∈ s.methods, ∀ part, f.span.Contains (partSpan f part) ∧
    (partSpan f part).start < (partSpan f part).stop

/-- A part of a method has the place of something that belongs to it. -/
theorem exists_extent_partSpan (f : Function) (part : MethodPart) :
    partSpan f part = f.span ∨ ∃ x ∈ f.extent.parts, x.span = partSpan f part := by
  cases part with
  | whole => exact .inl rfl
  | param i =>
    cases hq : f.params[i]? with
    | none => exact .inl (by simp [partSpan, hq])
    | some q =>
      refine .inr ⟨q.extent, ?_, by simp [partSpan, hq]; rfl⟩
      have hmem := List.mem_map_of_mem (f := Param.extent) (List.mem_of_getElem? hq)
      simp [Function.extent, Extent.parts, hmem]
  | returns =>
    cases ht : f.returns with
    | none => exact .inl (by simp [partSpan, ht])
    | some t =>
      refine .inr ⟨t.extent, ?_, by simp [partSpan, ht, TypeDesc.span_extent]⟩
      simp [Function.extent, Extent.parts, typeExtent?, ht]

theorem members_follow {source : Source} {tree : Module} {c c' : Cursor} {cs : List Char}
    (hc : c.StandsIn cs) (h : ReadsModule source c tree c') (hs : .service s ∈ tree.members) :
    (s.members.Pairwise fun a b => a.extent.span.stop ≤ b.extent.span.start) ∧
      ∀ a ∈ s.members, s.keywordSpan.stop ≤ a.extent.span.start := by
  cases h with
  | mk imports members =>
    obtain ⟨e, e', hr, hmember⟩ := members.reached memberStep_reaches ReadsMember.reaches hs
    cases hmember with
    | mk annotations modifiers decl =>
      have hat := hc.reaches <| (imports.reaches (fun _ _ _ => Gap.step_reaches)
        fun _ _ _ => ReadsImport.reaches).trans <|
          hr.trans (annotations.reaches.trans modifiers.reaches)
      cases decl with
      | service decl => exact decl.members_follow hat

/-- The places of a service that was read. -/
theorem standsApart {p : Package} {d : Document} (hp : p.IsRead) (hd : d ∈ p.documents)
    (hs : s ∈ Routing.servicesOf d) : StandsApart s := by
  have hs := Routing.mem_servicesOf.mp hs
  obtain ⟨ts, tail, c', htiling, hread⟩ := reads_of_parseModule (hp.document_eq hd).2
  have hc := Cursor.standsIn_ofTiles (Text.byteLength d.source.text.toList) htiling
  have hsound := fun {x} => hread.encloses.sound (x := x) hc (List.Subset.refl _)
  -- Whatever belongs to the service is sound in the text.
  have hservice : ∀ x ∈ s.extent.all, ∃ tokens size, x.Sound tokens size := by
    intro x hx
    refine ⟨_, _, hsound ?_⟩
    rw [Extent.allOf_eq_flatMap, List.mem_flatMap]
    exact ⟨s.extent, List.mem_append_right _ (List.mem_map_of_mem hs), hx⟩
  have hmethod : ∀ f ∈ s.methods, f.extent ∈ s.extent.parts := by
    intro f hf
    obtain ⟨member, hmember, hf⟩ := List.mem_filterMap.mp hf
    cases member with
    | method g =>
      obtain rfl := Option.some.inj hf
      exact List.mem_append_right _ (List.mem_map_of_mem hmember)
    | field v => exact absurd hf nofun
  obtain ⟨hfollow, hbehind⟩ := members_follow hc hread hs
  constructor
  · refine hfollow.filterMap _ fun a b hab f hf g hg => ?_
    cases a with
    | field v => exact absurd hf nofun
    | method f' =>
      cases b with
      | field v => exact absurd hg nofun
      | method g' =>
        obtain rfl := Option.some.inj hf
        obtain rfl := Option.some.inj hg
        exact hab
  · intro f hf
    obtain ⟨member, hmember, hf⟩ := List.mem_filterMap.mp hf
    cases member with
    | field v => exact absurd hf nofun
    | method g =>
      obtain rfl := Option.some.inj hf
      have hword : Extent.leaf s.keywordSpan ∈ s.extent.parts := by
        simp [Service.extent, Extent.parts]
      obtain ⟨tokens, size, hwhole⟩ := hservice s.extent s.extent.mem_all
      obtain ⟨_, _, hsound⟩ := hservice _ (Extent.all_subset hword (Extent.mem_all _))
      have hstart := (hwhole.nests.contains _ (Extent.mem_allOf hword)).1
      exact lt_of_le_of_lt hstart (lt_of_lt_of_le hsound.nonempty (hbehind _ hmember))
  · intro f hf part
    have hf' := hmethod f hf
    obtain ⟨tokens, size, hwhole⟩ := hservice f.extent (Extent.all_subset hf' f.extent.mem_all)
    obtain hpart | ⟨x, hx, hpart⟩ := exists_extent_partSpan f part
    · rw [hpart]
      exact ⟨⟨le_refl _, le_refl _⟩, hwhole.nonempty⟩
    · rw [← hpart]
      obtain ⟨tokens, size, hsound⟩ :=
        hservice x (Extent.all_subset hf' (Extent.all_subset hx x.mem_all))
      exact ⟨hwhole.nests.contains x (Extent.mem_allOf hx), hsound.nonempty⟩

instance (outer inner : Span) : Decidable (outer.Contains inner) :=
  inferInstanceAs (Decidable (_ ∧ _))

/-- What is found in a service, second entries apart, and lies in one of its methods. -/
def foundIn (m : Model) (doc : DocId) (s : Service) (f : Function) : List Finding :=
  (serviceContract m doc s).filter fun x =>
    decide (f.span.Contains x.span) && x.violation.number != 122

/-- The faults of a method do not lie in one that stands apart from it. -/
theorem not_contains_of_apart {g : Function} {faults : List (Violation × MethodPart)}
    (hg : ∀ part, g.span.Contains (partSpan g part) ∧
      (partSpan g part).start < (partSpan g part).stop)
    (happart : g.span.stop ≤ f.span.start ∨ f.span.stop ≤ g.span.start) :
    (placed g faults).filter (fun x => decide (f.span.Contains x.span)) = [] := by
  refine List.filter_eq_nil_iff.mpr fun x hx => ?_
  obtain ⟨fault, -, rfl⟩ := List.mem_map.mp hx
  obtain ⟨⟨hstart, hstop⟩, hlt⟩ := hg fault.2
  rw [decide_eq_true_iff]
  rintro ⟨hstart', hstop'⟩
  dsimp only at hstart' hstop'
  omega

/-- **Of what is found in a service, what lies in a method is the faults of the method**, second
entries apart. -/
theorem foundIn_eq (hs : StandsApart s) (hf : f ∈ s.methods) :
    foundIn m doc s f = placed f (methodFaults m doc f) := by
  obtain ⟨front, back, hsplit⟩ := List.append_of_mem hf
  have hfollow := hs.follow
  rw [hsplit, List.pairwise_append, List.pairwise_cons] at hfollow
  obtain ⟨-, ⟨hafter, -⟩, hbefore⟩ := hfollow
  have hothers : ∀ gs : List Function, (∀ g ∈ gs, g ∈ s.methods ∧
      (g.span.stop ≤ f.span.start ∨ f.span.stop ≤ g.span.start)) →
      (gs.flatMap fun g => placed g (methodFaults m doc g)).filter
        (fun x => decide (f.span.Contains x.span)) = [] := by
    intro gs hgs
    rw [List.filter_flatMap, List.flatMap_eq_nil_iff]
    exact fun g hg => not_contains_of_apart (hs.inside g (hgs g hg).1) (hgs g hg).2
  have hown : (placed f (methodFaults m doc f)).filter (fun x => decide (f.span.Contains x.span)) =
      placed f (methodFaults m doc f) := by
    refine List.filter_eq_self.mpr fun x hx => decide_eq_true_iff.mpr ?_
    obtain ⟨fault, -, rfl⟩ := List.mem_map.mp hx
    exact (hs.inside f hf fault.2).1
  have hmissing : ((if (entries m s).isEmpty then [(⟨.noEntryMethod, s.span⟩ : Finding)] else
      []).filter (·.violation.number != 122)).filter (fun x => decide (f.span.Contains x.span)) =
      [] := by
    refine List.filter_eq_nil_iff.mpr fun x hx => ?_
    have hx := List.mem_of_mem_filter hx
    split at hx
    · rw [List.mem_singleton.mp hx, decide_eq_true_iff]
      exact fun h => Nat.not_le_of_lt (hs.behind f hf) h.1
    · exact absurd hx List.not_mem_nil
  rw [foundIn, ← List.filter_filter, serviceContract, List.filter_append, List.filter_append,
    filter_methodFindings, hmissing, List.append_nil, hsplit, List.flatMap_append,
    List.flatMap_cons, List.filter_append, List.filter_append, hown, hothers, hothers]
  · simp
  · intro g hg
    exact ⟨hsplit ▸ by simp [hg], .inr (hafter g hg)⟩
  · intro g hg
    exact ⟨hsplit ▸ by simp [hg], .inl (hbefore g hg f List.mem_cons_self)⟩

/-! ### The same method elsewhere -/

section

variable {p p' : Package} {o : Options} {f' : Function}

/-- In packages with the same imports and types, methods that differ in their places only have the
same faults. -/
theorem methodFaults_congr (h : p.declared = p'.declared) (hf : f.erase = f'.erase) :
    methodFaults (build p o) doc f = methodFaults (build p' o) doc f' := by
  have hhas := Modifiers.has_of_erase (congrArg Function.modifiers hf)
  have hname : f.name.name = f'.name.name := congrArg (·.name.name) hf
  have hrole : (build p o).role doc f.annotations = (build p' o).role doc f'.annotations :=
    Model.role_congr h (congrArg Function.annotations hf)
  have hparams : f.params.map (fun q => (build p o).isWithin doc .plain q.type) =
      f'.params.map fun q => (build p' o).isWithin doc .plain q.type := by
    have htypes : (f.params.map (·.type)).map TypeDesc.erase =
        (f'.params.map (·.type)).map TypeDesc.erase := by
      have herase := congrArg (fun g : Function => g.params.map (·.type)) hf
      simpa only [Function.erase, Param.erase, List.map_map, Function.comp_def] using herase
    have hjudged : (f.params.map (·.type)).map ((build p o).isWithin doc .plain) =
        (f'.params.map (·.type)).map ((build p' o).isWithin doc .plain) :=
      Model.map_isWithin_congr h htypes
    simpa only [List.map_map, Function.comp_def] using hjudged
  have hreturns : ∀ a : Admitted, f.returns.all ((build p o).isWithin doc a) =
      f'.returns.all ((build p' o).isWithin doc a) := by
    intro a
    have herase : f.returns.map TypeDesc.erase = f'.returns.map TypeDesc.erase :=
      congrArg Function.returns hf
    cases ht : f.returns with
    | none =>
      rw [ht, Option.map_none] at herase
      rw [Option.map_eq_none_iff.mp herase.symm, Option.all_none, Option.all_none]
    | some t =>
      rw [ht, Option.map_some] at herase
      obtain ⟨t', ht', hsame⟩ := Option.map_eq_some_iff.mp herase.symm
      rw [ht', Option.all_some, Option.all_some, Model.isWithin_congr h hsame.symm]
  have hentry : isEntry (build p o) f = isEntry (build p' o) f' := by
    simp only [isEntry, Function.isResource, Function.isRemote, hhas, hname, build]
  have hparam : paramFaults (build p o) doc f = paramFaults (build p' o) doc f' := by
    simp only [paramFaults, Model.isAnydata, hparams]
  have hreturn : returnFault (build p o) doc f = returnFault (build p' o) doc f' := by
    have hplain : ∀ m : Model, m.isAnydataOrError doc = m.isWithin doc .plainOrError := fun _ => rfl
    have herror : ∀ m : Model, m.isErrorOrNil doc = m.isWithin doc .errorOrNil := fun _ => rfl
    rw [returnFault, returnFault, hrole, hplain, hplain, herror, herror, hreturns, hreturns]
  have hmarked : isMarked (build p o) doc f = isMarked (build p' o) doc f' := by
    rw [isMarked, isMarked, hrole]
  have hresource : f.isResource = f'.isResource := hhas .resource
  have hremote : f.isRemote = f'.isRemote := hhas .remote
  have hisolated : f.isIsolated = f'.isIsolated := hhas .isolated
  rw [methodFaults, methodFaults, hresource, hremote, hisolated, hentry, hmarked, hparam, hreturn]

/-- What is found about the entries: the second and all further ones, or that there is none. -/
theorem filter_serviceContract (m : Model) (doc : DocId) (s : Service) :
    (serviceContract m doc s).filter (·.violation.number == 122) =
      ((entries m s).drop 1).map (fun f => ⟨.secondEntryMethod, f.name.span⟩) ∧
    (serviceContract m doc s).filter (·.violation.number == 101) =
      if entries m s = [] then [⟨.noEntryMethod, s.span⟩] else [] := by
  have hmethods : (methodFindings m doc false s.methods).filter (·.violation.number == 101) = [] :=
    List.filter_eq_nil_iff.mpr fun x hx => by simp [number_of_mem_methodFindings hx]
  rw [serviceContract, List.filter_append, List.filter_append, filter_methodFindings_second,
    hmethods, if_neg Bool.false_ne_true, ← entries]
  cases entries m s with
  | nil => exact ⟨rfl, rfl⟩
  | cons f fs => exact ⟨List.append_nil _, rfl⟩

/-- **The contract of services is judged exactly.**  Nothing is found in a service exactly if it
fulfils its contract.  Its entries are the remote methods, no resource methods, that have the name
of the entry; each of them but the first is found to be one too many, and if there is none, that is
found at the service.  All else that lies in a method is the same wherever the method stands, and
whatever the other members are: in a service of another package too, if both packages have the same
imports and types, and the documents the same place in them. -/
theorem serviceContract_exact {p : Package} {o : Options} {d : Document} {s : Service}
    (hp : p.IsRead) (hd : d ∈ p.documents) (hs : s ∈ Routing.servicesOf d) :
    (serviceContract (build p o) d.id s = [] ↔ FulfilsContract (build p o) d.id s) ∧
    entries (build p o) s = s.methods.filter (fun f =>
      f.isRemote && !f.isResource && f.name.name == o.entryMethod) ∧
    (serviceContract (build p o) d.id s).filter (·.violation.number == 122) =
      ((entries (build p o) s).drop 1).map (fun f => ⟨.secondEntryMethod, f.name.span⟩) ∧
    (serviceContract (build p o) d.id s).filter (·.violation.number == 101) =
      (if entries (build p o) s = [] then [⟨.noEntryMethod, s.span⟩] else []) ∧
    ∀ p' d' s', p'.IsRead → d' ∈ p'.documents → s' ∈ Routing.servicesOf d' →
      p.declared = p'.declared → d.id = d'.id →
      ∀ f ∈ s.methods, ∀ f' ∈ s'.methods, f.erase = f'.erase →
        ∃ faults, foundIn (build p o) d.id s f = placed f faults ∧
          foundIn (build p' o) d'.id s' f' = placed f' faults := by
  refine ⟨serviceContract_eq_nil_iff, List.filter_congr fun f _ => ?_,
    (filter_serviceContract _ _ _).1, (filter_serviceContract _ _ _).2, ?_⟩
  · rw [isEntry, Bool.and_comm (!f.isResource)]
    rfl
  · intro p' d' s' hp' hd' hs' hdeclared hid f hf f' hf' hsame
    refine ⟨methodFaults (build p o) d.id f, foundIn_eq (standsApart hp hd hs) hf, ?_⟩
    rw [methodFaults_congr hdeclared hsame, hid]
    exact foundIn_eq (standsApart hp' hd' hs') hf'

/-- Two services with a method `poke` each, behind two entries and before a resource method. -/
def pokesTwice : Source where
  path := "main.wf"
  text := "import ballerina/workflow;\n"
    ++ "service on new workflow:Listener() \x7b isolated remote function execute() \x7b \x7d "
    ++ "isolated remote function execute() \x7b \x7d "
    ++ "remote function poke(any x) returns int \x7b \x7d \x7d\n"
    ++ "service on new workflow:Listener() \x7b remote function poke(any x) returns int \x7b \x7d "
    ++ "resource function get list() \x7b \x7d \x7d\n"

/-- The method of these services, without its places. -/
def poke : Function where
  annotations := []
  modifiers := [(.remote, .synthetic)]
  name := ⟨"poke", .synthetic⟩
  resourcePath := none
  params := [⟨[], .required, .builtin .any .synthetic, ⟨"x", .synthetic⟩, none, .synthetic⟩]
  returns := some (.builtin .int .synthetic)
  body := .mk [] .synthetic
  span := .synthetic

/-- A method is the one of these services. -/
def isPoke : Function → Bool
  | ⟨[], [(.remote, _)], name, none, [⟨[], .required, .builtin .any _, x, none, _⟩],
      some (.builtin .int _), .mk [] _, _⟩ => name.name == "poke" && x.name == "x"
  | _ => false

theorem erase_of_isPoke {f : Function} (h : isPoke f = true) : f.erase = poke := by
  unfold isPoke at h
  split at h
  · obtain ⟨hname, hx⟩ := Bool.and_eq_true_iff.mp h
    simp [Function.erase, poke, Modifiers.erase, Param.erase, Ident.erase, eq_of_beq hname,
      eq_of_beq hx]
  · contradiction

/-- The method has the same four faults in both. -/
theorem pokesTwice_exact : ∃ p d s s' f f', p.IsRead ∧ d ∈ p.documents ∧
    s ∈ Routing.servicesOf d ∧ s' ∈ Routing.servicesOf d ∧ f ∈ s.methods ∧ f' ∈ s'.methods ∧
    f.span ≠ f'.span ∧ (entries (build p {}) s).length = 2 ∧ entries (build p {}) s' = [] ∧
    ∃ faults, faults.length = 4 ∧ foundIn (build p {}) d.id s f = placed f faults ∧
      foundIn (build p {}) d.id s' f' = placed f' faults := by
  obtain ⟨p, hp, hcheck⟩ := Package.exists_of_any (show ((Package.ofSources "acme" "orders"
      [pokesTwice]).toOption.any fun p => p.documents.any fun d =>
        (Routing.servicesOf d).any fun s => (Routing.servicesOf d).any fun s' =>
          s.methods.any fun f => s'.methods.any fun f' => isPoke f && isPoke f' &&
            f.span != f'.span && (entries (build p {}) s).length == 2 &&
            (entries (build p {}) s').isEmpty && (foundIn (build p {}) d.id s f).length == 4) = true
      by decide +kernel)
  simp only [List.any_eq_true, Bool.and_eq_true, bne_iff_ne, beq_iff_eq, List.isEmpty_iff] at hcheck
  obtain ⟨d, hd, s, hs, s', hs', f, hf, f', hf', ⟨⟨⟨⟨hpoke, hpoke'⟩, hspan⟩, htwo⟩, hnone⟩, hfour⟩ :=
    hcheck
  obtain ⟨-, -, -, -, hframe⟩ := serviceContract_exact (o := {}) hp hd hs
  obtain ⟨faults, hfound, hfound'⟩ := hframe p d s' hp hd hs' rfl rfl f hf f' hf'
    ((erase_of_isPoke hpoke).trans (erase_of_isPoke hpoke').symm)
  refine ⟨p, d, s, s', f, f', hp, hd, hs, hs', hf, hf', hspan, htwo, hnone, faults, ?_, hfound,
    hfound'⟩
  rwa [hfound, placed, List.length_map] at hfour

end

end Rule

end Durable
