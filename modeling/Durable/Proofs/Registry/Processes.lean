/-
The processes of a host and the activities they call their own.

The activities of all processes stand in one registry, each under the name of its process, a point
and its own name, and the first of a name stays.  A name can hold points itself, so that one such
text may tell of two processes: of `a` and its activity `b.c`, and of `a.b` and its activity `c`.
Processes keep what they were registered with exactly if every text of this kind that tells of
a process tells of an activity it has.
-/
import Mathlib.Data.List.Nodup
import Mathlib.Data.List.Pairwise
import Mathlib.Data.String.Basic
import Durable.Engine.Basic
import Durable.Host.Basic
import Durable.Proofs.Package.Canonical
import Durable.Proofs.Value.Conversion

namespace Durable

/-! ### Registries -/

/-- A key stands in a table exactly if something is found under it. -/
theorem Table.mem_keys {α : Type} {t : Table α} {key : String} :
    key ∈ t.keys ↔ (t.get? key).isSome = true := by
  induction t with
  | nil => simp [keys, get?]
  | cons entry more ih =>
    obtain ⟨k, a⟩ := entry
    rw [get?, show keys ((k, a) :: more) = k :: keys more from rfl, List.mem_cons]
    split
    · next h => simp [h]
    · next h => rw [← ih, or_iff_right fun heq => h heq.symm]

namespace Registry

variable {η : Type} (r : Registry η)

/-- What was registered first stays. -/
theorem lookup?_register (name : String) (handle : η) (key : String) :
    (r.register name handle).2.lookup? key =
      (r.lookup? key).or (if name = key then some handle else none) := by
  rw [register]
  split
  · next htaken =>
    split
    · next heq =>
      obtain ⟨taken, htaken⟩ := Option.isSome_iff_exists.mp htaken
      rw [← heq, htaken, Option.some_or]
    · exact (Option.or_none).symm
  · next hfree =>
    rw [contains, Bool.not_eq_true, Option.isSome_eq_false_iff, Option.isNone_iff_eq_none] at hfree
    split
    · next heq =>
      rw [← heq, hfree, Option.none_or]
      exact Table.get?_put_self _ _ _
    · next hne =>
      rw [Option.or_none]
      exact Table.get?_put_of_ne _ _ fun heq => hne heq.symm

theorem sorted_register (h : r.entries.Sorted) (name : String) (handle : η) :
    (r.register name handle).2.entries.Sorted := by
  rw [register]
  split
  · exact h
  · exact h.put name handle

theorem mem_names {r : Registry η} {key : String} :
    key ∈ r.names ↔ (r.lookup? key).isSome = true :=
  Table.mem_keys

end Registry

namespace Registries

variable {α π : Type}

/-! ### Names of activities in their processes -/

theorem toList_scopedName (process activity : String) :
    (scopedName process activity).toList = process.toList ++ '.' :: activity.toList := by
  simp [scopedName]

/-- The name of an activity in its process is what is left of the name it is registered under. -/
theorem shortName?_eq_some {process registered short : String} :
    shortName? process registered = some short ↔ registered = scopedName process short := by
  have hscope : (scopedName process "").toList = process.toList ++ ['.'] := by
    simp [toList_scopedName]
  have hsplit : (scopedName process short).toList = (process.toList ++ ['.']) ++ short.toList := by
    simp [toList_scopedName]
  simp only [shortName?, hscope, List.isPrefixOf_iff_prefix]
  rw [← String.toList_inj, hsplit]
  constructor
  · intro h
    split at h
    · next hscope =>
      obtain ⟨rest, hrest⟩ := hscope
      cases h
      simp [← hrest]
    · contradiction
  · intro h
    rw [if_pos ⟨_, h.symm⟩, h, List.drop_left, String.ofList_toList]

/-- Activities of one process stand in the order of their own names. -/
theorem scopedName_lt {process a b : String} (h : scopedName process a < scopedName process b) :
    a < b := by
  by_contra hle
  rcases lt_or_eq_of_le (not_lt.mp hle) with hlt | rfl
  · have hback : scopedName process b < scopedName process a := by
      rw [String.lt_iff_toList_lt, toList_scopedName, toList_scopedName]
      exact List.append_left_lt (List.cons_lt_cons_iff.mpr
        (.inr ⟨rfl, String.lt_iff_toList_lt.mp hlt⟩))
    exact lt_asymm h hback
  · exact lt_irrefl _ h

/-- A process and an activity that are told by one text, where the names of processes hold no point,
are one. -/
theorem eq_of_scopedName_eq {process process' a a' : String} (h : '.' ∉ process.toList)
    (h' : '.' ∉ process'.toList) (heq : scopedName process a = scopedName process' a') :
    process = process' ∧ a = a' := by
  rw [← String.toList_inj, toList_scopedName, toList_scopedName] at heq
  rcases List.append_eq_append_iff.mp heq with ⟨more, hprocess, hrest⟩ | ⟨more, hprocess, hrest⟩
  all_goals
    cases more with
    | nil =>
      rw [List.append_nil] at hprocess
      obtain ⟨-, ha⟩ := List.cons.inj hrest
      exact ⟨String.toList_inj.mp (by simp [hprocess]), String.toList_inj.mp (by simp [ha])⟩
    | cons c more =>
      -- What one name has more than the other begins with the point.
      obtain ⟨rfl, -⟩ := List.cons.inj hrest
      simp [hprocess] at h h'

/-! ### Registering activities -/

theorem lookup?_registerActivities (r : Registries α π) (as : List (Named α)) (key : String) :
    (r.registerActivities as).2.activities.lookup? key =
      (r.activities.lookup? key).or ((as.find? (·.name == key)).map (·.handle)) := by
  induction as generalizing r with
  | nil => simp [registerActivities]
  | cons a more ih =>
    have hstep := r.activities.lookup?_register a.name a.handle key
    rw [registerActivities, List.find?_cons]
    refine (ih (r.registerActivity a).2).trans ?_
    rw [registerActivity, hstep, Option.or_assoc]
    by_cases hname : a.name = key
    · simp [hname]
    · simp [hname, beq_eq_false_iff_ne.mpr hname]

theorem sorted_registerActivities {r : Registries α π} (h : r.activities.entries.Sorted)
    (as : List (Named α)) : (r.registerActivities as).2.activities.entries.Sorted := by
  induction as generalizing r with
  | nil => exact h
  | cons a more ih => exact ih (r := (r.registerActivity a).2) (r.activities.sorted_register h _ _)

/-- Registering activities leaves the processes and the events alone. -/
theorem registerActivities_others (r : Registries α π) (as : List (Named α)) :
    (r.registerActivities as).2.processes = r.processes ∧
      (r.registerActivities as).2.events = r.events := by
  induction as generalizing r with
  | nil => exact ⟨rfl, rfl⟩
  | cons a more ih => exact ih (r.registerActivity a).2

end Registries

/-! ### Processes, one after the other -/

/-- What a process is registered with. -/
structure Enrolment (α π : Type) where
  process : Named π
  activities : List (Named α)
  /-- The names of the events that the process accepts. -/
  events : List String

namespace Enrolment

variable {α π : Type}

/-- The activities under the names they are registered under. -/
def keyed (e : Enrolment α π) : List (Named α) :=
  e.activities.map fun a => { a with name := Registries.scopedName e.process.name a.name }

/-- What is to be listed for the process. -/
def registration (e : Enrolment α π) : Registration where
  name := e.process.name
  activities := sortTexts (e.activities.map (·.name))
  events := e.events

end Enrolment

section

variable {α π ε : Type}

/-- Registers processes one after the other, up to the first that is refused. -/
def Host.registerAll (h : Host α π ε) : List (Enrolment α π) → Except HostError (Host α π ε)
  | [] => .ok h
  | e :: es =>
    match h.registerProcess e.process e.activities e.events with
    | (.ok (), registered) => registered.registerAll es
    | (.error err, _) => .error err

/-- A process that is not refused is new, and what it is registered with is put into the
registries. -/
theorem Host.registerProcess_eq_ok {h h' : Host α π ε} {e : Enrolment α π}
    (hnew : h.registerProcess e.process e.activities e.events = (.ok (), h')) :
    h.registries.processes.lookup? e.process.name = none ∧
    h'.registries.processes =
      (h.registries.processes.register e.process.name e.process.handle).2 ∧
    h'.registries.activities =
      ((h.registries.registerProcess e.process).2.registerActivities e.keyed).2.activities ∧
    h'.registries.events = (if e.events.isEmpty then h.registries.events
      else (h.registries.events.register e.process.name e.events).2) := by
  obtain ⟨hprocesses, hevents⟩ :=
    (h.registries.registerProcess e.process).2.registerActivities_others e.keyed
  rw [registerProcess] at hnew
  split at hnew
  · simp at hnew
  next withProcess hprocess =>
  have hisNew : (h.registries.processes.register e.process.name e.process.handle).1 = true :=
    congrArg (·.1) hprocess
  obtain rfl : (h.registries.registerProcess e.process).2 = withProcess := congrArg (·.2) hprocess
  obtain ⟨-, rfl⟩ := Prod.mk.inj hnew
  refine ⟨?_, ?_, ?_, ?_⟩
  · rw [Registry.register] at hisNew
    split at hisNew
    · contradiction
    · next hfree => simpa [Registry.contains] using hfree
  · simp only
    split
    · exact hprocesses
    · exact hprocesses
  · simp only
    split
    · rfl
    · rfl
  · simp only
    split
    · exact hevents
    · exact congrArg (fun r => (r.register e.process.name e.events).2) hevents

namespace Registries

/-- What the registries hold once some processes are registered and nothing else: of a name that
is used twice the first. -/
structure Holds (r : Registries α π) (es : List (Enrolment α π)) : Prop where
  process : ∀ name, r.processes.lookup? name =
    (es.find? (·.process.name == name)).map (·.process.handle)
  activity : ∀ name, r.activities.lookup? name =
    ((es.flatMap (·.keyed)).find? (·.name == name)).map (·.handle)
  events : ∀ name, (r.events.lookup? name).getD [] =
    ((es.find? (·.process.name == name)).map (·.events)).getD []
  distinct : (es.map (·.process.name)).Nodup
  /-- Only processes that are registered accept events. -/
  accepts : ∀ name, (r.events.lookup? name).isSome = true → name ∈ es.map (·.process.name)
  sorted : r.activities.entries.Sorted

namespace Holds

variable {r : Registries α π} {es : List (Enrolment α π)}

theorem empty : Holds (.empty : Registries α π) [] where
  process _ := rfl
  activity _ := rfl
  events _ := rfl
  distinct := .nil
  accepts _ h := by simp [Registries.empty, Registry.empty, Registry.lookup?, Table.get?] at h
  sorted := .nil

/-- A process is found exactly if it was registered. -/
theorem mem_processes (h : r.Holds es) {name : String} :
    name ∈ r.processes.names ↔ name ∈ es.map (·.process.name) := by
  rw [Registry.mem_names, h.process]
  simp [List.find?_isSome]

/-- The process of a name is the one that was registered under it. -/
theorem find?_eq (h : r.Holds es) {e : Enrolment α π} (he : e ∈ es) :
    es.find? (·.process.name == e.process.name) = some e := by
  obtain ⟨found, hfound⟩ : ∃ found, es.find? (·.process.name == e.process.name) = some found :=
    Option.isSome_iff_exists.mp (List.find?_isSome.mpr ⟨e, he, beq_self_eq_true _⟩)
  have hname : found.process.name = e.process.name := by simpa using List.find?_some hfound
  rw [hfound, List.inj_on_of_nodup_map h.distinct (List.mem_of_find?_eq_some hfound) he hname]

/-- **One more process is held** once it is registered. -/
theorem registerProcess {h h' : Host α π ε} (hold : h.registries.Holds es) {e : Enrolment α π}
    (hnew : h.registerProcess e.process e.activities e.events = (.ok (), h')) :
    h'.registries.Holds (es ++ [e]) := by
  obtain ⟨hfree, hprocesses, hactivities, hevents⟩ := Host.registerProcess_eq_ok hnew
  have hother : e.process.name ∉ es.map (·.process.name) := by
    rw [← hold.mem_processes, Registry.mem_names, hfree]
    simp
  constructor
  case process =>
    intro name
    rw [hprocesses, Registry.lookup?_register, hold.process, List.find?_append, Option.map_or]
    by_cases hname : e.process.name = name <;> simp [hname]
  case activity =>
    intro name
    rw [hactivities, lookup?_registerActivities, List.flatMap_append, List.find?_append,
      Option.map_or, List.flatMap_singleton]
    exact congrArg (·.or ((e.keyed.find? (·.name == name)).map (·.handle))) (hold.activity name)
  case events =>
    intro name
    have hfind : e.process.name = name → es.find? (·.process.name == name) = none := by
      rintro rfl
      simpa [List.find?_eq_none] using hother
    rw [List.find?_append, hevents]
    split
    · next hnone =>
      rw [hold.events]
      by_cases hname : e.process.name = name
      · simp [hname, hfind hname, List.isEmpty_iff.mp hnone]
      · simp [hname]
    · rw [Registry.lookup?_register]
      by_cases hname : e.process.name = name
      · have hunset : h.registries.events.lookup? name = none := by
          rw [← Option.not_isSome_iff_eq_none]
          exact fun hsome => hother (hname ▸ hold.accepts name hsome)
        simp [hname, hfind hname, hunset]
      · simp [hname, hold.events]
  case distinct =>
    rw [List.map_append]
    exact hold.distinct.append (List.nodup_singleton _) (by simpa using hother)
  case accepts =>
    intro name hname
    rw [List.map_append, List.mem_append, List.map_singleton, List.mem_singleton]
    rw [hevents] at hname
    split at hname
    · exact .inl (hold.accepts name hname)
    · rw [Registry.lookup?_register, Option.isSome_or, Bool.or_eq_true] at hname
      rcases hname with hname | hname
      · exact .inl (hold.accepts name hname)
      · split at hname
        · next heq => exact .inr heq.symm
        · contradiction
  case sorted =>
    rw [hactivities]
    exact sorted_registerActivities (r := (h.registries.registerProcess e.process).2) hold.sorted _

/-- Processes are held once they are registered one after the other. -/
theorem registerAll {h h' : Host α π ε} (hold : h.registries.Holds es) {more : List (Enrolment α π)}
    (hall : h.registerAll more = .ok h') : h'.registries.Holds (es ++ more) := by
  induction more generalizing h es with
  | nil =>
    cases hall
    rwa [List.append_nil]
  | cons e more ih =>
    rw [Host.registerAll] at hall
    split at hall
    · next registered hregistered =>
      have hnext := ih (hold.registerProcess hregistered) hall
      rwa [List.append_assoc] at hnext
    · contradiction

/-- Each process that was registered is listed once. -/
theorem mem_registrations (h : r.Holds es) {l : Registration} :
    l ∈ r.registrations ↔ ∃ e ∈ es, l = r.registration e.process.name := by
  simp only [registrations, List.mem_map, h.mem_processes]
  constructor
  · rintro ⟨_, ⟨e, he, rfl⟩, rfl⟩
    exact ⟨e, he, rfl⟩
  · rintro ⟨e, he, rfl⟩
    exact ⟨_, ⟨e, he, rfl⟩, rfl⟩

/-- A process is listed with every activity that its name and a point lead to. -/
theorem mem_activities (h : r.Holds es) {process name : String} :
    name ∈ (r.registration process).activities ↔ ∃ e ∈ es, ∃ a ∈ e.activities,
      scopedName e.process.name a.name = scopedName process name := by
  simp only [registration, List.mem_filterMap, shortName?_eq_some, exists_eq_right,
    Registry.mem_names, h.activity, Option.isSome_map, List.find?_isSome, List.mem_flatMap,
    Enrolment.keyed, List.mem_map, beq_iff_eq]
  constructor
  · rintro ⟨_, ⟨e, he, a, ha, rfl⟩, heq⟩
    exact ⟨e, he, a, ha, heq⟩
  · rintro ⟨e, he, a, ha, heq⟩
    exact ⟨_, ⟨e, he, a, ha, rfl⟩, heq⟩

theorem activities_pairwise (h : r.Holds es) (process : String) :
    (r.registration process).activities.Pairwise (· < ·) := by
  refine List.Pairwise.filterMap _ ?_ (List.pairwise_map.mpr h.sorted)
  intro x y hlt a ha b hb
  rw [shortName?_eq_some.mp ha, shortName?_eq_some.mp hb] at hlt
  exact scopedName_lt hlt

/-- Behind the name of an activity that a process has stands one that was registered under it. -/
theorem lookup?_scopedName (h : r.Holds es) {e : Enrolment α π} (he : e ∈ es) {a : Named α}
    (ha : a ∈ e.activities) : ∃ e' ∈ es, ∃ a' ∈ e'.activities,
      scopedName e'.process.name a'.name = scopedName e.process.name a.name ∧
      r.activities.lookup? (scopedName e.process.name a.name) = some a'.handle := by
  obtain ⟨found, hfound⟩ : ∃ found, (es.flatMap (·.keyed)).find?
      (·.name == scopedName e.process.name a.name) = some found :=
    Option.isSome_iff_exists.mp (List.find?_isSome.mpr
      ⟨_, List.mem_flatMap_of_mem he (List.mem_map_of_mem ha), beq_self_eq_true _⟩)
  obtain ⟨e', he', hkeyed⟩ := List.mem_flatMap.mp (List.mem_of_find?_eq_some hfound)
  obtain ⟨a', ha', rfl⟩ := List.mem_map.mp hkeyed
  refine ⟨e', he', a', ha', by simpa using List.find?_some hfound, ?_⟩
  rw [h.activity, hfound, Option.map_some]

/-- A process calls what is registered under its name, a point and the name it calls. -/
theorem activityFor_eq_ok (h : r.Holds es) {e : Enrolment α π} (he : e ∈ es) {a : Named α}
    (ha : a ∈ e.activities) {handle : α} :
    Engine.activityFor r e.process.name a.name = .ok handle ↔
      r.activities.lookup? (scopedName e.process.name a.name) = some handle := by
  obtain ⟨_, -, _, -, -, hlookup⟩ := h.lookup?_scopedName he ha
  simp [Engine.activityFor, activityFor?, hlookup]

end Holds

/-! ### What processes keep -/

/-- Every process is listed with the activities and the events it was registered with, and an
activity of its own that it calls is the one it was registered with. -/
structure KeepsOwn (r : Registries α π) (es : List (Enrolment α π)) : Prop where
  listed : ∀ l, l ∈ r.registrations ↔ ∃ e ∈ es, l = e.registration
  called : ∀ e ∈ es, ∀ a ∈ e.activities, Engine.activityFor r e.process.name a.name = .ok a.handle

/-- Every name of a registered activity that begins with a process and a point goes on with an
activity of that process, the same one. -/
def ScopesApart (es : List (Enrolment α π)) : Prop :=
  ∀ e ∈ es, ∀ e' ∈ es, ∀ a' ∈ e'.activities, ∀ name,
    scopedName e'.process.name a'.name = scopedName e.process.name name →
      ∃ a ∈ e.activities, a.name = name ∧ a.handle = a'.handle

variable {r : Registries α π} {es : List (Enrolment α π)}

theorem KeepsOwn.scopesApart (hold : r.Holds es) (h : r.KeepsOwn es) : ScopesApart es := by
  intro e he e' he' a' ha' name heq
  -- The name is listed for the process, and so the process was registered with it.
  obtain ⟨listed, hlisted, hsame⟩ := (h.listed _).mp (hold.mem_registrations.mpr ⟨e, he, rfl⟩)
  have hprocess : e.process.name = listed.process.name := congrArg Registration.name hsame
  obtain rfl := List.inj_on_of_nodup_map hold.distinct he hlisted hprocess
  have hname : name ∈ (r.registration e.process.name).activities :=
    hold.mem_activities.mpr ⟨e', he', a', ha', heq⟩
  rw [hsame] at hname
  obtain ⟨a, ha, rfl⟩ := List.mem_map.mp ((sortBy_perm _).mem_iff.mp hname)
  refine ⟨a, ha, rfl, ?_⟩
  -- Both processes call what stands under the one text.
  have hown := (hold.activityFor_eq_ok he ha).mp (h.called e he a ha)
  have hother := (hold.activityFor_eq_ok he' ha').mp (h.called e' he' a' ha')
  rw [heq, hown] at hother
  exact Option.some.inj hother

/-- A process whose activities are apart from the others is listed with what it was registered
with. -/
theorem ScopesApart.registration_eq (h : ScopesApart es) (hold : r.Holds es) {e : Enrolment α π}
    (he : e ∈ es) (hnodup : (e.activities.map (·.name)).Nodup) :
    r.registration e.process.name = e.registration := by
  have hstrict := hold.activities_pairwise e.process.name
  have hmem : ∀ name, name ∈ (r.registration e.process.name).activities ↔
      name ∈ e.activities.map (·.name) := by
    intro name
    rw [hold.mem_activities]
    constructor
    · rintro ⟨e', he', a', ha', heq⟩
      obtain ⟨a, ha, rfl, -⟩ := h e he e' he' a' ha' name heq
      exact List.mem_map_of_mem ha
    · intro hname
      obtain ⟨a, ha, rfl⟩ := List.mem_map.mp hname
      exact ⟨e, he, a, ha, rfl⟩
  have hperm : (r.registration e.process.name).activities.Perm (e.activities.map (·.name)) :=
    (List.perm_ext_iff_of_nodup (hstrict.imp ne_of_lt) hnodup).mpr hmem
  have hsorted : (sortTexts (e.activities.map (·.name))).Pairwise
      fun a b => decide (a ≤ b) = true :=
    sortBy_pairwise (fun a b => by simpa using le_total a b)
      (fun a b c => by simpa using le_trans) _
  have hactivities : (r.registration e.process.name).activities =
      sortTexts (e.activities.map (·.name)) :=
    List.Perm.eq_of_pairwise (fun a b _ _ hab hba => le_antisymm (by simpa using hab)
      (by simpa using hba)) (hstrict.imp fun hlt => by simpa using le_of_lt hlt) hsorted
      (hperm.trans (sortBy_perm _).symm)
  have hevents : (r.registration e.process.name).events = e.events := by
    have := hold.events e.process.name
    rwa [hold.find?_eq he] at this
  rw [Enrolment.registration, ← hactivities, ← hevents]
  rfl

theorem ScopesApart.keepsOwn (h : ScopesApart es) (hold : r.Holds es)
    (hnodup : ∀ e ∈ es, (e.activities.map (·.name)).Nodup) : r.KeepsOwn es where
  listed l := by
    rw [hold.mem_registrations]
    constructor
    · rintro ⟨e, he, rfl⟩
      exact ⟨e, he, h.registration_eq hold he (hnodup e he)⟩
    · rintro ⟨e, he, rfl⟩
      exact ⟨e, he, (h.registration_eq hold he (hnodup e he)).symm⟩
  called e he a ha := by
    obtain ⟨e', he', a', ha', heq, hlookup⟩ := hold.lookup?_scopedName he ha
    obtain ⟨own, hown, hname, hhandle⟩ := h e he e' he' a' ha' a.name heq
    obtain rfl := List.inj_on_of_nodup_map (hnodup e he) hown ha hname
    rw [hold.activityFor_eq_ok he ha, hlookup, hhandle]

/-- Names of processes that hold no point keep their activities apart. -/
theorem Holds.scopesApart (hold : r.Holds es) (hpoint : ∀ e ∈ es, '.' ∉ e.process.name.toList) :
    ScopesApart es := by
  intro e he e' he' a' ha' name heq
  obtain ⟨hprocess, rfl⟩ := eq_of_scopedName_eq (hpoint e' he') (hpoint e he) heq
  obtain rfl := List.inj_on_of_nodup_map hold.distinct he' he hprocess
  exact ⟨a', ha', rfl, rfl⟩

end Registries

open Registries in
/-- **Processes keep their own activities exactly if no name of a registered activity tells of two
of them**, as is the case where the names of processes hold no point. -/
theorem Host.registerAll_keepsOwn {h h' : Host α π ε} {es : List (Enrolment α π)}
    (hfresh : h.registries = .empty) (hall : h.registerAll es = .ok h')
    (hnodup : ∀ e ∈ es, (e.activities.map (·.name)).Nodup) :
    (h'.registries.KeepsOwn es ↔ ScopesApart es) ∧
      ((∀ e ∈ es, '.' ∉ e.process.name.toList) → ScopesApart es) := by
  have hold : h'.registries.Holds es := by
    have hempty : h.registries.Holds [] := hfresh ▸ .empty
    exact hempty.registerAll hall
  exact ⟨⟨fun hkeeps => hkeeps.scopesApart hold, fun hscopes => hscopes.keepsOwn hold hnodup⟩,
    hold.scopesApart⟩

end

/-- A host that nothing is registered with. -/
def Host.fresh : Host String String Unit := ⟨{}, .empty, .start 1, none, false⟩

/-- Two processes, the name of one the beginning of the other's. -/
def orders : List (Enrolment String String) :=
  [⟨⟨"order", "sell"⟩, [⟨"ship", "send"⟩, ⟨"charge", "bill"⟩], ["approval"]⟩,
    ⟨⟨"orderly", "watch"⟩, [⟨"charge", "note"⟩], []⟩]

/-- Processes without points in their names keep their own activities. -/
theorem orders_keepOwn : ∃ h', Host.fresh.registerAll orders = .ok h' ∧
    h'.registries.KeepsOwn orders := by
  cases hall : Host.fresh.registerAll orders with
  | error e =>
    have hok : (Host.fresh.registerAll orders).toOption.isSome = true := by decide +kernel
    simp [hall, Except.toOption] at hok
  | ok h' =>
    obtain ⟨hiff, hpoints⟩ := Host.registerAll_keepsOwn rfl hall (by decide)
    exact ⟨h', rfl, hiff.mpr (hpoints (by decide))⟩

/-- Two processes with activities that go by one name. -/
def alike : List (Enrolment String String) :=
  [⟨⟨"a", "first"⟩, [⟨"b.c", "one"⟩], []⟩, ⟨⟨"a.b", "second"⟩, [⟨"c", "two"⟩, ⟨"d", "three"⟩], []⟩]

/-- A process can call the activity of another under the name of its own. -/
theorem not_all_keepOwn : ¬ ∀ (h h' : Host String String Unit)
    (es : List (Enrolment String String)), h.registries = .empty →
    h.registerAll es = .ok h' → (∀ e ∈ es, (e.activities.map (·.name)).Nodup) →
    h'.registries.KeepsOwn es := by
  intro hkeeps
  have hcheck : ((Host.fresh.registerAll alike).toOption.any fun h' =>
      (Engine.activityFor h'.registries "a.b" "c").toOption == some "one") = true := by
    decide +kernel
  cases hall : Host.fresh.registerAll alike with
  | error e => simp [hall, Except.toOption] at hcheck
  | ok h' =>
    have hown := (hkeeps Host.fresh h' alike rfl hall (by decide)).called
      ⟨⟨"a.b", "second"⟩, [⟨"c", "two"⟩, ⟨"d", "three"⟩], []⟩ (by simp [alike])
      ⟨"c", "two"⟩ (by simp)
    simp [hall, Except.toOption, hown] at hcheck

end Durable
