/-
What is registered with a host stays registered.

Three registries grow while a host works, and requests of many kinds write to them: some register
on purpose, some on the way to a call of the engine that may then be refused.  `GrowsBy` says what
all of them have in common.  An exchange offers handles to each registry, and a name stands for what
it stood for, or else for the first handle that was offered to its own registry; what the other
registries hold does not matter.  A sequence of exchanges offers what its exchanges offer, in order,
so one statement for one exchange carries over to every sequence that clears nothing.
-/
import Mathlib.Data.List.Nodup
import Durable.Proofs.Host.Runs

namespace Durable

variable {α π ε η : Type}

/-! ### The first of a name -/

/-- The first of some handles that go by a name. -/
def firstNamed? (offers : List (Named η)) (name : String) : Option η :=
  (offers.find? (·.name == name)).map (·.handle)

@[simp] theorem firstNamed?_nil (name : String) : firstNamed? ([] : List (Named η)) name = none :=
  rfl

theorem firstNamed?_append (offers more : List (Named η)) (name : String) :
    firstNamed? (offers ++ more) name = (firstNamed? offers name).or (firstNamed? more name) := by
  rw [firstNamed?, List.find?_append, Option.map_or]
  rfl

theorem firstNamed?_singleton (n : Named η) (name : String) :
    firstNamed? [n] name = if n.name = name then some n.handle else none := by
  by_cases h : n.name = name <;> simp [firstNamed?, h]

theorem isSome_firstNamed? {offers : List (Named η)} {name : String} :
    (firstNamed? offers name).isSome = true ↔ ∃ n ∈ offers, n.name = name := by
  simp [firstNamed?, List.find?_isSome]

/-! ### What an exchange offers to the registries -/

namespace Exchange

/-- The processes that are offered. -/
def processes : Exchange α π ε → List (Named π)
  | ⟨.registerProcess e, _⟩ => [e.process]
  | ⟨.startProcess p _, _⟩ => [p]
  | _ => []

/-- The activities that are offered; those of a process only if the process is accepted. -/
def activities : Exchange α π ε → List (Named α)
  | ⟨.registerProcess e, .done (.ok ())⟩ => e.keyed
  | ⟨.registerServiceActivities as, _⟩ => as
  | ⟨.callActivity a _, _⟩ => [a]
  | _ => []

/-- The events that are offered, by the name of their process. -/
def events : Exchange α π ε → List (Named (List String))
  | ⟨.registerProcess e, .done (.ok ())⟩ =>
    if e.events.isEmpty then [] else [⟨e.process.name, e.events⟩]
  | _ => []

end Exchange

/-- Each name stands for what it stood for, or else for the first that was offered to its
registry. -/
structure Registries.GrowsBy (log : List (Exchange α π ε)) (r r' : Registries α π) : Prop where
  process : ∀ name, r'.processes.lookup? name =
    (r.processes.lookup? name).or (firstNamed? (log.flatMap Exchange.processes) name)
  activity : ∀ name, r'.activities.lookup? name =
    (r.activities.lookup? name).or (firstNamed? (log.flatMap Exchange.activities) name)
  event : ∀ name, r'.events.lookup? name =
    (r.events.lookup? name).or (firstNamed? (log.flatMap Exchange.events) name)

/-- What stands under a name in some registries stands under it in others. -/
structure Registries.Within (r r' : Registries α π) : Prop where
  process : ∀ name p, r.processes.lookup? name = some p → r'.processes.lookup? name = some p
  activity : ∀ name a, r.activities.lookup? name = some a → r'.activities.lookup? name = some a
  event : ∀ name es, r.events.lookup? name = some es → r'.events.lookup? name = some es

namespace Registries.GrowsBy

variable {log log' : List (Exchange α π ε)} {r r' r'' : Registries α π}

theorem refl (r : Registries α π) : GrowsBy ([] : List (Exchange α π ε)) r r :=
  ⟨fun _ => by simp, fun _ => by simp, fun _ => by simp⟩

theorem append (h : GrowsBy log r r') (h' : GrowsBy log' r' r'') : GrowsBy (log ++ log') r r'' where
  process name := by
    rw [h'.process, h.process, List.flatMap_append, firstNamed?_append, Option.or_assoc]
  activity name := by
    rw [h'.activity, h.activity, List.flatMap_append, firstNamed?_append, Option.or_assoc]
  event name := by
    rw [h'.event, h.event, List.flatMap_append, firstNamed?_append, Option.or_assoc]

theorem within (h : GrowsBy log r r') : r.Within r' where
  process name p hp := by rw [h.process, hp, Option.some_or]
  activity name a ha := by rw [h.activity, ha, Option.some_or]
  event name es hes := by rw [h.event, hes, Option.some_or]

/-- An exchange that offers nothing and leaves the registries alone. -/
theorem idle {x : Exchange α π ε} (hsame : r' = r) (hprocesses : x.processes = [])
    (hactivities : x.activities = []) (hevents : x.events = []) : GrowsBy [x] r r' := by
  subst hsame
  refine ⟨fun name => ?_, fun name => ?_, fun name => ?_⟩
  · rw [List.flatMap_singleton, hprocesses, firstNamed?_nil, Option.or_none]
  · rw [List.flatMap_singleton, hactivities, firstNamed?_nil, Option.or_none]
  · rw [List.flatMap_singleton, hevents, firstNamed?_nil, Option.or_none]

end Registries.GrowsBy

/-! ### Registering a process -/

namespace Host

variable (h : Host α π ε)

/-- A process whose name is taken is refused, and nothing changes. -/
theorem registerProcess_of_taken {p : Named π}
    (htaken : (h.registries.processes.lookup? p.name).isSome = true) (as : List (Named α))
    (events : List String) :
    h.registerProcess p as events = (.error (.duplicateRegistration p.name), h) := by
  have hrefused : h.registries.registerProcess p = (false, h.registries) := by
    rw [Registries.registerProcess, Registry.register, Registry.contains, if_pos htaken]
  rw [registerProcess, hrefused]

/-- A process whose name is free is accepted. -/
theorem registerProcess_of_free {p : Named π}
    (hfree : h.registries.processes.lookup? p.name = none) (as : List (Named α))
    (events : List String) : ∃ h', h.registerProcess p as events = (.ok (), h') := by
  have hnew : (h.registries.registerProcess p).1 = true := by
    rw [Registries.registerProcess, Registry.register, Registry.contains, hfree]
    rfl
  rw [registerProcess]
  split
  · next hrefused =>
    rw [hrefused] at hnew
    contradiction
  · exact ⟨_, rfl⟩

/-- A process is refused exactly if its name is taken. -/
theorem registerProcess_eq_error_iff (p : Named π) (as : List (Named α)) (events : List String) :
    (h.registerProcess p as events).1 = .error (.duplicateRegistration p.name) ↔
      (h.registries.processes.lookup? p.name).isSome = true := by
  constructor
  · intro herror
    by_contra hfree
    obtain ⟨h', haccepted⟩ := h.registerProcess_of_free (by simpa using hfree) as events
    rw [haccepted] at herror
    contradiction
  · intro htaken
    rw [h.registerProcess_of_taken htaken]

theorem registerProcess_growsBy (e : Enrolment α π) :
    Registries.GrowsBy [⟨.registerProcess e, (h.serve (.registerProcess e)).1⟩] h.registries
      (h.serve (.registerProcess e)).2.registries := by
  cases htaken : h.registries.processes.lookup? e.process.name with
  | some p =>
    -- The process is offered all the same, but its name is taken.
    have hrefused : h.serve (.registerProcess e) =
        (.done (.error (.duplicateRegistration e.process.name)), h) := by
      rw [serve, h.registerProcess_of_taken (by rw [htaken]; rfl)]
      rfl
    rw [hrefused]
    refine ⟨fun name => ?_, fun name => ?_, fun name => ?_⟩
    · rw [List.flatMap_singleton, Exchange.processes, firstNamed?_singleton]
      by_cases hname : e.process.name = name
      · rw [← hname, htaken, Option.some_or]
      · rw [if_neg hname, Option.or_none]
    · exact (Option.or_none).symm
    · exact (Option.or_none).symm
  | none =>
    obtain ⟨h', haccepted⟩ := h.registerProcess_of_free htaken e.activities e.events
    obtain ⟨-, hprocesses, hactivities, hevents⟩ := registerProcess_eq_ok haccepted
    have hserve : h.serve (.registerProcess e) = (.done (.ok ()), h') := by
      rw [serve, haccepted]
      rfl
    rw [hserve]
    refine ⟨fun name => ?_, fun name => ?_, fun name => ?_⟩
    · rw [hprocesses, Registry.lookup?_register, List.flatMap_singleton, Exchange.processes,
        firstNamed?_singleton]
    · rw [hactivities, Registries.lookup?_registerActivities, List.flatMap_singleton]
      rfl
    · rw [hevents, List.flatMap_singleton, Exchange.events]
      split
      · rw [firstNamed?_nil, Option.or_none]
      · rw [Registry.lookup?_register, firstNamed?_singleton]

/-! ### One request -/

/-- **A request that clears nothing lets the registries grow by what it offers.** -/
theorem serve_growsBy {q : HostRequest α π ε} (hq : q ≠ .clearRegistries) :
    Registries.GrowsBy [⟨q, (h.serve q).1⟩] h.registries (h.serve q).2.registries := by
  cases q with
  | clearRegistries => contradiction
  | registerProcess e => exact h.registerProcess_growsBy e
  | initClient engine =>
    refine .idle ?_ rfl rfl rfl
    show (h.initClient engine).2.registries = h.registries
    unfold initClient
    split <;> rfl
  | closeClient =>
    refine .idle ?_ rfl rfl rfl
    show h.closeClient.2.registries = h.registries
    unfold closeClient
    split
    · rfl
    · split <;> rfl
  | shutdown | invokeActivity name args | sendEvent process data => exact .idle rfl rfl rfl rfl
  | registerServiceActivities as =>
    obtain ⟨hprocesses, hevents⟩ := h.registries.registerActivities_others as
    refine ⟨fun name => ?_, fun name => ?_, fun name => ?_⟩
    · show (h.registries.registerActivities as).2.processes.lookup? name = _
      rw [hprocesses]
      exact (Option.or_none).symm
    · show (h.registries.registerActivities as).2.activities.lookup? name = _
      rw [Registries.lookup?_registerActivities, List.flatMap_singleton]
      rfl
    · show (h.registries.registerActivities as).2.events.lookup? name = _
      rw [hevents]
      exact (Option.or_none).symm
  | callActivity a args =>
    refine ⟨fun name => (Option.or_none).symm, fun name => ?_, fun name => (Option.or_none).symm⟩
    show (h.registries.activities.register a.name a.handle).2.lookup? name = _
    rw [Registry.lookup?_register, List.flatMap_singleton, Exchange.activities,
      firstNamed?_singleton]
  | startProcess p input =>
    refine ⟨fun name => ?_, fun name => (Option.or_none).symm, fun name => (Option.or_none).symm⟩
    show (h.registries.processes.register p.name p.handle).2.lookup? name = _
    rw [Registry.lookup?_register, List.flatMap_singleton, Exchange.processes,
      firstNamed?_singleton]

theorem serveAll_growsBy {requests : List (HostRequest α π ε)}
    (hkept : .clearRegistries ∉ requests) :
    Registries.GrowsBy (h.serveAll requests).1 h.registries (h.serveAll requests).2.registries := by
  induction requests generalizing h with
  | nil => exact .refl _
  | cons q more ih =>
    obtain ⟨hq, hmore⟩ := List.ne_and_not_mem_of_not_mem_cons hkept
    rw [serveAll_cons]
    exact (h.serve_growsBy hq.symm).append (ih (h.serve q).2 hmore)

end Host

/-! ### Counting what is new -/

/-- The activities that are counted as new are the names that are taken from then on and were free
before, each counted once. -/
theorem Registries.count_registerActivities (r : Registries α π) (as : List (Named α)) :
    ∃ names : List String, names.Nodup ∧
      (∀ name, name ∈ names ↔ r.activities.lookup? name = none ∧
        ((r.registerActivities as).2.activities.lookup? name).isSome = true) ∧
      (r.registerActivities as).1 = names.length := by
  induction as generalizing r with
  | nil =>
    refine ⟨[], .nil, fun name => ⟨fun hname => absurd hname List.not_mem_nil, ?_⟩, rfl⟩
    rintro ⟨hfree, htaken⟩
    rw [registerActivities, hfree] at htaken
    contradiction
  | cons a more ih =>
    obtain ⟨names, hnodup, hmem, hcount⟩ := ih (r.registerActivity a).2
    have hstep : ∀ name, (r.registerActivity a).2.activities.lookup? name =
        (r.activities.lookup? name).or (if a.name = name then some a.handle else none) :=
      r.activities.lookup?_register a.name a.handle
    have hall : (r.registerActivities (a :: more)).2 =
        ((r.registerActivity a).2.registerActivities more).2 := rfl
    have hsum : (r.registerActivities (a :: more)).1 =
        names.length + if (r.registerActivity a).1 then 1 else 0 := by
      rw [← hcount]
      rfl
    cases hfirst : r.activities.lookup? a.name with
    | some handle =>
      have hisNew : (r.registerActivity a).1 = false := by
        rw [registerActivity, Registry.register, Registry.contains, hfirst]
        rfl
      refine ⟨names, hnodup, fun name => ?_, by rw [hsum, hisNew]; rfl⟩
      rw [hmem, hall, hstep]
      by_cases hname : a.name = name
      · rw [← hname, hfirst, Option.some_or]
      · rw [if_neg hname, Option.or_none]
    | none =>
      have hisNew : (r.registerActivity a).1 = true := by
        rw [registerActivity, Registry.register, Registry.contains, hfirst]
        rfl
      have htaken : (r.registerActivity a).2.activities.lookup? a.name = some a.handle := by
        rw [hstep, hfirst, if_pos rfl, Option.none_or]
      refine ⟨a.name :: names, List.nodup_cons.mpr ⟨fun hagain => ?_, hnodup⟩, fun name => ?_,
        by rw [hsum, hisNew]; rfl⟩
      · -- The name is taken when the others are registered.
        have hfree := ((hmem _).mp hagain).1
        rw [htaken] at hfree
        contradiction
      · rw [List.mem_cons, hmem, hall, hstep]
        by_cases hname : name = a.name
        · subst hname
          have hkept : ((r.registerActivity a).2.registerActivities more).2.activities.lookup?
              a.name = some a.handle := by
            rw [lookup?_registerActivities, htaken, Option.some_or]
          simp [hfirst, hkept]
        · rw [if_neg (Ne.symm hname), Option.or_none, or_iff_right hname]

/-! ### Sequences of requests -/

/-- **What is registered first stays**, whatever is asked of a host, unless its registries are
cleared.  Each registry grows by what is offered to it.  A process is refused exactly if its name
was taken from the beginning or some request has offered a process of that name since, be it one
that only meant to start it; then nothing changes.  The count of new activities is that of the names
that are taken by them. -/
theorem Host.serveAll_firstWins {h h' : Host α π ε} {requests : List (HostRequest α π ε)}
    {log : List (Exchange α π ε)} (hkept : .clearRegistries ∉ requests)
    (hserve : h.serveAll requests = (log, h')) :
    h.registries.Within h'.registries ∧
    Registries.GrowsBy log h.registries h'.registries ∧
    (∀ e : Enrolment α π,
      ((h'.serve (.registerProcess e)).1
          = .done (.error (.duplicateRegistration e.process.name)) ↔
        (h'.registries.processes.lookup? e.process.name).isSome = true) ∧
      ((h'.registries.processes.lookup? e.process.name).isSome = true ↔
        (h.registries.processes.lookup? e.process.name).isSome = true ∨
          ∃ x ∈ log, ∃ p ∈ x.processes, p.name = e.process.name) ∧
      ((h'.registries.processes.lookup? e.process.name).isSome = true →
        (h'.serve (.registerProcess e)).2 = h') ∧
      ((h'.registries.processes.lookup? e.process.name).isSome = false →
        (h'.serve (.registerProcess e)).1 = .done (.ok ()))) ∧
    ∀ as : List (Named α), ∃ names : List String, names.Nodup ∧
      (∀ name, name ∈ names ↔ h'.registries.activities.lookup? name = none ∧
        ((h'.serve (.registerServiceActivities as)).2.registries.activities.lookup? name).isSome
          = true) ∧
      (h'.serve (.registerServiceActivities as)).1 = .counted names.length := by
  have hgrows := h.serveAll_growsBy hkept
  rw [hserve] at hgrows
  refine ⟨hgrows.within, hgrows, fun e => ⟨?_, ?_, fun htaken => ?_, fun hfree => ?_⟩, fun as => ?_⟩
  · rw [← h'.registerProcess_eq_error_iff e.process e.activities e.events]
    exact ⟨fun heq => HostOutcome.done.inj heq, fun heq => congrArg HostOutcome.done heq⟩
  · rw [hgrows.process, Option.isSome_or, Bool.or_eq_true, isSome_firstNamed?]
    simp only [List.mem_flatMap]
    constructor
    · rintro (hbefore | ⟨p, ⟨x, hx, hp⟩, hname⟩)
      · exact .inl hbefore
      · exact .inr ⟨x, hx, p, hp, hname⟩
    · rintro (hbefore | ⟨x, hx, p, hp, hname⟩)
      · exact .inl hbefore
      · exact .inr ⟨p, ⟨x, hx, hp⟩, hname⟩
  · rw [serve, h'.registerProcess_of_taken htaken]
    rfl
  · obtain ⟨last, haccepted⟩ :=
      h'.registerProcess_of_free (by simpa using hfree) e.activities e.events
    rw [serve, haccepted]
    rfl
  · obtain ⟨names, hnodup, hmem, hcount⟩ := h'.registries.count_registerActivities as
    refine ⟨names, hnodup, hmem, ?_⟩
    rw [← hcount]
    rfl

/-- A process is started and an activity is called on a host that has no engine to call. -/
def tooEarly : List (HostRequest String String Unit) :=
  [.startProcess ⟨"order", "sell"⟩ .nil, .callActivity ⟨"charge", "bill"⟩ .nil]

/-- What was asked for in vain is registered all the same, and what comes later does not replace
it. -/
theorem tooEarly_firstWins : .clearRegistries ∉ tooEarly ∧
    ∃ log h', Host.fresh.serveAll tooEarly = (log, h') ∧
      h'.registries.processes.lookup? "order" = some "sell" ∧
      (h'.serve (.registerProcess ⟨⟨"order", "resell"⟩, [⟨"ship", "send"⟩], []⟩)).1
        = .done (.error (.duplicateRegistration "order")) ∧
      ∃ names : List String, (h'.serve (.registerServiceActivities
          [⟨"charge", "note"⟩, ⟨"ship", "send"⟩, ⟨"ship", "post"⟩])).1 = .counted names.length ∧
        "ship" ∈ names ∧ "charge" ∉ names := by
  have hkept : HostRequest.clearRegistries ∉ tooEarly := by simp [tooEarly]
  obtain ⟨-, hgrows, hprocess, hcount⟩ :=
    Host.serveAll_firstWins (h := Host.fresh) hkept (rfl : _ = (_, _))
  refine ⟨hkept, _, _, rfl, (hgrows.process "order").trans rfl, ?_, ?_⟩
  · obtain ⟨hrefused, htaken, -⟩ := hprocess ⟨⟨"order", "resell"⟩, [⟨"ship", "send"⟩], []⟩
    exact hrefused.mpr (htaken.mpr (.inr ⟨_, List.mem_cons_self, _, List.mem_cons_self, rfl⟩))
  · obtain ⟨names, -, hmem, hnames⟩ :=
      hcount [⟨"charge", "note"⟩, ⟨"ship", "send"⟩, ⟨"ship", "post"⟩]
    refine ⟨names, hnames, (hmem "ship").mpr ⟨by decide, by decide⟩, fun hcharge => ?_⟩
    exact absurd ((hmem "charge").mp hcharge).1 (by decide)

end Durable
