/-
How long a workflow sleeps.

All sleeps of all workflows share one list of deadlines, which grows when a sleep is met for the
first time and shrinks when a workflow ends.  What is in it for a running workflow can be read off
its story alone: the deadline of a sleep is that of the first sleep under its id since the workflow
was started (`Since.deadline?_eq`).  A step of any other kind, a sleep under another id and a later
sleep under the same one all leave it alone, and what an earlier workflow slept under the same id
was forgotten with it.

Whether a first sleep is long enough is a question of the clock.  A deadline is exact as long as it
can be told.  Behind the last instant there is none, and a duration that is too long to be added at
all counts as none, so that the longest sleeps are over at once.
-/
import Durable.Proofs.Engine.Runs

namespace Durable

/-! ### The clock -/

namespace Clock

/-- The longest duration: as many seconds as a word can count, and as many nanoseconds as do not
make another. -/
def longestDuration : Nat := 18446744073709551615 * second + (second - 1)

theorem lastInstant_le_longestDelay : lastInstant ≤ longestDelay := by decide

/-- Adding a duration to an instant is exact as far as instants can be told.  Beyond that there is no
deadline, or, for a duration that is too long to be added, the instant itself. -/
theorem deadline?_cases (now duration : Nat) :
    (now + duration ≤ lastInstant ∧ deadline? now duration = some (now + duration)) ∨
    (lastInstant < now + duration ∧ duration ≤ longestDelay ∧ deadline? now duration = none) ∨
    (longestDelay < duration ∧
      deadline? now duration = if now ≤ lastInstant then some now else none) := by
  by_cases hlong : duration ≤ longestDelay
  · have hdelay : delay duration = duration := if_pos hlong
    by_cases htold : now + duration ≤ lastInstant
    · exact .inl ⟨htold, by rw [deadline?, hdelay, if_pos htold]⟩
    · exact .inr (.inl ⟨Nat.lt_of_not_le htold, hlong, by rw [deadline?, hdelay, if_neg htold]⟩)
  · have hdelay : delay duration = 0 := if_neg hlong
    exact .inr (.inr ⟨Nat.lt_of_not_le hlong, by rw [deadline?, hdelay, Nat.add_zero]⟩)

theorem deadline?_of_le {now duration : Nat} (h : now + duration ≤ lastInstant) :
    deadline? now duration = some (now + duration) := by
  have hshort := lastInstant_le_longestDelay
  obtain ⟨-, heq⟩ | ⟨hlate, -, -⟩ | ⟨hlong, -⟩ := deadline?_cases now duration
  · exact heq
  · omega
  · omega

end Clock

namespace Engine

variable {α π : Type} {e : Engine} {id sleepId : String}

/-! ### Sleeping -/

theorem sleep_of_deadline {instant : Nat} (hrunning : e.isRunning id = true)
    (h : e.deadline? id sleepId = some instant) (duration now : Nat) :
    e.sleep id sleepId duration now = (.ok (instant - now), e) := by
  obtain ⟨i, hi, hstatus⟩ := isRunning_eq_true.mp hrunning
  simp [sleep, hi, hstatus, h]

theorem sleep_of_told {duration now instant : Nat} (hrunning : e.isRunning id = true)
    (hfirst : e.deadline? id sleepId = none)
    (htold : Clock.deadline? now duration = some instant) :
    e.sleep id sleepId duration now =
      (.ok (instant - now), { e with deadlines := e.deadlines ++ [⟨id, sleepId, instant⟩] }) := by
  obtain ⟨i, hi, hstatus⟩ := isRunning_eq_true.mp hrunning
  simp [sleep, hi, hstatus, hfirst, htold]

theorem sleep_of_untold {duration now : Nat} (hrunning : e.isRunning id = true)
    (hfirst : e.deadline? id sleepId = none) (huntold : Clock.deadline? now duration = none) :
    e.sleep id sleepId duration now = (.error (.panic (some "deadline out of range")), e) := by
  obtain ⟨i, hi, hstatus⟩ := isRunning_eq_true.mp hrunning
  simp [sleep, hi, hstatus, hfirst, huntold]

theorem sleep_of_ended {i : Instance} (hi : e.instances.get? id = some i)
    (hended : i.status ≠ .running) (sleepId : String) (duration now : Nat) :
    e.sleep id sleepId duration now = (.ok 0, e) := by
  simp [sleep, hi, hended]

/-! ### What a step does to a deadline -/

theorem deadline?_finish_of_ne {other : String} (h : id ≠ other) (output : Output)
    (sleepId : String) : (e.finish other output).deadline? id sleepId = e.deadline? id sleepId := by
  rw [deadline?, deadlines_finish, deadline?, List.find?_filter]
  congr 2
  funext d
  by_cases hd : d.workflow = id
  · simp [hd, h, ← beq_eq_decide]
  · simp [hd]

/-- A start leaves the deadlines of a running workflow alone: it takes none away but those under its
own id, where no workflow is running. -/
theorem deadline?_start (hrunning : e.isRunning id = true) (r : Registries α π)
    (fresh process : String) (input : EngineValue) (spawn : Spawn) (sleepId : String) :
    (start r e fresh process input spawn).2.deadline? id sleepId = e.deadline? id sleepId := by
  cases start_cases r e fresh process input spawn with
  | refused _ call => rw [call]
  | granted _ _ _ call | stranded _ _ call =>
    rw [call]
    rfl
  | @failed other cause _ hbegins _ _ call =>
    have hother : id ≠ other := by
      rintro rfl
      exact Bool.false_ne_true (hbegins.free.symm.trans hrunning)
    rw [call, deadline?_finish_of_ne hother]
    rfl

theorem deadline?_send (r : Registries α π) (e : Engine) (process : String) (data : EngineValue)
    (id sleepId : String) :
    (e.send r process data).2.deadline? id sleepId = e.deadline? id sleepId := by
  obtain ⟨other, i, haccepts⟩ | ⟨answer, -, heq⟩ := send_cases r e process data
  · rw [haccepts.send_eq]
    rfl
  · rw [heq]

theorem deadline?_concat (e : Engine) (d : Deadline) (id sleepId : String) :
    ({ e with deadlines := e.deadlines ++ [d] } : Engine).deadline? id sleepId =
      (e.deadline? id sleepId).or
        (if d.workflow = id ∧ d.sleep = sleepId then some d.instant else none) := by
  rw [deadline?, deadline?, List.find?_append, Option.map_or]
  by_cases h : d.workflow = id ∧ d.sleep = sleepId
  · simp [h]
  · have hother : (d.workflow == id && d.sleep == sleepId) = false := by simpa using h
    rw [if_neg h, List.find?_cons_of_neg (by simp [hother])]
    rfl

/-- A step sleeps in a workflow under a sleep's id. -/
def Step.sleepsUnder (id sleepId : String) : Step α π → Bool
  | .sleep other otherSleep _ _ => other == id && otherSleep == sleepId
  | _ => false

/-- The deadline that a step sets for a sleep if it is the first under its id. -/
def Step.deadline? (id sleepId : String) : Step α π → Option Nat
  | .sleep other otherSleep duration now =>
    if other = id ∧ otherSleep = sleepId then Clock.deadline? now duration else none
  | _ => none

theorem Step.deadline?_of_sleepsUnder {s : Step α π} (h : s.sleepsUnder id sleepId = false) :
    s.deadline? id sleepId = none := by
  cases s with
  | sleep other otherSleep duration now =>
    have hother : ¬ (other = id ∧ otherSleep = sleepId) := by simpa [sleepsUnder] using h
    exact if_neg hother
  | start | finish | send | close => rfl

/-- A deadline that is there stays as long as the workflow is running, and one that is not there is
set by a sleep under its id alone. -/
theorem deadline?_after {s : Step α π} (hrunning : e.isRunning id = true) (hs : s.ends id = false)
    (sleepId : String) :
    (e.after s).deadline? id sleepId = (e.deadline? id sleepId).or (s.deadline? id sleepId) := by
  cases s with
  | start r fresh process input spawn =>
    exact (deadline?_start hrunning r fresh process input spawn sleepId).trans Option.or_none.symm
  | finish other output =>
    have hother : id ≠ other := by simpa [Step.ends] using hs
    exact (deadline?_finish_of_ne hother output sleepId).trans Option.or_none.symm
  | send r process data =>
    exact (deadline?_send r e process data id sleepId).trans Option.or_none.symm
  | close => exact Option.or_none.symm
  | sleep other otherSleep duration now =>
    by_cases hsame : other = id ∧ otherSleep = sleepId
    · obtain ⟨rfl, rfl⟩ := hsame
      rw [after, Step.deadline?, if_pos ⟨rfl, rfl⟩]
      cases hdeadline : e.deadline? other otherSleep with
      | some instant => rw [sleep_of_deadline hrunning hdeadline, hdeadline]; rfl
      | none =>
        rw [Option.none_or]
        cases htold : Clock.deadline? now duration with
        | none => rw [sleep_of_untold hrunning hdeadline htold, hdeadline]
        | some instant =>
          rw [sleep_of_told hrunning hdeadline htold, deadline?_concat, hdeadline,
            if_pos ⟨rfl, rfl⟩, Option.none_or]
    · rw [after, Step.deadline?, if_neg hsame, Option.or_none]
      obtain heq | ⟨-, instant, heq⟩ := sleep_cases e other otherSleep duration now <;> rw [heq]
      rw [deadline?_concat, if_neg hsame, Option.or_none]

theorem deadline?_eq_none (h : ∀ d ∈ e.deadlines, d.workflow ≠ id) (sleepId : String) :
    e.deadline? id sleepId = none := by
  rw [deadline?, Option.map_eq_none_iff, List.find?_eq_none]
  intro d hd hsame
  obtain ⟨hid, -⟩ : d.workflow = id ∧ d.sleep = sleepId := by simpa using hsame
  exact h d hd hid

/-- Where a step starts a workflow there are no deadlines behind it. -/
theorem Starts.no_deadlines {s : Step α π} (h : e.Starts id s) (hcoherent : e.Coherent) :
    ∀ d ∈ (e.after s).deadlines, d.workflow ≠ id := by
  cases s with
  | start r fresh process input spawn =>
    obtain ⟨handle, hbegins⟩ := h
    exact hcoherent.no_deadlines_start hbegins spawn
  | finish | send | sleep | close => exact h.elim

/-! ### The deadlines of a running workflow -/

section

variable {log : List (Move α π)}

/-- The deadline of a sleep is that of the first sleep under its id since the workflow was
started. -/
theorem Since.deadline?_eq (h : Since α π id e log) (hrunning : e.isRunning id = true)
    (sleepId : String) :
    e.deadline? id sleepId = log.findSome? (·.step.deadline? id sleepId) := by
  induction h with
  | start reached starts => exact deadline?_eq_none (starts.no_deadlines reached.coherent) sleepId
  | @step e log since s same ih =>
    rw [isRunning_after same, Bool.and_eq_true, Bool.not_eq_true'] at hrunning
    rw [deadline?_after hrunning.1 hrunning.2, ih hrunning.1, List.findSome?_append]
    congr 1
    simp

theorem Since.deadline?_of_unused (h : Since α π id e log) (hrunning : e.isRunning id = true)
    (hunused : ∀ m ∈ log, m.step.sleepsUnder id sleepId = false) :
    e.deadline? id sleepId = none := by
  rw [h.deadline?_eq hrunning, List.findSome?_eq_none_iff]
  exact fun m hm => Step.deadline?_of_sleepsUnder (hunused m hm)

theorem Since.deadline?_of_first (h : Since α π id e log) (hrunning : e.isRunning id = true)
    {earlier later : List (Move α π)} {m : Move α π} {duration now : Nat}
    (hlog : log = earlier ++ m :: later) (hm : m.step = .sleep id sleepId duration now)
    (hfirst : ∀ m' ∈ earlier, m'.step.sleepsUnder id sleepId = false)
    (htold : now + duration ≤ Clock.lastInstant) :
    e.deadline? id sleepId = some (now + duration) := by
  have hearlier : earlier.findSome? (·.step.deadline? id sleepId) = none :=
    List.findSome?_eq_none_iff.mpr fun m' hm' => Step.deadline?_of_sleepsUnder (hfirst m' hm')
  have hset : m.step.deadline? id sleepId = some (now + duration) := by
    rw [hm, Step.deadline?, if_pos ⟨rfl, rfl⟩, Clock.deadline?_of_le htold]
  rw [h.deadline?_eq hrunning, hlog, List.findSome?_append, hearlier, Option.none_or,
    List.findSome?_cons, hset]

/-- **Deadlines are stable.**  As long as a workflow is running, the deadline of a sleep is what the
clock read at the first sleep under its id since the workflow was started, and the duration of that
sleep; whatever was done since, every further sleep under the id waits for what is left until then,
or not at all, and changes nothing.  A sleep that is the first under its id waits for its duration,
whatever an earlier workflow with the same id slept.  A workflow that has ended does not wait and
has no deadlines. -/
theorem deadline_stable (h : Since α π id e log) :
    (e.isRunning id = true → ∀ sleepId : String,
      (∀ earlier m later duration now, log = earlier ++ m :: later →
        m.step = .sleep id sleepId duration now →
        (∀ m' ∈ earlier, m'.step.sleepsUnder id sleepId = false) →
        now + duration ≤ Clock.lastInstant →
        e.deadline? id sleepId = some (now + duration) ∧
        ∀ duration' now', e.sleep id sleepId duration' now' = (.ok (now + duration - now'), e)) ∧
      ((∀ m ∈ log, m.step.sleepsUnder id sleepId = false) →
        e.deadline? id sleepId = none ∧
        ∀ duration now, now + duration ≤ Clock.lastInstant →
          (e.sleep id sleepId duration now).1 = .ok duration)) ∧
    (e.isRunning id = false → ∀ sleepId duration now,
      e.sleep id sleepId duration now = (.ok 0, e) ∧ e.deadline? id sleepId = none) := by
  refine ⟨fun hrunning sleepId => ⟨?_, fun hunused => ?_⟩, fun hended sleepId duration now => ?_⟩
  · intro earlier m later duration now hlog hm hfirst htold
    have hdeadline := h.deadline?_of_first hrunning hlog hm hfirst htold
    exact ⟨hdeadline, sleep_of_deadline hrunning hdeadline⟩
  · have hnone := h.deadline?_of_unused hrunning hunused
    refine ⟨hnone, fun duration now htold => ?_⟩
    rw [sleep_of_told hrunning hnone (Clock.deadline?_of_le htold), Nat.add_sub_cancel_left]
  · obtain ⟨i, hi, -⟩ := h.exists_instance
    have hstatus : i.status ≠ .running := fun hrunning => by
      rw [isRunning_eq_true.mpr ⟨i, hi, hrunning⟩] at hended
      exact Bool.false_ne_true hended.symm
    exact ⟨sleep_of_ended hi hstatus sleepId duration now,
      deadline?_eq_none (h.coherent.no_deadlines hended) sleepId⟩

/-- The workflow `w` slept and failed. -/
def failedAsleep : Engine := (startedOrder.sleep "w" "pause" 5 0).2.finish "w" (.error "boom")

/-- The workflow `w` slept and failed, and was started again. -/
def restartedOrder : Engine := failedAsleep.after startOrder

/-- The workflow `w` sleeps under the same id as before and under another. -/
def asleepLog : List (Move Unit Unit) :=
  [⟨restartedOrder, .sleep "w" "pause" 50 100⟩,
    ⟨restartedOrder.after (.sleep "w" "pause" 50 100 : Step Unit Unit), .sleep "w" "rest" 7 120⟩]

/-- The engine behind both sleeps. -/
def asleepOrder : Engine := asleepLog.foldl (fun e m => e.after m.step) restartedOrder

theorem deadline_of_asleepOrder :
    Since Unit Unit "w" asleepOrder asleepLog ∧ asleepOrder.isRunning "w" = true ∧
    asleepOrder.deadline? "w" "pause" = some 150 ∧
    ∀ duration now, asleepOrder.sleep "w" "pause" duration now = (.ok (150 - now), asleepOrder) := by
  have hstarted : start orders (create "localhost:7233" "default") "" "order" orderInput .made =
      (.ok ⟨"w", ()⟩, startedOrder) := rfl
  have hfailed : Reached Unit Unit failedAsleep [] :=
    (((Reached.create _ _).granted hstarted).sleep "w" "pause" 5 0).finish
      (List.mem_singleton_self _) (.error "boom")
  have hsince : Since Unit Unit "w" asleepOrder asleepLog :=
    ((Since.start hfailed (starts_startOrder rfl)).step (.sleep "w" "pause" 50 100) id).step
      (.sleep "w" "rest" 7 120) id
  have hrunning : asleepOrder.isRunning "w" = true := rfl
  exact ⟨hsince, hrunning, ((deadline_stable hsince).1 hrunning "pause").1 [] _ _ 50 100 rfl rfl
    nofun (by decide)⟩

/-- **A first sleep is long enough exactly if its end can be told.**  If it lies behind the last
instant, sleeping is a panic, and a duration that is too long to be added to an instant is not
waited for at all. -/
theorem sleep_suffices_iff (h : Since α π id e log) (hrunning : e.isRunning id = true)
    (sleepId : String) (hunused : ∀ m ∈ log, m.step.sleepsUnder id sleepId = false)
    (duration now : Nat) :
    ((∃ wait, (e.sleep id sleepId duration now).1 = .ok wait ∧ now + duration ≤ now + wait) ↔
      now + duration ≤ Clock.lastInstant) ∧
    (duration ≤ Clock.longestDelay → Clock.lastInstant < now + duration →
      ∃ text, (e.sleep id sleepId duration now).1 = .error (.panic text)) ∧
    (Clock.longestDelay < duration → now ≤ Clock.lastInstant →
      (e.sleep id sleepId duration now).1 = .ok 0) := by
  have hfirst := h.deadline?_of_unused hrunning hunused
  have hshort := Clock.lastInstant_le_longestDelay
  rcases Clock.deadline?_cases now duration with
    ⟨htold, hdeadline⟩ | ⟨hlate, hfits, hdeadline⟩ | ⟨hlong, hdeadline⟩
  · -- The end of the sleep can be told.
    have heq := sleep_of_told hrunning hfirst hdeadline
    rw [Nat.add_sub_cancel_left] at heq
    rw [heq]
    exact ⟨⟨fun _ => htold, fun _ => ⟨duration, rfl, Nat.le_refl _⟩⟩, fun _ hlate => by omega,
      fun hlong _ => by omega⟩
  · -- It is behind the last instant.
    rw [sleep_of_untold hrunning hfirst hdeadline]
    exact ⟨⟨nofun, fun htold => by omega⟩, fun _ _ => ⟨_, rfl⟩, fun hlong _ => by omega⟩
  · -- The duration cannot be added to an instant.
    have htold : ¬ now + duration ≤ Clock.lastInstant := by omega
    split at hdeadline
    · rw [sleep_of_told hrunning hfirst hdeadline, Nat.sub_self]
      refine ⟨⟨?_, fun h => absurd h htold⟩, fun hfits _ => by omega, fun _ _ => rfl⟩
      rintro ⟨wait, hwait, hle⟩
      have : wait = 0 := (Except.ok.inj hwait).symm
      omega
    · next hnow =>
      rw [sleep_of_untold hrunning hfirst hdeadline]
      exact ⟨⟨nofun, fun h => absurd h htold⟩, fun hfits _ => by omega, fun _ h => absurd h hnow⟩

end

theorem sleep_suffices_of_startedOrder :
    Since Unit Unit "w" startedOrder [] ∧ startedOrder.isRunning "w" = true ∧
    (∃ wait, (startedOrder.sleep "w" "pause" 5 0).1 = .ok wait ∧ 0 + 5 ≤ 0 + wait) ∧
    (startedOrder.sleep "w" "pause" Clock.longestDuration 0).1 = .ok 0 := by
  have hrunning : startedOrder.isRunning "w" = true := rfl
  have hshort := sleep_suffices_iff since_startedOrder hrunning "pause" nofun 5 0
  have hlong := sleep_suffices_iff since_startedOrder hrunning "pause" nofun
    Clock.longestDuration 0
  exact ⟨since_startedOrder, hrunning, hshort.1.mpr (by decide),
    hlong.2.2 (by decide) (by decide)⟩

/-- The longest duration is not waited for. -/
theorem not_all_sleeps_suffice :
    ¬ ∀ (id sleepId : String) (e : Engine) (log : List (Move Unit Unit)) (duration now : Nat),
      Since Unit Unit id e log → e.isRunning id = true →
      (∀ m ∈ log, m.step.sleepsUnder id sleepId = false) →
      duration ≤ Clock.longestDuration → now ≤ Clock.lastInstant →
      ∃ wait, (e.sleep id sleepId duration now).1 = .ok wait ∧ now + duration ≤ now + wait := by
  intro h
  obtain ⟨wait, hwait, hle⟩ := h "w" "pause" startedOrder [] Clock.longestDuration 0
    since_startedOrder rfl nofun (Nat.le_refl _) (by decide)
  have hnow : (startedOrder.sleep "w" "pause" Clock.longestDuration 0).1 = .ok 0 := rfl
  rw [hnow, Except.ok.injEq] at hwait
  subst hwait
  exact absurd hle (by decide)

end Engine

end Durable
