/-
Events reach a workflow as a whole or not at all.

Event data is looked at in five ways before anything is written: it has to name a workflow, that
workflow has to be there, it has to be one of the process, the process has to accept all of the
events, and the workflow has to be running.  `Accepts` puts the five together, and sending is
settled by it: data that is accepted is appended to the events of the instance, field by field, and
of all other data nothing is left.

So the events of an instance are those of the data that was accepted for it since it was started,
and the last event of a name is in the last data that had one (`latest?_flatMap_eq_some_iff`).
-/
import Durable.Proofs.Engine.Runs
import Durable.Proofs.Value.Conversion

namespace Durable

/-! ### The fields of event data -/

namespace EngineValue

/-- The last field of a name, apart from the id, has a value. -/
def LastField (data : EngineValue) (name : String) (v : EngineValue) : Prop :=
  ∃ before behind, data.otherFields = before ++ (name, v) :: behind ∧
    ∀ field ∈ behind, field.1 ≠ name

/-- The fields of an object whose keys stand in order are in order without the id, and there is at
most one of a name. -/
theorem otherFields_of_sorted {fields : Table EngineValue} (h : fields.Sorted) :
    Table.Sorted (object fields).otherFields ∧
    ∀ name v, (object fields).LastField name v ↔ (name, v) ∈ fields ∧ name ≠ "id" := by
  have hsorted : Table.Sorted (object fields).otherFields := h.filter _
  have hmem : ∀ name v, (name, v) ∈ (object fields).otherFields ↔
      (name, v) ∈ fields ∧ name ≠ "id" := fun name v => by simp [otherFields]
  refine ⟨hsorted, fun name v => ⟨?_, fun h => ?_⟩⟩
  · rintro ⟨before, behind, heq, -⟩
    exact (hmem name v).mp (heq ▸ List.mem_append_right _ List.mem_cons_self)
  · obtain ⟨before, behind, heq⟩ := List.append_of_mem ((hmem name v).mpr h)
    refine ⟨before, behind, heq, fun field hfield => ?_⟩
    rw [Table.Sorted, heq, List.pairwise_append, List.pairwise_cons] at hsorted
    exact (ne_of_lt (hsorted.2.1.1 field hfield)).symm

end EngineValue

/-! ### The last event of a name -/

/-- The value of the last event of a name among some. -/
def latest? (events : List (String × EngineValue)) (name : String) : Option EngineValue :=
  (events.reverse.find? (·.1 == name)).map (·.2)

theorem latest?_eq_some_iff {events : List (String × EngineValue)} {name : String}
    {v : EngineValue} : latest? events name = some v ↔
      ∃ before behind, events = before ++ (name, v) :: behind ∧ ∀ event ∈ behind, event.1 ≠ name := by
  simp only [latest?, Option.map_eq_some_iff, List.find?_eq_some_iff_append]
  constructor
  · rintro ⟨⟨_, _⟩, ⟨hname, as, bs, heq, has⟩, rfl⟩
    obtain rfl := eq_of_beq hname
    refine ⟨bs.reverse, as.reverse, ?_, fun event hevent => ?_⟩
    · rw [← List.reverse_reverse events, heq]
      simp
    · simpa using has event (List.mem_reverse.mp hevent)
  · rintro ⟨before, behind, rfl, hbehind⟩
    refine ⟨(name, v), ⟨beq_self_eq_true _, behind.reverse, before.reverse, by simp, ?_⟩, rfl⟩
    intro event hevent
    simpa using hbehind event (List.mem_reverse.mp hevent)

/-- The last event of a name, among events that come in batches, is that of the last batch that has
one. -/
theorem latest?_flatMap_eq_some_iff {β : Type} {f : β → List (String × EngineValue)}
    {batches : List β} {name : String} {v : EngineValue} :
    latest? (batches.flatMap f) name = some v ↔ ∃ before b behind,
      batches = before ++ b :: behind ∧ latest? (f b) name = some v ∧
        ∀ b' ∈ behind, latest? (f b') name = none := by
  have heq : latest? (batches.flatMap f) name =
      batches.reverse.findSome? fun b => latest? (f b) name := by
    rw [latest?, List.reverse_flatMap, List.find?_flatMap, List.map_findSome?]
    rfl
  rw [heq, List.findSome?_eq_some_iff]
  constructor
  · rintro ⟨as, b, bs, hbatches, hb, has⟩
    refine ⟨bs.reverse, b, as.reverse, ?_, hb, fun b' hb' => has b' (List.mem_reverse.mp hb')⟩
    rw [← List.reverse_reverse batches, hbatches]
    simp
  · rintro ⟨before, b, behind, rfl, hb, hbehind⟩
    exact ⟨behind.reverse, b, before.reverse, by simp, hb,
      fun b' hb' => hbehind b' (List.mem_reverse.mp hb')⟩

namespace Engine

variable {α π : Type} {e : Engine} {id : String}

theorem lastEvent_eq (e : Engine) (id event : String) :
    e.lastEvent id event = (e.events id).map (latest? · event) := by
  rw [lastEvent]
  cases e.events id <;> rfl

/-! ### Deliveries -/

/-- A step delivers a value for an event to a workflow: event data is accepted that names the
workflow and has a field of that name. -/
def Delivers (e : Engine) (id event : String) (v : EngineValue) : Step α π → Prop
  | .send r process data =>
    (e.send r process data).1 = .ok true ∧ data.workflowId? = some id ∧ data.LastField event v
  | _ => False

theorem delivers_iff {s : Step α π} {event : String} {v : EngineValue} :
    e.Delivers id event v s ↔ latest? (e.delivered id s) event = some v := by
  cases s with
  | send r process data =>
    rw [Delivers, delivered, ← and_assoc]
    split
    · next h => rw [latest?_eq_some_iff, and_iff_right h]; rfl
    · next h => simp [h, latest?]
  | start | finish | sleep | close => simp [Delivers, delivered, latest?]

/-- Nothing is delivered to a workflow that has ended. -/
theorem delivered_of_not_running (h : e.isRunning id = false) (s : Step α π) :
    e.delivered id s = [] := by
  cases s with
  | send r process data =>
    rw [delivered, if_neg]
    rintro ⟨htrue, hid⟩
    obtain ⟨other, j, haccepts⟩ | ⟨answer, hanswer, heq⟩ := send_cases r e process data
    · obtain rfl := Option.some.inj (hid.symm.trans haccepts.named)
      rw [isRunning_eq_true.mpr ⟨j, haccepts.found, haccepts.running⟩] at h
      exact Bool.false_ne_true h.symm
    · rw [heq] at htrue
      exact hanswer htrue
  | start | finish | sleep | close => rfl

/-- A workflow that had ended at some time has ended, and its events are what they were. -/
theorem Since.events_of_not_running {log : List (Move α π)} (h : Since α π id e log) {m : Move α π}
    (hm : m ∈ log) (hended : m.before.isRunning id = false) :
    e.isRunning id = false ∧ e.events id = m.before.events id := by
  induction h with
  | start => simp at hm
  | @step e log since s same ih =>
    have hbefore : e.isRunning id = false ∧ e.events id = m.before.events id := by
      rcases List.mem_append.mp hm with hm | hm
      · exact ih hm
      · obtain rfl := List.mem_singleton.mp hm
        exact ⟨hended, rfl⟩
    obtain ⟨i, hi, -⟩ := since.exists_instance
    obtain ⟨i', hi', hevents⟩ := exists_instance_after hi s same
    rw [delivered_of_not_running hbefore.1, List.append_nil] at hevents
    refine ⟨by rw [isRunning_after same, hbefore.1, Bool.false_and], ?_⟩
    rw [← hbefore.2, events, events, instance?, instance?, hi, hi']
    exact congrArg Except.ok hevents

/-- **Event data is delivered as a whole or not at all.**  It is delivered exactly if the engine
accepts it for an instance; then its fields are appended to the events of that instance, without the
id and in the order of their keys, and otherwise the state stays as it is.  So what a workflow finds
for an event is the value that was delivered last since it was started, and once it has ended its
events stay the same. -/
theorem delivery_exact :
    (∀ (e : Engine) (r : Registries α π) (process : String) (data : EngineValue),
      ((e.send r process data).1 = .ok true ↔ ∃ id i, e.Accepts r process data id i) ∧
      (∀ id i, e.Accepts r process data id i → (e.send r process data).2 =
        e.withInstance id { i with events := i.events ++ data.otherFields }) ∧
      ((e.send r process data).1 ≠ .ok true → (e.send r process data).2 = e)) ∧
    (∀ fields : Table EngineValue, fields.Sorted →
      Table.Sorted (EngineValue.object fields).otherFields ∧
      ∀ name v, (EngineValue.object fields).LastField name v ↔ (name, v) ∈ fields ∧ name ≠ "id") ∧
    ∀ (id : String) (e : Engine) (log : List (Move α π)), Since α π id e log →
      (∀ event, ∃ found, e.lastEvent id event = .ok found ∧ ∀ v, found = some v ↔
        ∃ earlier m later, log = earlier ++ m :: later ∧ m.before.Delivers id event v m.step ∧
          ∀ m' ∈ later, ∀ w, ¬ m'.before.Delivers id event w m'.step) ∧
      ∀ m ∈ log, m.before.isRunning id = false → e.events id = m.before.events id := by
  refine ⟨fun e r process data => ⟨⟨fun htrue => ?_, ?_⟩, fun id i haccepts => ?_,
    fun hrefused => ?_⟩, fun fields h => EngineValue.otherFields_of_sorted h,
    fun id e log h => ⟨fun event => ?_, fun m hm hended => (h.events_of_not_running hm hended).2⟩⟩
  · obtain haccepts | ⟨answer, hanswer, heq⟩ := send_cases r e process data
    · exact haccepts
    · rw [heq] at htrue
      exact absurd htrue hanswer
  · rintro ⟨id, i, haccepts⟩
    rw [haccepts.send_eq]
  · rw [haccepts.send_eq]
  · obtain ⟨id, i, haccepts⟩ | ⟨answer, -, heq⟩ := send_cases r e process data
    · rw [haccepts.send_eq] at hrefused
      exact absurd rfl hrefused
    · rw [heq]
  · obtain ⟨i, hi, hevents⟩ := h.exists_instance
    refine ⟨latest? i.events event, by rw [lastEvent_eq, events, instance?, hi]; rfl, fun v => ?_⟩
    simp only [hevents, latest?_flatMap_eq_some_iff, delivers_iff,
      Option.eq_none_iff_forall_ne_some, ne_eq]

/-- The fields of event data for a workflow `w`. -/
def paidFields (paid : Bool) : Table EngineValue := [("id", .string "w"), ("paid", .bool paid)]

/-- Event data is sent to the workflow `w`. -/
def paidStep (paid : Bool) : Step Unit Unit := .send orders "order" (.object (paidFields paid))

/-- The workflow `w` was told twice whether it was paid, came to an end, and was told once more. -/
def paidLog : List (Move Unit Unit) :=
  let denied := startedOrder.after (paidStep false)
  let granted := denied.after (paidStep true)
  let ended := granted.after (.finish "w" (.ok .null) : Step Unit Unit)
  [⟨startedOrder, paidStep false⟩, ⟨denied, paidStep true⟩, ⟨granted, .finish "w" (.ok .null)⟩,
    ⟨ended, paidStep false⟩]

/-- The engine behind all of that. -/
def paidOrder : Engine := paidLog.foldl (fun e m => e.after m.step) startedOrder

theorem delivery_of_paidOrder :
    Since Unit Unit "w" paidOrder paidLog ∧ (paidFields true).Sorted ∧
    paidOrder.lastEvent "w" "paid" = .ok (some (.bool true)) ∧
    (∃ earlier m later, paidLog = earlier ++ m :: later ∧
      m.before.Delivers "w" "paid" (.bool true) m.step ∧
      ∀ m' ∈ later, ∀ w, ¬ m'.before.Delivers "w" "paid" w m'.step) ∧
    (EngineValue.object (paidFields true)).LastField "paid" (.bool true) := by
  have hsince : Since Unit Unit "w" paidOrder paidLog :=
    (((since_startedOrder.step (paidStep false) id).step (paidStep true) id).step
      (.finish "w" (.ok .null)) id).step (paidStep false) id
  have hsorted : (paidFields true).Sorted := List.pairwise_pair.mpr (by decide +kernel)
  have hlast : paidOrder.lastEvent "w" "paid" = .ok (some (.bool true)) := rfl
  obtain ⟨-, hfields, hruns⟩ := delivery_exact (α := Unit) (π := Unit)
  obtain ⟨found, hfound, hiff⟩ := (hruns "w" paidOrder paidLog hsince).1 "paid"
  rw [hlast] at hfound
  exact ⟨hsince, hsorted, hlast, (hiff _).mp (Except.ok.inj hfound).symm,
    ((hfields _ hsorted).2 _ _).mpr ⟨by simp [paidFields], by decide⟩⟩

end Engine

end Durable
