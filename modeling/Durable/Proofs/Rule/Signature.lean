/-
Which signatures of processes are accepted.

The parameters are read one by one with two flags: whether the input was seen, and whether the
events were.  `InOrder` lists the four sequences that may stand behind the context, without flags,
and `Seen` ties the flags to the sequence read so far.  One parameter either leads from a state of
`Seen` to another or ends in a finding, and then no longer sequence is in order; so the finding is
that of the first parameter up to which the signature is no longer accepted, and there is one.

What a parameter holds is left to the rules for types, of which an events record and plain data may
both hold of one type: a record of events at the end of a long chain of names is plain data too, as
far as it is followed.  An input is therefore plain data that is no record of events.
-/
import Durable.Rule.Signature
import Durable.Proofs.Model.Scoping

namespace Durable

open Model (build)

/-- The rules about the parameters of a process have the numbers from 111 to 115. -/
def Violation.isProcessParam (v : Violation) : Bool :=
  111 ≤ v.number && v.number ≤ 115

namespace Rule

variable {m : Model} {doc : DocId} {f : Function}

/-! ### Input and events -/

/-- A parameter that takes the events of a process. -/
def TakesEvents (m : Model) (doc : DocId) (p : Param) : Prop :=
  m.isEventsRecord doc p.type = true

/-- A parameter that takes the input of a process. -/
def TakesInput (m : Model) (doc : DocId) (p : Param) : Prop :=
  m.isAnydata doc p.type = true ∧ ¬ TakesEvents m doc p

/-- The parameters that may stand behind the context. -/
inductive InOrder (m : Model) (doc : DocId) : List Param → Prop
  | nothing : InOrder m doc []
  | input {p : Param} (hp : TakesInput m doc p) : InOrder m doc [p]
  | events {q : Param} (hq : TakesEvents m doc q) : InOrder m doc [q]
  | both {p q : Param} (hp : TakesInput m doc p) (hq : TakesEvents m doc q) : InOrder m doc [p, q]

/-- Parameters in order were read, and the flags say whether the input and the events are among
them. -/
inductive Seen (m : Model) (doc : DocId) : List Param → Bool → Bool → Prop
  | nothing : Seen m doc [] false false
  | input {p : Param} (hp : TakesInput m doc p) : Seen m doc [p] true false
  | events {q : Param} (hq : TakesEvents m doc q) : Seen m doc [q] false true
  | both {p q : Param} (hp : TakesInput m doc p) (hq : TakesEvents m doc q) :
    Seen m doc [p, q] true true

theorem Seen.inOrder {before : List Param} {hasInput hasEvents : Bool}
    (h : Seen m doc before hasInput hasEvents) : InOrder m doc before := by
  cases h with
  | nothing => exact .nothing
  | input hp => exact .input hp
  | events hq => exact .events hq
  | both hp hq => exact .both hp hq

/-- The beginnings of parameters in order are in order. -/
theorem InOrder.of_append {front back : List Param} (h : InOrder m doc (front ++ back)) :
    InOrder m doc front := by
  generalize hall : front ++ back = params at h
  cases h with
  | nothing =>
    rw [(List.append_eq_nil_iff.mp hall).1]
    exact .nothing
  | input hp =>
    obtain ⟨rfl, -⟩ | ⟨rfl, -⟩ := List.append_eq_singleton_iff.mp hall
    · exact .nothing
    · exact .input hp
  | events hq =>
    obtain ⟨rfl, -⟩ | ⟨rfl, -⟩ := List.append_eq_singleton_iff.mp hall
    · exact .nothing
    · exact .events hq
  | both hp hq =>
    obtain ⟨rfl, -⟩ | ⟨others, rfl, hothers⟩ := List.append_eq_cons_iff.mp hall
    · exact .nothing
    obtain ⟨rfl, -⟩ | ⟨rfl, -⟩ := List.append_eq_singleton_iff.mp hothers.symm
    · exact .input hp
    · exact .both hp hq

/-! ### One parameter and all of them -/

/-- **One parameter.**  It is read, and reading goes on behind it; or there is a finding at it, and
with it the parameters are not in order. -/
theorem Seen.step {before : List Param} {hasInput hasEvents : Bool}
    (h : Seen m doc before hasInput hasEvents) (p : Param) (others : List Param) :
    (∃ hasInput' hasEvents', Seen m doc (before ++ [p]) hasInput' hasEvents' ∧
      orderFinding m doc hasInput hasEvents (p :: others) =
        orderFinding m doc hasInput' hasEvents' others) ∨
    ¬ InOrder m doc (before ++ [p]) ∧ ∃ v : Violation, v.isProcessParam = true ∧
      orderFinding m doc hasInput hasEvents (p :: others) = some ⟨v, p.span⟩ := by
  by_cases hevents : m.isEventsRecord doc p.type = true
  · cases h with
    | nothing => exact .inl ⟨false, true, .events hevents, by simp [orderFinding, hevents]⟩
    | input hp => exact .inl ⟨true, true, .both hp hevents, by simp [orderFinding, hevents]⟩
    | events hq =>
      refine .inr ⟨?_, .tooManyParams, rfl, by simp [orderFinding, hevents]⟩
      rintro (_ | _ | _ | ⟨hp, -⟩)
      exact hp.2 hq
    | both hp hq =>
      exact .inr ⟨nofun, .tooManyParams, rfl, by simp [orderFinding, hevents]⟩
  by_cases hplain : m.isAnydata doc p.type = true
  · cases h with
    | nothing =>
      exact .inl ⟨true, false, .input ⟨hplain, hevents⟩, by simp [orderFinding, hevents, hplain]⟩
    | input hp =>
      refine .inr ⟨?_, .eventsParam, rfl, by simp [orderFinding, hevents]⟩
      rintro (_ | _ | _ | ⟨-, hq⟩)
      exact hevents hq
    | events hq =>
      refine .inr ⟨?_, .inputAfterEvents, rfl, by simp [orderFinding, hevents, hplain]⟩
      rintro (_ | _ | _ | ⟨-, hq⟩)
      exact hevents hq
    | both hp hq => exact .inr ⟨nofun, .eventsParam, rfl, by simp [orderFinding, hevents]⟩
  · cases h with
    | nothing =>
      refine .inr ⟨?_, .inputParam, rfl, by simp [orderFinding, hevents, hplain]⟩
      rintro (_ | hp | hq)
      · exact hplain hp.1
      · exact hevents hq
    | input hp =>
      refine .inr ⟨?_, .eventsParam, rfl, by simp [orderFinding, hevents]⟩
      rintro (_ | _ | _ | ⟨-, hq⟩)
      exact hevents hq
    | events hq =>
      refine .inr ⟨?_, .inputParam, rfl, by simp [orderFinding, hevents, hplain]⟩
      rintro (_ | _ | _ | ⟨-, hq⟩)
      exact hevents hq
    | both hp hq => exact .inr ⟨nofun, .eventsParam, rfl, by simp [orderFinding, hevents]⟩

/-- A finding about parameters lies at the first of them up to which they are not accepted. -/
def AtFirstOf (accepted : List Param → Prop) (params : List Param) (x : Finding) : Prop :=
  ∃ front p back, params = front ++ p :: back ∧ accepted front ∧ ¬ accepted (front ++ [p]) ∧
    x.span = p.span

theorem AtFirstOf.not_accepted {accepted : List Param → Prop} {params : List Param} {x : Finding}
    (h : AtFirstOf accepted params x)
    (of_append : ∀ {front back}, accepted (front ++ back) → accepted front) : ¬ accepted params := by
  obtain ⟨front, p, back, rfl, -, hstop, -⟩ := h
  intro hall
  rw [← List.singleton_append, ← List.append_assoc] at hall
  exact hstop (of_append hall)

/-- **All parameters behind the context.**  They are in order, or there is one finding, at the first
of them with which they are not. -/
theorem Seen.run {before : List Param} {hasInput hasEvents : Bool}
    (h : Seen m doc before hasInput hasEvents) (params : List Param) :
    (orderFinding m doc hasInput hasEvents params = none ∧ InOrder m doc (before ++ params)) ∨
    ∃ x : Finding, orderFinding m doc hasInput hasEvents params = some x ∧
      x.violation.isProcessParam = true ∧
      AtFirstOf (fun front => InOrder m doc (before ++ front)) params x := by
  induction params generalizing before hasInput hasEvents with
  | nil => exact .inl ⟨rfl, by simpa using h.inOrder⟩
  | cons p others ih =>
    obtain ⟨hasInput', hasEvents', hseen, hnext⟩ | ⟨hnot, v, hv, hfound⟩ := h.step p others
    · rw [hnext]
      obtain ⟨hnone, horder⟩ | ⟨x, hx, hv, front, q, back, rfl, hfront, hstop, hspan⟩ := ih hseen
      · exact .inl ⟨hnone, by simpa using horder⟩
      · exact .inr ⟨x, hx, hv, p :: front, q, back, rfl, by simpa using hfront,
          by simpa using hstop, hspan⟩
    · exact .inr ⟨⟨v, p.span⟩, hfound, hv, [], p, others, rfl, by simpa using h.inOrder, hnot, rfl⟩

/-! ### With the context -/

/-- A first parameter that is neither called as the context is nor typed by something that is called
so. -/
structure NoNearMiss (first : Param) : Prop where
  name : first.name.name ∉ ["ctx", "context"]
  type : ∀ r, first.type = .named r → r.name.name ≠ "Context"

theorem looksLikeContext_eq_false_iff {first : Param} :
    looksLikeContext first = false ↔ NoNearMiss first := by
  rw [looksLikeContext, Bool.or_eq_false_iff]
  constructor
  · rintro ⟨hname, htype⟩
    refine ⟨by simpa using hname, fun r hr => ?_⟩
    simpa [hr] using htype
  · intro h
    refine ⟨by simpa using h.name, ?_⟩
    cases hr : first.type with
    | named r => simpa using h.type r hr
    | _ => rfl

/-- The parameters without the context, if it is the first. -/
def behindContext (m : Model) (doc : DocId) : List Param → List Param
  | [] => []
  | first :: others =>
    if m.isFrameworkType doc .context first.type then others else first :: others

/-- The parameters that a process may have. -/
structure AcceptedParams (m : Model) (doc : DocId) (params : List Param) : Prop where
  few : params.length ≤ 3
  context : ∀ first ∈ params.head?, m.isFrameworkType doc .context first.type = false →
    NoNearMiss first
  order : InOrder m doc (behindContext m doc params)

theorem AcceptedParams.nil : AcceptedParams m doc [] := ⟨by simp, nofun, .nothing⟩

/-- The beginnings of accepted parameters are accepted. -/
theorem AcceptedParams.of_append {front back : List Param}
    (h : AcceptedParams m doc (front ++ back)) : AcceptedParams m doc front := by
  have hfew := h.few
  rw [List.length_append] at hfew
  cases front with
  | nil => exact .nil
  | cons first front =>
    have horder := h.order
    refine ⟨by omega, h.context, ?_⟩
    rw [List.cons_append, behindContext] at horder
    rw [behindContext]
    by_cases hfirst : m.isFrameworkType doc .context first.type = true
    · rw [if_pos hfirst] at horder ⊢
      exact horder.of_append
    · rw [if_neg hfirst] at horder ⊢
      exact InOrder.of_append (show InOrder m doc ((first :: front) ++ back) from horder)

/-- Behind the context it is the order that counts. -/
theorem acceptedParams_context_iff {first : Param} {others : List Param}
    (hfirst : m.isFrameworkType doc .context first.type = true) :
    AcceptedParams m doc (first :: others) ↔ others.length ≤ 2 ∧ InOrder m doc others := by
  constructor
  · intro h
    have horder := h.order
    rw [behindContext, if_pos hfirst] at horder
    exact ⟨Nat.le_of_succ_le_succ h.few, horder⟩
  · rintro ⟨hfew, horder⟩
    refine ⟨Nat.succ_le_succ hfew, ?_, by rwa [behindContext, if_pos hfirst]⟩
    intro _ hhead hnot
    obtain rfl := Option.some.inj hhead
    exact absurd hfirst (by simp [hnot])

/-- Where there is no context, the first parameter must not be meant as one, and the order counts. -/
theorem acceptedParams_noContext_iff {first : Param} {others : List Param}
    (hfirst : m.isFrameworkType doc .context first.type = false) :
    AcceptedParams m doc (first :: others) ↔
      others.length ≤ 2 ∧ NoNearMiss first ∧ InOrder m doc (first :: others) := by
  have hbehind : behindContext m doc (first :: others) = first :: others := by
    rw [behindContext, hfirst, if_neg Bool.false_ne_true]
  constructor
  · intro h
    exact ⟨Nat.le_of_succ_le_succ h.few, h.context first rfl hfirst, hbehind ▸ h.order⟩
  · rintro ⟨hfew, hname, horder⟩
    refine ⟨Nat.succ_le_succ hfew, ?_, hbehind.symm ▸ horder⟩
    rintro _ ⟨⟩ -
    exact hname

theorem InOrder.length_le {params : List Param} (h : InOrder m doc params) : params.length ≤ 2 := by
  cases h <;> simp

/-- Up to three parameters are judged by the first of them and the order. -/
theorem processParams_cons {first : Param} {others : List Param} (hf : f.params = first :: others)
    (hfew : others.length ≤ 2) : processParams m doc f =
      if m.isFrameworkType doc .context first.type then orderFinding m doc false false others
      else if looksLikeContext first then some ⟨.contextParam, first.span⟩
      else orderFinding m doc false false (first :: others) := by
  have hlength : ¬ maxProcessParams < f.params.length := by
    rw [hf]
    exact Nat.not_lt.mpr (Nat.succ_le_succ hfew)
  rw [processParams, if_neg hlength, hf]

/-- **What is wrong with up to three parameters.**  Nothing, and they are accepted; or one of them
is the first up to which they are not, and that is found at it. -/
theorem processParams_of_few (m : Model) (doc : DocId) (hfew : f.params.length ≤ 3) :
    (processParams m doc f = none ∧ AcceptedParams m doc f.params) ∨
    ∃ x : Finding, processParams m doc f = some x ∧ x.violation.isProcessParam = true ∧
      AtFirstOf (AcceptedParams m doc) f.params x := by
  cases hparams : f.params with
  | nil => exact .inl ⟨by simp [processParams, hparams], .nil⟩
  | cons first others =>
    rw [hparams] at hfew
    replace hfew : others.length ≤ 2 := Nat.le_of_succ_le_succ hfew
    rw [processParams_cons hparams hfew]
    by_cases hfirst : m.isFrameworkType doc .context first.type = true
    · rw [if_pos hfirst]
      have haccepted : ∀ {others}, AcceptedParams m doc (first :: others) ↔
          others.length ≤ 2 ∧ InOrder m doc others := acceptedParams_context_iff hfirst
      obtain ⟨hnone, horder⟩ | ⟨x, hx, hv, front, p, back, rfl, hfront, hstop, hspan⟩ :=
        Seen.nothing.run others
      · exact .inl ⟨hnone, haccepted.mpr ⟨hfew, horder⟩⟩
      · exact .inr ⟨x, hx, hv, first :: front, p, back, rfl,
          haccepted.mpr ⟨hfront.length_le, hfront⟩, fun h => hstop (haccepted.mp h).2, hspan⟩
    · rw [if_neg hfirst]
      have haccepted : ∀ {others}, AcceptedParams m doc (first :: others) ↔
          others.length ≤ 2 ∧ NoNearMiss first ∧ InOrder m doc (first :: others) :=
        acceptedParams_noContext_iff (Bool.eq_false_iff.mpr hfirst)
      by_cases hlooks : looksLikeContext first = true
      · refine .inr ⟨_, if_pos hlooks, rfl, [], first, others, rfl, .nil, fun h => ?_, rfl⟩
        rw [looksLikeContext_eq_false_iff.mpr (haccepted.mp h).2.1] at hlooks
        exact Bool.false_ne_true hlooks
      rw [if_neg hlooks]
      have hname := looksLikeContext_eq_false_iff.mp (Bool.eq_false_iff.mpr hlooks)
      obtain ⟨hnone, horder⟩ | ⟨x, hx, hv, front, p, back, hsplit, hfront, hstop, hspan⟩ :=
        Seen.nothing.run (first :: others)
      · exact .inl ⟨hnone, haccepted.mpr ⟨hfew, hname, horder⟩⟩
      refine .inr ⟨x, hx, hv, front, p, back, hsplit, ?_, fun h => hstop ?_, hspan⟩
      · cases front with
        | nil => exact .nil
        | cons q front =>
          obtain rfl := (List.cons.inj hsplit).1
          exact haccepted.mpr ⟨Nat.le_of_succ_le hfront.length_le, hname, hfront⟩
      · -- What was read up to the parameter begins with the first of all.
        obtain ⟨hnil, -⟩ | ⟨read, hread, -⟩ := List.append_eq_cons_iff.mp
          (show (front ++ [p]) ++ back = first :: others by rw [hsplit, List.append_assoc]; rfl)
        · exact absurd hnil (by simp)
        · rw [hread] at h
          exact hread ▸ (haccepted.mp h).2.2

/-! ### The whole signature -/

theorem returnFinding_eq (ok : TypeDesc → Bool) (v : Violation) (returns : Option TypeDesc) :
    returnFinding ok v returns =
      ((returns.filter fun t => !ok t).map fun t => ⟨v, t.span⟩).toList := by
  cases returns with
  | none => rfl
  | some t => cases h : ok t <;> simp [returnFinding, Option.filter, h]

theorem isProcessParam_processParams {x : Finding} (h : x ∈ (processParams m doc f).toList) :
    x.violation.isProcessParam = true := by
  rw [Option.mem_toList] at h
  by_cases hfew : f.params.length ≤ 3
  · obtain ⟨hnone, -⟩ | ⟨y, hy, hv, -⟩ := processParams_of_few m doc hfew
    · exact absurd (hnone.symm.trans h) nofun
    · rwa [← Option.some.inj (hy.symm.trans h)]
  · rw [processParams, maxProcessParams, if_pos (Nat.lt_of_not_le hfew)] at h
    exact Option.some.inj h ▸ rfl

theorem isProcessParam_returnFinding {ok : TypeDesc → Bool} {x : Finding}
    (h : x ∈ returnFinding ok .processReturn f.returns) : x.violation.isProcessParam = false := by
  rw [returnFinding_eq] at h
  obtain ⟨t, -, rfl⟩ := Option.map_eq_some_iff.mp (Option.mem_toList.mp h)
  rfl

theorem filter_processSignature (m : Model) (doc : DocId) (f : Function) :
    (processSignature m doc f).filter (·.violation.isProcessParam) =
      (processParams m doc f).toList := by
  rw [processSignature, List.filter_append,
    List.filter_eq_self.mpr fun x hx => isProcessParam_processParams hx,
    List.filter_eq_nil_iff.mpr fun x hx => by simp [isProcessParam_returnFinding hx],
    List.append_nil]

theorem filter_not_processSignature (m : Model) (doc : DocId) (f : Function) :
    (processSignature m doc f).filter (!·.violation.isProcessParam) =
      returnFinding (m.isAnydataOrError doc) .processReturn f.returns := by
  rw [processSignature, List.filter_append,
    List.filter_eq_nil_iff.mpr fun x hx => by simp [isProcessParam_processParams hx],
    List.filter_eq_self.mpr fun x hx => by simp [isProcessParam_returnFinding hx],
    List.nil_append]

/-- **The signatures of processes are accepted exactly.**  Nothing is found about the parameters if
they are accepted, and one thing otherwise: with more than three it lies at the name of the process,
and else at the first parameter up to which they are not accepted.  All else that is found is that a
written return type may hold more than plain data and errors, whatever the parameters are. -/
theorem processSignature_exact (m : Model) (doc : DocId) (f : Function) :
    ((processSignature m doc f).filter (·.violation.isProcessParam) = [] ↔
      AcceptedParams m doc f.params) ∧
    (¬ AcceptedParams m doc f.params → ∃ x : Finding,
      (processSignature m doc f).filter (·.violation.isProcessParam) = [x] ∧
      (3 < f.params.length → x = ⟨.tooManyParams, f.name.span⟩) ∧
      (f.params.length ≤ 3 → AtFirstOf (AcceptedParams m doc) f.params x)) ∧
    (processSignature m doc f).filter (!·.violation.isProcessParam) =
      ((f.returns.filter fun t => !m.isAnydataOrError doc t).map fun t =>
        ⟨.processReturn, t.span⟩).toList ∧
    Violation.tooManyParams.code = "WORKFLOW_115" ∧ Violation.processReturn.code = "WORKFLOW_116" := by
  rw [filter_processSignature, filter_not_processSignature, returnFinding_eq]
  suffices h : (processParams m doc f = none ∧ AcceptedParams m doc f.params) ∨
      ¬ AcceptedParams m doc f.params ∧ ∃ x : Finding, processParams m doc f = some x ∧
        (3 < f.params.length → x = ⟨.tooManyParams, f.name.span⟩) ∧
        (f.params.length ≤ 3 → AtFirstOf (AcceptedParams m doc) f.params x) by
    refine ⟨?_, ?_, rfl, by decide, by decide⟩
    · obtain ⟨hnone, h⟩ | ⟨h, x, hx, -⟩ := h
      · simp [hnone, h]
      · simp [hx, h]
    · intro hnot
      obtain ⟨-, h⟩ | ⟨-, x, hx, hmany, hfew⟩ := h
      · exact absurd h hnot
      · exact ⟨x, by rw [hx, Option.toList_some], hmany, hfew⟩
  by_cases hfew : f.params.length ≤ 3
  · refine (processParams_of_few m doc hfew).imp id ?_
    rintro ⟨x, hx, -, hfirst⟩
    exact ⟨hfirst.not_accepted fun h => h.of_append, x, hx,
      fun hmany => absurd hfew (Nat.not_le_of_lt hmany), fun _ => hfirst⟩
  · have hmany := Nat.lt_of_not_le hfew
    refine .inr ⟨fun h => hfew h.few, ⟨.tooManyParams, f.name.span⟩, ?_, fun _ => rfl,
      fun h => absurd h hfew⟩
    rw [processParams, maxProcessParams, if_pos hmany]

/-- A process that has the context by another name, and its input behind the events. -/
def signsWrongly : Source where
  path := "main.wf"
  text := "import ballerina/workflow;\n"
    ++ "type Context workflow:Context;\n"
    ++ "type Events record \x7b| future<int> done; |\x7d;\n"
    ++ "function late(Context c, Events events, int input) returns any \x7b \x7d\n"

/-- The input is the first parameter that is out of order. -/
theorem signsWrongly_reported : ∃ p d f, p.IsRead ∧ d ∈ p.documents ∧
    (Node.module d.tree).at? [2, 0] = some (.function f) ∧
    ¬ AcceptedParams (build p {}) d.id f.params ∧ f.params.length ≤ 3 ∧
    ∃ x : Finding, x.violation = .inputAfterEvents ∧
      AtFirstOf (AcceptedParams (build p {}) d.id) f.params x := by
  obtain ⟨p, d, f, hp, hd, hf, hcheck⟩ := Package.exists_function_of_any
    (show ((Package.ofSources "acme" "orders" [signsWrongly]).toOption.any fun p =>
      p.documents.any fun d => (((Node.module d.tree).at? [2, 0]).bind Node.function?).any fun f =>
        f.params.length == 3 && ((processSignature (build p {}) d.id f).filter
          (·.violation.isProcessParam)).map (·.violation) == [.inputAfterEvents]) = true
      by decide +kernel)
  obtain ⟨hlength, hreport⟩ := Bool.and_eq_true_iff.mp hcheck
  replace hlength := Nat.le_of_eq (eq_of_beq hlength)
  replace hreport := eq_of_beq hreport
  obtain ⟨hnone, hsome, -⟩ := processSignature_exact (build p {}) d.id f
  have hnot : ¬ AcceptedParams (build p {}) d.id f.params := fun h => by
    rw [hnone.mpr h] at hreport
    exact absurd hreport nofun
  obtain ⟨x, hx, -, hfirst⟩ := hsome hnot
  rw [hx] at hreport
  exact ⟨p, d, f, hp, hd, hf, hnot, hlength, x, (List.cons.inj hreport).1, hfirst hlength⟩

end Rule

end Durable
