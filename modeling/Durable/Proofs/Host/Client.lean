/-
The one handle of a host.

A host has a slot for the handle to an engine and a flag that says the handle was given up.  The two
are set by different requests and looked at in different orders, so what a host does with them is
told by its log: `Accounts` says that the log knows exactly one installation for a handle in the
slot, a closing for a raised flag and one call that closes the engine.  No request breaks the
agreement, and with it a dispatch can be judged by the log alone: before the installation and after
the closing it is refused, and in between it goes to the engine that was installed.
-/
import Durable.Proofs.Host.Runs

namespace Durable

variable {α π ε : Type}

/-- The usual settings can be used. -/
theorem Config.validate_usual : ({} : Config).validate = .ok () := by decide +kernel

/-- A request that closes an engine. -/
def EngineRequest.isClose : EngineRequest → Bool
  | close => true
  | executeActivity _ _ | startProcess _ _ | sendEvent _ _ => false

namespace Exchange

/-- The engine whose handle was installed. -/
def installed? : Exchange α π ε → Option ε
  | ⟨.initClient engine, .done (.ok ())⟩ => some engine
  | _ => none

/-- The handle was given up. -/
def givesUp (x : Exchange α π ε) : Bool :=
  match x.outcome with
  | .closed (.ok _) => true
  | _ => false

/-- What an engine was asked for. -/
def calls (x : Exchange α π ε) : List (EngineCall ε) :=
  match x.outcome with
  | .called (.ok c) | .closed (.ok (some c)) => [c]
  | _ => []

end Exchange

namespace HostRequest

/-- A request that is to be answered by the engine. -/
def isDispatch : HostRequest α π ε → Bool
  | callActivity _ _ | invokeActivity _ _ | startProcess _ _ | sendEvent _ _ => true
  | _ => false

/-- What a dispatch fails with when the handle cannot be used: with that, unless it invokes an
activity by a name that is not registered. -/
def refusal (q : HostRequest α π ε) (h : Host α π ε) (unusable : HostError) : HostError :=
  match q with
  | invokeActivity name _ =>
    if h.registries.activities.contains name then unusable else .activityNotFound name
  | _ => unusable

end HostRequest

/-! ### Dispatching -/

namespace Host

/-- What a dispatch comes to: the installed engine is called as long as its handle was not given
up. -/
structure Dispatches (h : Host α π ε) (q : HostRequest α π ε)
    (result : Except HostError (EngineCall ε)) : Prop where
  reaches : ∀ c, result = .ok c →
    h.closed = false ∧ h.client = some c.engine ∧ c.request.isClose = false
  early : h.closed = false → h.client = none →
    result = .error (q.refusal h .clientNotInitialized)
  late : h.closed = true → result = .error (q.refusal h .clientClosed)

variable {h known : Host α π ε} {operation : Operation}
  {request : Except ConversionError EngineRequest}

theorem dispatch_of_closed (hclosed : h.closed = true) :
    h.dispatch operation request = .error .clientClosed := by
  rw [dispatch, engine, if_pos hclosed]
  rfl

theorem dispatch_of_no_client (hopen : h.closed = false) (hclient : h.client = none) :
    h.dispatch operation request = .error .clientNotInitialized := by
  rw [dispatch, engine, hopen, hclient]
  rfl

/-- A call is the request that was prepared, made of the installed engine. -/
theorem dispatch_eq_ok {c : EngineCall ε} (hcall : h.dispatch operation request = .ok c) :
    h.closed = false ∧ h.client = some c.engine ∧ request = .ok c.request := by
  cases hclosed : h.closed with
  | true =>
    rw [dispatch_of_closed hclosed] at hcall
    contradiction
  | false =>
    cases hclient : h.client with
    | none =>
      rw [dispatch_of_no_client hclosed hclient] at hcall
      contradiction
    | some e =>
      have hengine : h.engine = .ok e := by
        rw [engine, hclosed, hclient]
        rfl
      rw [dispatch, hengine] at hcall
      cases haccept : h.pool.accept operation.name with
      | error err => simp [haccept, bind, Except.bind] at hcall
      | ok _ =>
        cases request with
        | error err => simp [haccept, bind, Except.bind, Except.mapError] at hcall
        | ok r =>
          simp only [haccept, bind, Except.bind, Except.mapError, pure, Except.pure,
            Except.ok.injEq] at hcall
          rw [← hcall]
          exact ⟨rfl, rfl, rfl⟩

/-- Arguments in the engine's form are dispatched, whatever was registered before. -/
theorem dispatch_dispatches {q : HostRequest α π ε} {args : Except ConversionError EngineValue}
    {prepare : EngineValue → EngineRequest} (hclosed : known.closed = h.closed)
    (hclient : known.client = h.client) (hrefusal : ∀ e, q.refusal h e = e)
    (hprepare : ∀ v, (prepare v).isClose = false) :
    h.Dispatches q (known.dispatch operation (args.map prepare)) where
  reaches c hcall := by
    obtain ⟨hopen, hinstalled, hrequest⟩ := dispatch_eq_ok hcall
    refine ⟨hclosed ▸ hopen, hclient ▸ hinstalled, ?_⟩
    cases args with
    | error err => contradiction
    | ok v =>
      rw [← Except.ok.inj hrequest]
      exact hprepare v
  early hopen hnone := by
    rw [hrefusal, dispatch_of_no_client (hclosed.trans hopen) (hclient.trans hnone)]
  late hgone := by
    rw [hrefusal, dispatch_of_closed (hclosed.trans hgone)]

theorem invokeActivity_dispatches (h : Host α π ε) (name : String) (args : List Value) :
    h.Dispatches (.invokeActivity name args) (h.invokeActivity name args) := by
  unfold invokeActivity
  split
  · next hknown => exact dispatch_dispatches rfl rfl (fun e => if_pos hknown) fun _ => rfl
  · next hunknown =>
    refine ⟨fun c hcall => ?_, fun _ _ => ?_, fun _ => ?_⟩
    · contradiction
    · rw [HostRequest.refusal, if_neg hunknown]
    · rw [HostRequest.refusal, if_neg hunknown]

/-- A dispatch leaves the handle alone. -/
theorem serve_dispatches (h : Host α π ε) {q : HostRequest α π ε} (hq : q.isDispatch = true) :
    ∃ result, (h.serve q).1 = .called result ∧ h.Dispatches q result ∧
      (h.serve q).2.client = h.client ∧ (h.serve q).2.closed = h.closed := by
  cases q with
  | callActivity a args =>
    exact ⟨_, rfl, dispatch_dispatches rfl rfl (fun _ => rfl) fun _ => rfl, rfl, rfl⟩
  | invokeActivity name args => exact ⟨_, rfl, h.invokeActivity_dispatches name args, rfl, rfl⟩
  | startProcess p input =>
    exact ⟨_, rfl, dispatch_dispatches rfl rfl (fun _ => rfl) fun _ => rfl, rfl, rfl⟩
  | sendEvent process data =>
    exact ⟨_, rfl, dispatch_dispatches rfl rfl (fun _ => rfl) fun _ => rfl, rfl, rfl⟩
  | _ => contradiction

/-! ### The agreement of a host with its log -/

/-- A host and what its log says of its handle: what was installed is the handle in the slot, it is
given up if the log says so, and then it was there and its engine was closed once. -/
structure Accounts (log : List (Exchange α π ε)) (h : Host α π ε) : Prop where
  installed : log.filterMap Exchange.installed? = h.client.toList
  givenUp : log.any Exchange.givesUp = h.closed
  closings : (log.flatMap Exchange.calls).countP (·.request.isClose) = h.closed.toNat
  handle : h.closed = true → h.client.isSome = true

namespace Accounts

variable {log : List (Exchange α π ε)}

theorem create {config : Config} {spawn : Nat → Spawn} (hfresh : Host.create config spawn = .ok h) :
    h.Accounts [] := by
  unfold Host.create at hfresh
  cases hvalid : config.validate with
  | error err => simp [hvalid, bind, Except.bind, Except.mapError] at hfresh
  | ok _ =>
    cases hpool : Pool.create config.workerThreads spawn with
    | error err => simp [hvalid, hpool, bind, Except.bind, Except.mapError] at hfresh
    | ok pool =>
      simp only [hvalid, hpool, bind, Except.bind, Except.mapError, pure, Except.pure,
        Except.ok.injEq] at hfresh
      rw [← hfresh]
      exact ⟨rfl, rfl, rfl, fun hgone => absurd hgone Bool.false_ne_true⟩

/-- A handle that is not there was not given up. -/
theorem closed_eq_false (hlog : h.Accounts log) (hnone : h.client = none) : h.closed = false := by
  by_contra hgone
  have hsome := hlog.handle (by simpa using hgone)
  rw [hnone] at hsome
  contradiction

/-- An exchange that installs nothing, closes nothing and leaves the handle alone. -/
theorem idle (hlog : h.Accounts log) {x : Exchange α π ε} {h' : Host α π ε}
    (hinstalled : x.installed? = none) (hgivesUp : x.givesUp = false)
    (hcalls : ∀ c ∈ x.calls, c.request.isClose = false) (hclient : h'.client = h.client)
    (hclosed : h'.closed = h.closed) : h'.Accounts (log ++ [x]) where
  installed := by
    rw [List.filterMap_append, hlog.installed, hclient, List.filterMap_cons_none hinstalled,
      List.filterMap_nil, List.append_nil]
  givenUp := by
    rw [List.any_append, hlog.givenUp, hclosed, List.any_cons, hgivesUp, List.any_nil,
      Bool.or_false, Bool.or_false]
  closings := by
    have hnone : x.calls.countP (·.request.isClose) = 0 :=
      List.countP_eq_zero.mpr fun c hc => by simp [hcalls c hc]
    rw [List.flatMap_append, List.countP_append, hlog.closings, List.flatMap_singleton, hnone,
      hclosed, Nat.add_zero]
  handle := by
    rw [hclosed, hclient]
    exact hlog.handle

theorem initClient (hlog : h.Accounts log) (engine : ε) :
    (h.serve (.initClient engine)).2.Accounts
      (log ++ [⟨.initClient engine, (h.serve (.initClient engine)).1⟩]) := by
  cases hclient : h.client with
  | some e =>
    have hserve : h.serve (.initClient engine) = (.done (.error .clientAlreadyInitialized), h) := by
      rw [serve, Host.initClient, hclient]
      rfl
    rw [hserve]
    exact hlog.idle rfl rfl (fun _ hc => absurd hc List.not_mem_nil) rfl rfl
  | none =>
    have hserve : h.serve (.initClient engine) =
        (.done (.ok ()), { h with client := some engine }) := by
      rw [serve, Host.initClient, hclient]
      rfl
    rw [hserve]
    refine ⟨?_, ?_, ?_, fun _ => rfl⟩
    · rw [List.filterMap_append, hlog.installed, hclient]
      rfl
    · rw [List.any_append, hlog.givenUp]
      exact Bool.or_false _
    · rw [List.flatMap_append, List.countP_append, hlog.closings]
      rfl

theorem closeClient (hlog : h.Accounts log) :
    (h.serve .closeClient).2.Accounts (log ++ [⟨.closeClient, (h.serve .closeClient).1⟩]) := by
  cases hclient : h.client with
  | none =>
    have hserve : h.serve .closeClient = (.closed (.error .clientNotInitialized), h) := by
      rw [serve, Host.closeClient, hclient]
      rfl
    rw [hserve]
    exact hlog.idle rfl rfl (fun _ hc => absurd hc List.not_mem_nil) rfl rfl
  | some e =>
    cases hclosed : h.closed with
    | true =>
      have hserve : h.serve .closeClient = (.closed (.ok none), h) := by
        simp [serve, Host.closeClient, hclient, hclosed]
      rw [hserve]
      refine ⟨?_, ?_, ?_, hlog.handle⟩
      · rw [List.filterMap_append, hlog.installed]
        exact List.append_nil _
      · rw [List.any_append, hlog.givenUp, hclosed]
        rfl
      · rw [List.flatMap_append, List.countP_append, hlog.closings]
        rfl
    | false =>
      have hserve : h.serve .closeClient =
          (.closed (.ok (some ⟨e, .close⟩)), { h with closed := true }) := by
        simp [serve, Host.closeClient, hclient, hclosed]
      rw [hserve]
      refine ⟨?_, ?_, ?_, fun _ => by rw [hclient]; rfl⟩
      · rw [List.filterMap_append, hlog.installed]
        exact List.append_nil _
      · rw [List.any_append, hlog.givenUp, hclosed]
        rfl
      · rw [List.flatMap_append, List.countP_append, hlog.closings, hclosed]
        rfl

theorem dispatch (hlog : h.Accounts log) {q : HostRequest α π ε} (hq : q.isDispatch = true) :
    (h.serve q).2.Accounts (log ++ [⟨q, (h.serve q).1⟩]) := by
  obtain ⟨result, houtcome, hdispatches, hclient, hclosed⟩ := h.serve_dispatches hq
  refine hlog.idle ?_ ?_ (fun c hc => ?_) hclient hclosed
  · rw [houtcome]
    cases q <;> rfl
  · rw [houtcome]
    rfl
  · cases hresult : result with
    | error err =>
      rw [houtcome, hresult] at hc
      exact absurd hc List.not_mem_nil
    | ok call =>
      rw [houtcome, hresult] at hc
      rw [List.mem_singleton.mp hc]
      exact (hdispatches.reaches call hresult).2.2

theorem registerProcess (hlog : h.Accounts log) (e : Enrolment α π) :
    (h.serve (.registerProcess e)).2.Accounts
      (log ++ [⟨.registerProcess e, (h.serve (.registerProcess e)).1⟩]) := by
  have hsame : (h.serve (.registerProcess e)).2.client = h.client ∧
      (h.serve (.registerProcess e)).2.closed = h.closed := by
    show (h.registerProcess e.process e.activities e.events).2.client = h.client ∧
      (h.registerProcess e.process e.activities e.events).2.closed = h.closed
    unfold Host.registerProcess
    split
    · exact ⟨rfl, rfl⟩
    · exact ⟨rfl, rfl⟩
  exact hlog.idle rfl rfl (fun _ hc => absurd hc List.not_mem_nil) hsame.1 hsame.2

/-- **No request breaks the agreement.** -/
theorem serve (hlog : h.Accounts log) (q : HostRequest α π ε) :
    (h.serve q).2.Accounts (log ++ [⟨q, (h.serve q).1⟩]) := by
  cases q with
  | initClient engine => exact hlog.initClient engine
  | closeClient => exact hlog.closeClient
  | registerProcess e => exact hlog.registerProcess e
  | shutdown | clearRegistries | registerServiceActivities as =>
    exact hlog.idle rfl rfl (fun _ hc => absurd hc List.not_mem_nil) rfl rfl
  | callActivity a args => exact hlog.dispatch rfl
  | invokeActivity name args => exact hlog.dispatch rfl
  | startProcess p input => exact hlog.dispatch rfl
  | sendEvent process data => exact hlog.dispatch rfl

theorem serveAll (hlog : h.Accounts log) (requests : List (HostRequest α π ε)) :
    (h.serveAll requests).2.Accounts (log ++ (h.serveAll requests).1) :=
  serveAll_induction (fun _ _ q hbefore => hbefore.serve q) hlog requests

end Accounts

/-! ### Sequences of requests -/

/-- **A host has one handle, and its dispatches go to that engine alone.**  After any requests to a
fresh host, at most one handle was installed, and it stays whatever is asked next; an engine was
closed at most once; and a dispatch that reaches an engine reaches the one that was installed, which
was not given up.  Without an installation, and once the handle was given up, every dispatch is
refused, whatever its arguments. -/
theorem serveAll_oneHandle {config : Config} {spawn : Nat → Spawn} {fresh h : Host α π ε}
    {requests : List (HostRequest α π ε)} {log : List (Exchange α π ε)}
    (hfresh : Host.create config spawn = .ok fresh) (hserve : fresh.serveAll requests = (log, h)) :
    (log.filterMap Exchange.installed?).length ≤ 1 ∧
    (∀ engine ∈ log.filterMap Exchange.installed?, ∀ more : List (HostRequest α π ε),
      (h.serveAll more).2.client = some engine) ∧
    (log.flatMap Exchange.calls).countP (·.request.isClose) ≤ 1 ∧
    ∀ q : HostRequest α π ε, q.isDispatch = true → ∃ result, (h.serve q).1 = .called result ∧
      (∀ call, result = .ok call →
        call.engine ∈ log.filterMap Exchange.installed? ∧ log.any Exchange.givesUp = false) ∧
      (log.filterMap Exchange.installed? = [] →
        result = .error (q.refusal h .clientNotInitialized)) ∧
      (log.any Exchange.givesUp = true → result = .error (q.refusal h .clientClosed)) := by
  have hlog : h.Accounts log := by
    have hall := (Accounts.create hfresh).serveAll requests
    rwa [hserve] at hall
  refine ⟨?_, fun engine hinstalled more => ?_, ?_, fun q hq => ?_⟩
  · rw [hlog.installed]
    cases h.client <;> simp
  · -- The log goes on behind what was installed, and it knows one handle only.
    have hlater := (hlog.serveAll more).installed
    rw [List.filterMap_append] at hlater
    have hmem : engine ∈ (h.serveAll more).2.client.toList := by
      rw [← hlater]
      exact List.mem_append_left _ hinstalled
    exact Option.mem_toList.mp hmem
  · rw [hlog.closings]
    exact Bool.toNat_le _
  · obtain ⟨result, houtcome, hdispatches, -, -⟩ := h.serve_dispatches hq
    refine ⟨result, houtcome, fun call hcall => ?_, fun hnone => ?_, fun hgone => ?_⟩
    · obtain ⟨hopen, hclient, -⟩ := hdispatches.reaches call hcall
      rw [hlog.installed, hclient, hlog.givenUp]
      exact ⟨List.mem_singleton_self _, hopen⟩
    · have hclient : h.client = none := by
        rw [hlog.installed] at hnone
        exact Option.toList_eq_nil_iff.mp hnone
      exact hdispatches.early (hlog.closed_eq_false hclient) hclient
    · exact hdispatches.late (hlog.givenUp ▸ hgone)

/-- An activity is called too early, a second engine comes too late, and the handle is given up
twice. -/
def givenUpTwice : List (HostRequest Unit Unit Nat) :=
  [.callActivity ⟨"charge", ()⟩ .nil, .initClient 1, .initClient 2, .startProcess ⟨"order", ()⟩ .nil,
    .closeClient, .closeClient]

theorem givenUpTwice_oneHandle : ∃ fresh log h,
    Host.create {} (fun _ => .made) = .ok fresh ∧ fresh.serveAll givenUpTwice = (log, h) ∧
    log.filterMap Exchange.installed? = [1] ∧ (h.serveAll [.initClient 3]).2.client = some 1 ∧
    (log.flatMap Exchange.calls).countP (·.request.isClose) ≤ 1 ∧
    (h.serve (.invokeActivity "charge" [])).1 = .called (.error .clientClosed) ∧
    (h.serve (.invokeActivity "ship" [])).1 = .called (.error (.activityNotFound "ship")) := by
  have hcreate : Host.create {} (fun _ => .made) =
      .ok (⟨{}, .empty, .start 4, none, false⟩ : Host Unit Unit Nat) := by
    rw [create, Config.validate_usual]
    rfl
  obtain ⟨-, hkept, hcloses, hdispatch⟩ :=
    serveAll_oneHandle hcreate (rfl : Host.serveAll _ givenUpTwice = (_, _))
  refine ⟨_, _, _, hcreate, rfl, rfl, hkept 1 (by decide) _, hcloses, ?_, ?_⟩
  · obtain ⟨result, houtcome, -, -, hlate⟩ := hdispatch (.invokeActivity "charge" []) rfl
    rw [houtcome, hlate rfl]
    rfl
  · obtain ⟨result, houtcome, -, -, hlate⟩ := hdispatch (.invokeActivity "ship" []) rfl
    rw [houtcome, hlate rfl]
    rfl

end Host

end Durable
