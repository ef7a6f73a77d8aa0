import MlsImgSearch.Lib.Run

/-!
# Queries of a tokenless pool

A query goes to the service that the selector gives for its key, or to the service with an
id. The callback of the service, or a posted task if the service refuses, calls the user.
-/

namespace MlsImgSearch.Blitz.TokenlessServicePool

open Lib.Run

/-! ## Services and callbacks -/

/-- The bytes of `main_key`, and `sub_key`. -/
structure SelectKey where
  mainKey : List UInt8
  subKey : BitVec 64
  deriving DecidableEq

/-- The id of the service in `data_`, which may be null. -/
structure SelectNode where
  data : Option Int
  deriving DecidableEq

/-- The functions of a selector with states `σ`. `select` gives no node if it does not return 0. -/
structure Selector (σ : Type) where
  select : σ → SelectKey → σ × Option SelectNode
  getItem : σ → Int → Option SelectNode
  updateMark : σ → Int → Int → σ

/-- Which pool it is: `InvokeCallback` is virtual. -/
inductive Kind where
  | tokenless
  | redis
  deriving DecidableEq

/-- Functions are numbered; `none` is a null pointer. -/
structure RpcCallback where
  fnAction : Option Nat
  userData : Nat
  deriving DecidableEq

/-- A function that was called, with what it got. -/
structure Invocation (Msg : Type) where
  fnAction : Option Nat
  userData : Nat
  result : Int
  msg : Option Msg
  deriving DecidableEq

variable {Msg σ : Type}

def invokeCallback (kind : Kind) (rpc : RpcCallback) (result : Int) (msg : Option Msg)
    (extra : Option Nat) : Invocation Msg :=
  match kind with
  | .tokenless => ⟨rpc.fnAction, rpc.userData, result, msg⟩
  | .redis => ⟨extra, rpc.userData, result, msg⟩

/-! ## A query -/

inductive Waiting where
  /-- For the callback of the service with this id. -/
  | service (id : Int)
  /-- For the posted task. -/
  | task
  deriving DecidableEq

/-- `issued` is what the service got, `refs` the references to the message that are added and not
released, and `called` the functions that were called. -/
structure Query (Msg : Type) where
  rpc : RpcCallback
  extra : Option Nat
  returned : Int
  issued : Option (Int × Int × Nat)
  refs : Int
  waiting : Option Waiting
  called : List (Invocation Msg)
  deriving DecidableEq

/-- Whether the service's `Query` returns 0, whether the task is queued, and the time. -/
structure Env where
  accepted : Bool
  posted : Bool
  now : Nat
  deriving DecidableEq

/-- What `RealQuery` and `RealQueryWithoutSelect` do with the service that was found. -/
def queryService (service : Option Int) (rpc : RpcCallback) (extra : Option Nat) (logId : Int)
    (timeout : Nat) (env : Env) : Query Msg :=
  match service with
  | none => ⟨rpc, extra, -2, none, 0, none, []⟩
  | some id =>
      let issued := some (id, logId, env.now + if timeout ≤ 0 then 1000 else timeout)
      if env.accepted then ⟨rpc, extra, 0, issued, 1, some (.service id), []⟩
      else ⟨rpc, extra, -3, issued, 1 - 1, if env.posted then some .task else none, []⟩

def realQuery (sel : Selector σ) (s : σ) (key : SelectKey) (rpc : RpcCallback) (extra : Option Nat)
    (logId : Int) (timeout : Nat) (env : Env) : σ × Query Msg :=
  let (s, selected) := sel.select s key
  (s, queryService (selected.bind SelectNode.data) rpc extra logId timeout env)

def realQueryWithoutSelect (sel : Selector σ) (s : σ) (serviceId : Int) (rpc : RpcCallback)
    (extra : Option Nat) (logId : Int) (timeout : Nat) (env : Env) : σ × Query Msg :=
  (s, queryService ((sel.getItem s serviceId).bind SelectNode.data) rpc extra logId timeout env)

/-- How the service is found. -/
inductive Target where
  | key (key : SelectKey)
  | service (id : Int)
  deriving DecidableEq

def queryTarget (sel : Selector σ) (s : σ) (target : Target) (rpc : RpcCallback)
    (extra : Option Nat) (logId : Int) (timeout : Nat) (env : Env) : σ × Query Msg :=
  match target with
  | .key key => realQuery sel s key rpc extra logId timeout env
  | .service id => realQueryWithoutSelect sel s id rpc extra logId timeout env

/-- A query with a message and a callback of the user. -/
def query (sel : Selector σ) (s : σ) (target : Target) (fnAction userData : Nat) (logId : Int)
    (timeout : Nat) (env : Env) : σ × Query Msg :=
  queryTarget sel s target ⟨some fnAction, userData⟩ none logId timeout env

/-- `RedisPool::Command` and `CommandWithoutSelect`: the message is created and released here, and the
function of the user is the extra pointer. -/
def command (sel : Selector σ) (s : σ) (target : Target) (fnAction userData : Nat) (logId : Int)
    (timeout : Nat) (env : Env) : σ × Query Msg :=
  let (s, q) := queryTarget sel s target ⟨none, userData⟩ (some fnAction) logId timeout env
  (s, { q with refs := 1 + q.refs - 1 })

/-! ## The pool -/

/-- A pool of either kind has `Query`; commands are those of a redis pool. -/
inductive Entry : Kind → Type where
  | query (kind : Kind) : Entry kind
  | command : Entry .redis

structure Call (kind : Kind) where
  entry : Entry kind
  target : Target
  fnAction : Nat
  userData : Nat
  logId : Int
  timeout : Nat

structure Pool (kind : Kind) (Msg σ : Type) where
  selector : σ
  queries : List (Query Msg)

variable {kind : Kind}

def markWhileFail : Int := -10

/-- `OnQueryCallback` for the service with this id; a failure lowers its mark. -/
def onQueryCallback (sel : Selector σ) (p : Pool kind Msg σ) (i : Nat) (q : Query Msg) (id : Int)
    (result : Int) (msg : Option Msg) : Pool kind Msg σ :=
  let msg := if result ≠ 0 then none else msg
  { p with
    selector := if result ≠ 0 then sel.updateMark p.selector id markWhileFail else p.selector
    queries := p.queries.set i { q with
      refs := q.refs - 1
      waiting := none
      called := q.called ++ [invokeCallback kind q.rpc result msg q.extra] } }

def timeoutCallback (p : Pool kind Msg σ) (i : Nat) (q : Query Msg) : Pool kind Msg σ :=
  { p with
    queries := p.queries.set i { q with
      waiting := none
      called := q.called ++ [invokeCallback kind q.rpc (-111) none q.extra] } }

/-- `change` stands for what else is done with the selector. -/
inductive Event (kind : Kind) (Msg σ : Type) where
  | call (c : Call kind) (env : Env)
  | reply (i : Nat) (result : Int) (msg : Option Msg)
  | task (i : Nat)
  | change (selector : σ)

def startQuery (sel : Selector σ) (p : Pool kind Msg σ) (c : Call kind) (env : Env) : Pool kind Msg σ :=
  let (s, q) := match c.entry with
    | .query _ => query sel p.selector c.target c.fnAction c.userData c.logId c.timeout env
    | .command => command sel p.selector c.target c.fnAction c.userData c.logId c.timeout env
  { p with selector := s, queries := p.queries ++ [q] }

/-- A callback comes once to a query that waits for it, and a task is run once. -/
def step (sel : Selector σ) (p : Pool kind Msg σ) : Event kind Msg σ → Option (Pool kind Msg σ)
  | .call c env => some (startQuery sel p c env)
  | .reply i result msg =>
      match p.queries[i]? with
      | some q =>
          match q.waiting with
          | some (.service id) => some (onQueryCallback sel p i q id result msg)
          | _ => none
      | none => none
  | .task i =>
      match p.queries[i]? with
      | some q => if q.waiting = some .task then some (timeoutCallback p i q) else none
      | none => none
  | .change s => some { p with selector := s }

/-! ## What is wanted -/

/-- The user was called once, and the message has the references that it had. -/
def Answered (c : Call kind) (q : Query Msg) : Prop :=
  (∃ result msg, q.called = [⟨some c.fnAction, c.userData, result, msg⟩]) ∧ q.refs = 0

/-- Nothing is called before the call returns, nor while its query waits; when it does not wait any
more it is answered. -/
def Right (sel : Selector σ) (p : Pool kind Msg σ) (c : Call kind) (env : Env) : Prop :=
  (∀ q, (startQuery sel p c env).queries[p.queries.length]? = some q → q.called = []) ∧
    ∀ events p', exec (step sel) (startQuery sel p c env) events = some p' →
      ∃ q, p'.queries[p.queries.length]? = some q ∧
        (q.waiting ≠ none → q.called = []) ∧ (q.waiting = none → Answered c q)

/-- The service that a call finds. -/
def selected (sel : Selector σ) (s : σ) : Target → Option Int
  | .key key => (sel.select s key).2.bind SelectNode.data
  | .service id => (sel.getItem s id).bind SelectNode.data

/-- Whether the function of the user is what `InvokeCallback` calls. -/
def Entry.Proper : Entry kind → Prop
  | .query kind => kind = .tokenless
  | .command => True

/-- A service is found, it accepts the query or the task is queued, and it is not `Query` that is called
on a redis pool. -/
structure Fits (sel : Selector σ) (p : Pool kind Msg σ) (c : Call kind) (env : Env) : Prop where
  found : selected sel p.selector c.target ≠ none
  heard : env.accepted ∨ env.posted
  proper : c.entry.Proper

/-! ## The start of a query -/

section Start

variable {sel : Selector σ} {p : Pool kind Msg σ} {c : Call kind} {env : Env} {q : Query Msg}

/-- What a new query waits for. -/
def firstWaiting (service : Option Int) (env : Env) : Option Waiting :=
  service.bind fun id =>
    if env.accepted then some (.service id) else if env.posted then some .task else none

/-- The references of a query that waits. -/
def held : Option Waiting → Int
  | some (.service _) => 1
  | _ => 0

/-- What a callback of this query calls is the function of the user only in a proper call. -/
structure Unanswered (c : Call kind) (q : Query Msg) : Prop where
  called : q.called = []
  refs : q.refs = held q.waiting
  invokes : ∃ fnAction, (c.entry.Proper ↔ fnAction = some c.fnAction) ∧ ∀ result (msg : Option Msg),
    invokeCallback kind q.rpc result msg q.extra = ⟨fnAction, c.userData, result, msg⟩

theorem queryService_spec (service : Option Int) (rpc : RpcCallback) (extra : Option Nat)
    (logId : Int) (timeout : Nat) (env : Env) :
    ∃ returned issued, (queryService service rpc extra logId timeout env : Query Msg) =
      ⟨rpc, extra, returned, issued, held (firstWaiting service env), firstWaiting service env, []⟩ := by
  cases service with
  | none => exact ⟨_, _, rfl⟩
  | some id =>
      rw [queryService, firstWaiting, Option.bind_some]
      by_cases accepted : env.accepted = true
      · rw [if_pos accepted, if_pos accepted]
        exact ⟨_, _, rfl⟩
      · rw [if_neg accepted, if_neg accepted]
        by_cases posted : env.posted = true
        · rw [if_pos posted]
          exact ⟨_, _, rfl⟩
        · rw [if_neg posted]
          exact ⟨_, _, rfl⟩

theorem queryTarget_spec (Msg : Type) (sel : Selector σ) (s : σ) (target : Target) (rpc : RpcCallback)
    (extra : Option Nat) (logId : Int) (timeout : Nat) (env : Env) :
    ∃ returned issued, (queryTarget sel s target rpc extra logId timeout env).2 =
      (⟨rpc, extra, returned, issued, held (firstWaiting (selected sel s target) env),
        firstWaiting (selected sel s target) env, []⟩ : Query Msg) := by
  cases target with
  | key key => exact queryService_spec _ rpc extra logId timeout env
  | service id => exact queryService_spec _ rpc extra logId timeout env

/-- A call adds a query that waits for the service, for the task or for nothing. -/
theorem startQuery_spec (sel : Selector σ) (p : Pool kind Msg σ) (c : Call kind) (env : Env) :
    ∃ q, (startQuery sel p c env).queries = p.queries ++ [q] ∧ Unanswered c q ∧
      q.waiting = firstWaiting (selected sel p.selector c.target) env := by
  obtain ⟨entry, target, fnAction, userData, logId, timeout⟩ := c
  have waiting : ∀ rpc extra, ∃ returned issued,
      (queryTarget sel p.selector target rpc extra logId timeout env).2 =
        (⟨rpc, extra, returned, issued, held (firstWaiting (selected sel p.selector target) env),
          firstWaiting (selected sel p.selector target) env, []⟩ : Query Msg) :=
    fun rpc extra => queryTarget_spec Msg sel p.selector target rpc extra logId timeout env
  cases entry with
  | query =>
      obtain ⟨returned, issued, isQuery⟩ := waiting ⟨some fnAction, userData⟩ none
      refine ⟨(queryTarget sel p.selector target ⟨some fnAction, userData⟩ none logId timeout env).2,
        rfl, ?_⟩
      rw [isQuery]
      refine ⟨⟨rfl, rfl, ?_⟩, rfl⟩
      cases kind with
      | tokenless => exact ⟨some fnAction, iff_of_true rfl rfl, fun _ _ => rfl⟩
      | redis => exact ⟨none, iff_of_false nofun nofun, fun _ _ => rfl⟩
  | command =>
      obtain ⟨returned, issued, isQuery⟩ := waiting ⟨none, userData⟩ (some fnAction)
      refine ⟨{ (queryTarget sel p.selector target ⟨none, userData⟩ (some fnAction) logId timeout
        env).2 with refs := 1 + (queryTarget sel p.selector target ⟨none, userData⟩ (some fnAction)
          logId timeout env).2.refs - 1 }, rfl, ?_⟩
      rw [isQuery]
      refine ⟨⟨rfl, ?_, some fnAction, iff_of_true trivial rfl, fun _ _ => rfl⟩, rfl⟩
      exact show 1 + held (firstWaiting (selected sel p.selector target) env) - 1 =
        held (firstWaiting (selected sel p.selector target) env) by omega

end Start

/-! ## Runs -/

section Runs

variable {sel : Selector σ} {p p' : Pool kind Msg σ} {c : Call kind} {env : Env} {q : Query Msg}
  {waiting : Option Waiting} {i : Nat}

/-- A query that was called back once. -/
structure Finished (c : Call kind) (q : Query Msg) : Prop where
  waiting : q.waiting = none
  refs : q.refs = 0
  called : ∃ fnAction result msg, (c.entry.Proper ↔ fnAction = some c.fnAction) ∧
    q.called = [⟨fnAction, c.userData, result, msg⟩]

/-- The query has what it waited for still to come, or it has had it. -/
def Tracked (c : Call kind) (waiting : Option Waiting) (q : Query Msg) : Prop :=
  Unanswered c q ∧ q.waiting = waiting ∨ waiting ≠ none ∧ Finished c q

/-- A callback finishes a query that waits. -/
theorem Tracked.finish (tracked : Tracked c waiting q) (waits : q.waiting ≠ none) (result : Int)
    (msg : Option Msg) :
    Tracked c waiting { q with
      refs := q.refs - held q.waiting
      waiting := none
      called := q.called ++ [invokeCallback kind q.rpc result msg q.extra] } := by
  rcases tracked with ⟨unanswered, same⟩ | ⟨-, finished⟩
  · obtain ⟨called, refs, fnAction, proper, invokes⟩ := unanswered
    refine Or.inr ⟨same ▸ waits, rfl, ?_, fnAction, result, msg, proper, ?_⟩
    · show q.refs - held q.waiting = 0
      rw [refs, Int.sub_self]
    · show q.called ++ [invokeCallback kind q.rpc result msg q.extra] = _
      rw [called, invokes]
      rfl
  · exact absurd finished.waiting waits

theorem step_reply {result : Int} {msg : Option Msg}
    (stepped : step sel p (.reply i result msg) = some p') :
    ∃ q id, p.queries[i]? = some q ∧ q.waiting = some (.service id) ∧
      p' = onQueryCallback sel p i q id result msg := by
  rw [step] at stepped
  split at stepped
  · rename_i q found
    split at stepped
    · rename_i id waits
      exact ⟨q, id, found, waits, (Option.some.inj stepped).symm⟩
    · cases stepped
  · cases stepped

theorem step_task (stepped : step sel p (.task i) = some p') :
    ∃ q, p.queries[i]? = some q ∧ q.waiting = some .task ∧ p' = timeoutCallback p i q := by
  rw [step] at stepped
  split at stepped
  · rename_i q found
    obtain ⟨waits, same⟩ := Option.ite_none_right_eq_some.mp stepped
    exact ⟨q, found, waits, (Option.some.inj same).symm⟩
  · cases stepped

/-- The query at a position after another one, or the same, is replaced. -/
theorem set_tracked {queries : List (Query Msg)} {j : Nat} {old new : Query Msg}
    (found : queries[i]? = some q) (tracked : Tracked c waiting q) (isOld : queries[j]? = some old)
    (finish : Tracked c waiting old → Tracked c waiting new) :
    ∃ q', (queries.set j new)[i]? = some q' ∧ Tracked c waiting q' := by
  by_cases same : j = i
  · subst same
    obtain rfl := Option.some.inj (found.symm.trans isOld)
    have inside := (List.getElem?_eq_some_iff.mp found).1
    exact ⟨new, List.getElem?_set_self inside, finish tracked⟩
  · exact ⟨q, by rw [List.getElem?_set_ne same, found], tracked⟩

/-- What a step does to a query that was started. -/
theorem step_tracked {event : Event kind Msg σ} (found : p.queries[i]? = some q)
    (tracked : Tracked c waiting q) (stepped : step sel p event = some p') :
    ∃ q', p'.queries[i]? = some q' ∧ Tracked c waiting q' := by
  have inside : i < p.queries.length := (List.getElem?_eq_some_iff.mp found).1
  cases event with
  | call c' env =>
      obtain rfl := Option.some.inj stepped
      obtain ⟨q', isLast, -⟩ := startQuery_spec sel p c' env
      rw [isLast, List.getElem?_append_left inside]
      exact ⟨q, found, tracked⟩
  | change s =>
      obtain rfl := Option.some.inj stepped
      exact ⟨q, found, tracked⟩
  | reply j result msg =>
      obtain ⟨old, id, isOld, waits, rfl⟩ := step_reply stepped
      refine set_tracked found tracked isOld fun tracked => ?_
      have finished := tracked.finish (by rw [waits]; exact nofun) result
        (if result ≠ 0 then none else msg)
      rw [waits] at finished
      exact finished
  | task j =>
      obtain ⟨old, isOld, waits, rfl⟩ := step_task stepped
      refine set_tracked found tracked isOld fun tracked => ?_
      have finished := tracked.finish (by rw [waits]; exact nofun) (-111) none
      rw [waits] at finished
      simpa only [held, Int.sub_zero] using finished

/-- What a run does to it. -/
theorem exec_tracked {events : List (Event kind Msg σ)} (found : p.queries[i]? = some q)
    (tracked : Tracked c waiting q) (ran : exec (step sel) p events = some p') :
    ∃ q', p'.queries[i]? = some q' ∧ Tracked c waiting q' := by
  have keep : ∀ (p : Pool kind Msg σ) (event : Event kind Msg σ) (p' : Pool kind Msg σ),
      (∃ q, p.queries[i]? = some q ∧ Tracked c waiting q) → True → step sel p event = some p' →
      ∃ q, p'.queries[i]? = some q ∧ Tracked c waiting q := by
    rintro p event p' ⟨q, found, tracked⟩ - stepped
    exact step_tracked found tracked stepped
  exact exec_invariant keep ⟨q, found, tracked⟩ (meets_of_forall fun _ _ => trivial) ran

/-- A query that waits can be called back. -/
theorem exists_callback (sel : Selector σ) (found : p.queries[i]? = some q) (waits : q.waiting ≠ none) :
    ∃ event p' q', step sel p event = some p' ∧ p'.queries[i]? = some q' ∧ q'.waiting = none := by
  have inside := (List.getElem?_eq_some_iff.mp found).1
  cases isWaiting : q.waiting with
  | none => exact absurd isWaiting waits
  | some waiting =>
      cases waiting with
      | service id =>
          refine ⟨.reply i 0 none, onQueryCallback sel p i q id 0 none, _, ?_,
            List.getElem?_set_self inside, rfl⟩
          rw [step, found]
          dsimp only
          rw [isWaiting]
      | task =>
          refine ⟨.task i, timeoutCallback p i q, _, ?_, List.getElem?_set_self inside, rfl⟩
          rw [step, found]
          exact if_pos isWaiting

/-- A call is right exactly if its query waits for something and calls the function of the user. -/
theorem right_iff (sel : Selector σ) (p : Pool kind Msg σ) (c : Call kind) (env : Env) :
    Right sel p c env ↔
      firstWaiting (selected sel p.selector c.target) env ≠ none ∧ c.entry.Proper := by
  obtain ⟨q, isLast, unanswered, isWaiting⟩ := startQuery_spec sel p c env
  have found : (startQuery sel p c env).queries[p.queries.length]? = some q := by
    rw [isLast, List.getElem?_append_right (Nat.le_refl _), Nat.sub_self]
    rfl
  rw [← isWaiting]
  have start : Tracked c q.waiting q := Or.inl ⟨unanswered, rfl⟩
  constructor
  · rintro ⟨-, right⟩
    have waits : q.waiting ≠ none := by
      intro idle
      obtain ⟨q', found', -, answered⟩ := right [] _ rfl
      obtain rfl := Option.some.inj (found.symm.trans found')
      obtain ⟨⟨result, msg, called⟩, -⟩ := answered idle
      rw [unanswered.called] at called
      cases called
    refine ⟨waits, ?_⟩
    obtain ⟨event, p', q', stepped, found', idle⟩ := exists_callback sel found waits
    have ran : exec (step sel) (startQuery sel p c env) [event] = some p' := by
      rw [exec, stepped]
      rfl
    obtain ⟨q'', found'', -, answered⟩ := right [event] p' ran
    obtain rfl := Option.some.inj (found'.symm.trans found'')
    obtain ⟨last, isFound, tracked⟩ := exec_tracked found start ran
    obtain rfl := Option.some.inj (found'.symm.trans isFound)
    rcases tracked with ⟨-, same⟩ | ⟨-, finished⟩
    · exact absurd (same.symm.trans idle) waits
    · obtain ⟨fnAction, result, msg, proper, called⟩ := finished.called
      obtain ⟨⟨result', msg', called'⟩, -⟩ := answered idle
      have same := List.singleton_inj.mp (called.symm.trans called')
      exact proper.mpr (congrArg Invocation.fnAction same)
  · rintro ⟨waits, proper⟩
    refine ⟨fun q' found' => ?_, fun events p' ran => ?_⟩
    · obtain rfl := Option.some.inj (found.symm.trans found')
      exact unanswered.called
    · obtain ⟨q', found', tracked⟩ := exec_tracked found start ran
      refine ⟨q', found', ?_⟩
      rcases tracked with ⟨unanswered', same⟩ | ⟨-, finished⟩
      · exact ⟨fun _ => unanswered'.called, fun idle => absurd (same.symm.trans idle) waits⟩
      · refine ⟨fun still => absurd finished.waiting still, fun _ => ?_⟩
        obtain ⟨fnAction, result, msg, isProper, called⟩ := finished.called
        rw [isProper.mp proper] at called
        exact ⟨⟨result, msg, called⟩, finished.refs⟩

end Runs

/-- Each call is answered once, with the references as they were, exactly if a service is found and
accepts the query or the task is queued, and `Query` is not that of a redis pool. -/
theorem tokenlessPool_right_iff (sel : Selector σ) (p : Pool kind Msg σ) (c : Call kind) (env : Env) :
    Right sel p c env ↔ Fits sel p c env := by
  rw [right_iff]
  constructor
  · rintro ⟨waits, proper⟩
    cases found : selected sel p.selector c.target with
    | none =>
        rw [found] at waits
        exact absurd rfl waits
    | some id =>
        rw [found, firstWaiting, Option.bind_some] at waits
        refine ⟨by rw [found]; exact nofun, ?_, proper⟩
        by_contra unheard
        obtain ⟨refused, lost⟩ := not_or.mp unheard
        rw [if_neg refused, if_neg lost] at waits
        exact waits rfl
  · rintro ⟨found, heard, proper⟩
    obtain ⟨id, isService⟩ := Option.ne_none_iff_exists'.mp found
    refine ⟨?_, proper⟩
    rw [isService, firstWaiting, Option.bind_some]
    rcases heard with accepted | posted
    · rw [if_pos accepted]
      exact nofun
    · by_cases accepted : env.accepted = true
      · rw [if_pos accepted]
        exact nofun
      · rw [if_neg accepted, if_pos posted]
        exact nofun

/-- A selector without services. -/
def noServices : Selector Unit where
  select s _ := (s, none)
  getItem _ _ := none
  updateMark s _ _ := s

/-- Without a service the call returns −2, and the function of the user is not called. -/
theorem no_service_no_callback :
    (startQuery noServices (⟨(), []⟩ : Pool .tokenless Unit Unit)
        ⟨.query _, .key ⟨[107], 0⟩, 1, 2, 0, 100⟩ ⟨true, true, 0⟩).queries =
      [⟨⟨some 1, 2⟩, none, -2, none, 0, none, []⟩] ∧
      ¬ Right noServices (⟨(), []⟩ : Pool .tokenless Unit Unit)
        ⟨.query _, .key ⟨[107], 0⟩, 1, 2, 0, 100⟩ ⟨true, true, 0⟩ := by
  refine ⟨rfl, ?_⟩
  rw [right_iff]
  rintro ⟨waits, -⟩
  exact waits rfl

end MlsImgSearch.Blitz.TokenlessServicePool
