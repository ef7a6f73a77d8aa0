import MlsImgSearch.Lib.Custody
import MlsImgSearch.Lib.Ledger
import MlsImgSearch.Lib.Run

/-!
# The connections of a tokenless service

A service lends its connections to queries and parks a query that finds none in
`delay_reqs_` until a connection is given back. Calls run at the same time as the
events of the connections, and a section under a mutex is one step. Requests and
connections are numbered in the order in which they are made.
-/

namespace MlsImgSearch.Blitz.TokenlessService

open Lib.Custody Lib.Ledger Lib.Run

/-! ## A connection -/

inductive Status where
  | closed
  | connecting
  | connected
  | sending
  | uninited
  deriving DecidableEq

/-- `iter` is whether `iter_` differs from `busy_conns_.end()`. -/
structure TokenlessConn where
  ioId : Nat
  rpc : Option Nat
  status : Status
  timerId : Int
  iter : Bool
  deriving DecidableEq

/-- What a step meets outside of the service: whether the request has expired, what `Connect`
returns and the identifier it writes, whether `SendMsg` returns 0, what `SetTimer` returns, whether
`PostTask` queues the task, and what memory holds where a new connection has its `timer_id_`. -/
structure Env where
  expired : Bool
  connect : Int
  ioId : Nat
  sent : Bool
  timerId : Int
  posted : Bool
  memory : Int
  deriving DecidableEq

/-- The constructor does not set `timer_id_`. -/
def TokenlessConn.new (env : Env) : TokenlessConn := ⟨0, none, .closed, env.memory, false⟩

namespace TokenlessConn

variable (conn : TokenlessConn)

/-- The end of `Query` when the request could not be sent. -/
def queryFailed : Int × TokenlessConn :=
  (-1, { conn with rpc := none, ioId := 0, status := .closed })

def sendRequest (env : Env) : Int × TokenlessConn :=
  if env.sent then (0, { conn with status := .sending, timerId := env.timerId })
  else queryFailed conn

/-- `none` stands for an assertion that fails. -/
def query (rpc : Nat) (env : Env) : Option (Int × TokenlessConn) :=
  if conn.rpc ≠ none then none
  else if env.expired then some (-100, conn)
  else
    let conn := { conn with rpc := some rpc }
    match conn.status with
    | .closed =>
        if conn.ioId ≠ 0 then none
        else
          let conn := { conn with status := .connecting, ioId := env.ioId }
          if env.connect = 1 then some (0, { conn with timerId := env.timerId })
          else if env.connect = 0 then some (sendRequest { conn with status := .connected } env)
          else some (queryFailed conn)
    | .connected => some (sendRequest conn env)
    | _ => some (queryFailed conn)

/-- The section of `Reset`. -/
def reset : TokenlessConn :=
  { conn with rpc := none, ioId := 0, status := .closed, timerId := 0 }

/-- The section of `OnOpened`, and whether `Reset` follows. -/
def onOpened (ioId : Nat) (sent : Bool) : TokenlessConn × Bool :=
  if conn.timerId = 0 then (conn, false)
  else if ioId = conn.ioId then
    match conn.rpc with
    | some _ => ({ conn with status := .sending }, !sent)
    | none => ({ conn with status := .connected }, true)
  else (conn, true)

def dropIo : TokenlessConn := { conn with ioId := 0, status := .closed }

end TokenlessConn

/-! ## The service -/

/-- Who gives a connection back: an event of the connection, a query that failed, or `Uninit` with
the connections that it has still to close. -/
inductive Caller where
  | event
  | query
  | close (conns : List Nat)
  deriving DecidableEq

/-- A call in progress, by the section that comes next. -/
inductive Call where
  | getIdleConn (rpc : Nat)
  /-- `Query` got no connection; it reads `inited_` twice. -/
  | noConn (rpc : Nat)
  | noConnInited (rpc : Nat)
  | park (rpc : Nat)
  | connQuery (conn rpc : Nat)
  | reset (conn : Nat)
  /-- `ProcessMsg` forgets the identifier. -/
  | dropIo (conn : Nat)
  /-- The two sections of `ReturnIdleConn`, and between them the work for a parked request. -/
  | returnIdle (conn : Nat) (caller : Caller)
  | putIdle (conn : Nat) (caller : Caller)
  | handOver (conn rpc : Nat) (caller : Caller)
  /-- The query of `ExecDelayReqCallback` has failed. -/
  | execFailed (conn rpc : Nat)
  | uninit (conns : List Nat)
  /-- `Close` sets `kUninited`. -/
  | close (conn : Nat) (conns : List Nat)
  deriving DecidableEq

/-- `tasks` are the posted tasks. `called` are the requests whose `fn_action` was invoked, once for
each time, `accepted` those whose `Query` returned 0 and `refused` those whose `Query` returned
another value. `crashed` stands for undefined behaviour and assertions that failed. -/
structure Service where
  inited : Bool
  idle : List Nat
  idleCount : Int
  busy : List Nat
  busyCount : Int
  nextConnId : Nat
  delayReqs : List Nat
  conns : Nat → TokenlessConn
  tasks : List (Nat × Nat)
  calls : List Call
  nextRpc : Nat
  called : List Nat
  accepted : List Nat
  refused : List Nat
  crashed : Bool

/-- `Init` has returned. -/
def Service.initial : Service :=
  ⟨true, [], 0, [], 0, 0, [], fun _ => ⟨0, none, .closed, 0, false⟩, [], [], 0, [], [], [], false⟩

def push (s : Service) (call : Call) : Service := { s with calls := call :: s.calls }

def crash (s : Service) : Service := { s with crashed := true }

def setConn (s : Service) (c : Nat) (conn : TokenlessConn) : Service :=
  { s with conns := Function.update s.conns c conn }

def callback (s : Service) (rpc : Option Nat) : Service :=
  { s with called := rpc.toList ++ s.called }

def refuse (s : Service) (rpc : Nat) : Service := { s with refused := rpc :: s.refused }

def accept (s : Service) (rpc : Nat) : Service := { s with accepted := rpc :: s.accepted }

/-! ## The sections -/

/-- The end of `GetIdleConn`. -/
def lend (s : Service) (c rpc : Nat) : Service :=
  push (setConn { s with busyCount := s.busyCount + 1, busy := s.busy ++ [c] } c
    { s.conns c with iter := true }) (.connQuery c rpc)

/-- A new connection, which is in no list yet. -/
def newConn (s : Service) (env : Env) : Service :=
  { setConn s s.nextConnId (.new env) with nextConnId := s.nextConnId + 1 }

def getIdleConn (s : Service) (rpc : Nat) (env : Env) : Service :=
  if s.inited = false then push s (.noConn rpc)
  else
    match s.idle with
    | [] =>
        if 400 < s.nextConnId then push s (.noConn rpc)
        else lend (newConn s env) s.nextConnId rpc
    | c :: rest => lend { s with idleCount := s.idleCount - 1, idle := rest } c rpc

def park (s : Service) (rpc : Nat) (env : Env) : Service :=
  if env.expired then refuse s rpc
  else accept { s with delayReqs := s.delayReqs ++ [rpc] } rpc

/-- `Query` with a connection. -/
def connQuery (s : Service) (c rpc : Nat) (env : Env) : Service :=
  match (s.conns c).query rpc env with
  | none => crash s
  | some (ret, conn) =>
      if ret = 0 then accept (setConn s c conn) rpc
      else push (refuse (setConn s c conn) rpc) (.returnIdle c .query)

def execDelayReqCallback (s : Service) (c rpc : Nat) (env : Env) : Service :=
  match (s.conns c).query rpc env with
  | none => crash s
  | some (ret, conn) =>
      if ret = 0 then setConn s c conn else push (setConn s c conn) (.execFailed c rpc)

/-- The connection is cleared without its mutex. -/
def execFailed (s : Service) (c rpc : Nat) : Service :=
  push (callback (setConn s c { s.conns c with rpc := none }) (some rpc)) (.returnIdle c .query)

/-- The section of `Reset`, and the callback that follows. -/
def reset (s : Service) (c : Nat) (caller : Caller) : Service :=
  push (callback (setConn s c (s.conns c).reset) (s.conns c).rpc) (.returnIdle c caller)

/-- What follows `ReturnIdleConn`. -/
def returned (s : Service) (c : Nat) : Caller → Service
  | .event => s
  | .query => s
  | .close conns => push s (.close c conns)

/-- The first section of `ReturnIdleConn`; an iterator to a list that was cleared must not be
used. -/
def returnIdle (s : Service) (c : Nat) (caller : Caller) : Service :=
  if (s.conns c).iter = false then returned s c caller
  else if c ∈ s.busy then
    match s.inited, s.delayReqs with
    | true, rpc :: rest => push { s with delayReqs := rest } (.handOver c rpc caller)
    | _, _ => push s (.putIdle c caller)
  else crash s

/-- The second section; `erase` needs an iterator into the list. -/
def putIdle (s : Service) (c : Nat) (caller : Caller) : Service :=
  let s :=
    { s with
      busyCount := s.busyCount - 1
      idleCount := s.idleCount + 1
      idle := s.idle ++ [c] }
  if (s.conns c).iter = true ∧ c ∈ s.busy then
    returned (setConn { s with busy := s.busy.erase c } c { s.conns c with iter := false }) c caller
  else crash s

def handOver (s : Service) (c rpc : Nat) (caller : Caller) (env : Env) : Service :=
  if env.expired then push (callback s (some rpc)) (.putIdle c caller)
  else if env.posted then returned { s with tasks := (c, rpc) :: s.tasks } c caller
  else returned s c caller

/-- The loop of `Uninit`; after it the lists are cleared. -/
def uninit (s : Service) : List Nat → Service
  | [] => { s with idle := [], busy := [] }
  | c :: rest => reset s c (.close rest)

def startUninit (s : Service) : Service :=
  if s.inited = false then s
  else push { s with inited := false } (.uninit (s.busy ++ s.idle))

/-- `OnClosed` compares the identifiers in a section of its own. -/
def onClosed (s : Service) (c ioId : Nat) : Service :=
  if ioId = (s.conns c).ioId then push s (.reset c) else s

def onOpened (s : Service) (c ioId : Nat) (sent : Bool) : Service :=
  let opened := (s.conns c).onOpened ioId sent
  if opened.2 then push (setConn s c opened.1) (.reset c) else setConn s c opened.1

/-- `short` is `short_connect_`. -/
def processMsg (short : Bool) (s : Service) (c ioId : Nat) (eofOrError : Bool) : Service :=
  let conn := s.conns c
  let success := ioId = conn.ioId ∧ conn.status = .sending ∧ conn.rpc ≠ none
  if conn.timerId = 0 then setConn s c conn.dropIo
  else
    let s := callback
      (setConn s c { conn with status := .connected, rpc := none, timerId := 0 }) conn.rpc
    if short = true ∨ eofOrError = true ∨ ¬ success then push s (.dropIo c)
    else push s (.returnIdle c .event)

def onTimer (s : Service) (c : Nat) (id : Int) : Service :=
  if (s.conns c).timerId ≠ id then s
  else push (setConn s c { s.conns c with timerId := 0 }) (.reset c)

/-! ## Steps -/

/-- The next section of a call, which is not among the calls of `s`. -/
def advance (s : Service) (env : Env) : Call → Service
  | .getIdleConn rpc => getIdleConn s rpc env
  | .noConn rpc => if s.inited then push s (.noConnInited rpc) else refuse s rpc
  | .noConnInited rpc => if s.inited then push s (.park rpc) else crash s
  | .park rpc => park s rpc env
  | .connQuery c rpc => connQuery s c rpc env
  | .reset c => reset s c .event
  | .dropIo c => push (setConn s c (s.conns c).dropIo) (.returnIdle c .event)
  | .returnIdle c caller => returnIdle s c caller
  | .putIdle c caller => putIdle s c caller
  | .handOver c rpc caller => handOver s c rpc caller env
  | .execFailed c rpc => execFailed s c rpc
  | .uninit conns => uninit s conns
  | .close c conns =>
      push (setConn s c { s.conns c with status := .uninited }) (.uninit conns)

/-- The connections that a call keeps alive. -/
def Call.shares : Call → List Nat
  | .connQuery c _ => [c]
  | .returnIdle c .query => [c]
  | .putIdle c _ => [c]
  | .handOver c _ _ => [c]
  | .execFailed c _ => [c]
  | _ => []

/-- The connection that a call uses without keeping it alive. -/
def Call.self : Call → Option Nat
  | .reset c => some c
  | .dropIo c => some c
  | .returnIdle c .event => some c
  | _ => none

/-- A connection exists while a list, a task or a call has a shared pointer to it. -/
def Alive (s : Service) (c : Nat) : Prop :=
  c ∈ s.idle ++ s.busy ++ s.tasks.map Prod.fst ++ s.calls.flatMap Call.shares

instance (s : Service) (c : Nat) : Decidable (Alive s c) := inferInstanceAs (Decidable (_ ∈ _))

inductive Label where
  | query
  | uninit
  | onOpened (c ioId : Nat) (sent : Bool)
  | onClosed (c ioId : Nat)
  | processMsg (c ioId : Nat) (eofOrError : Bool)
  | onTimer (c : Nat) (id : Int)
  /-- The task with this number is executed. -/
  | task (i : Nat) (env : Env)
  /-- The call with this number takes its next step. -/
  | advance (i : Nat) (env : Env)
  deriving DecidableEq

/-- An event of a connection. -/
def event (s : Service) (c : Nat) (handled : Service) : Option Service :=
  if s.nextConnId ≤ c then none else if Alive s c then some handled else some (crash s)

def handle (short : Bool) (s : Service) : Label → Option Service
  | .query => some (push { s with nextRpc := s.nextRpc + 1 } (.getIdleConn s.nextRpc))
  | .uninit => some (startUninit s)
  | .onOpened c ioId sent => event s c (onOpened s c ioId sent)
  | .onClosed c ioId => event s c (onClosed s c ioId)
  | .processMsg c ioId eofOrError => event s c (processMsg short s c ioId eofOrError)
  | .onTimer c id => event s c (onTimer s c id)
  | .task i env =>
      s.tasks[i]?.map fun (c, rpc) =>
        execDelayReqCallback { s with tasks := s.tasks.eraseIdx i } c rpc env
  | .advance i env =>
      s.calls[i]?.map fun call =>
        if ∀ c ∈ call.self, Alive s c then
          advance { s with calls := s.calls.eraseIdx i } env call
        else crash s

/-- Nothing runs after undefined behaviour. -/
def step (short : Bool) (s : Service) (label : Label) : Option Service :=
  if s.crashed then none else handle short s label

/-! ## What is wanted -/

/-- A request is answered once, and every connection is in one list. -/
structure Sound (s : Service) : Prop where
  once : ∀ rpc ∈ s.accepted, s.called.count rpc ≤ 1
  answered : s.inited = false → s.calls = [] → s.tasks = [] →
    ∀ rpc ∈ s.accepted, s.called.count rpc = 1
  listed : s.inited = true → Accounted s.nextConnId (s.idle ++ s.busy)
  counted : s.inited = true → s.idleCount + s.busyCount = s.nextConnId ∧
    s.idleCount = s.idle.length ∧ s.busyCount = s.busy.length

/-- The connections that `Uninit` has still to reset. -/
def Call.toReset : Call → List Nat
  | .returnIdle _ (.close conns) => conns
  | .putIdle _ (.close conns) => conns
  | .handOver _ _ (.close conns) => conns
  | .uninit conns => conns
  | .close _ conns => conns
  | _ => []

def toReset (s : Service) : List Nat := s.calls.flatMap Call.toReset

/-- Whether a connection connects and sends. -/
def Status.sends (env : Env) : Status → Bool
  | .closed => decide (env.connect = 1) || decide (env.connect = 0) && env.sent
  | .connected => env.sent
  | _ => false

/-- A query finds no request on its connection, and sends its own before `Uninit` has reset the
connection. -/
def MayQuery (s : Service) (c : Nat) (env : Env) : Prop :=
  (s.conns c).rpc = none ∧
    (env.expired = false → (s.conns c).status.sends env = true → s.inited = true ∨ c ∈ toReset s)

/-- `Uninit` does not come between the reads of `inited_`; a connection exists when it is used, and
is still lent when it goes back to the idle ones; the task of a parked request is queued, and nobody
else uses the connection that a failed task clears. -/
def AllowedCall (s : Service) (env : Env) : Call → Prop
  | .noConnInited _ => s.inited = true
  | .park _ => env.expired = true ∨ s.inited = true
  | .connQuery c _ => MayQuery s c env
  | .reset c => Alive s c
  | .dropIo c => Alive s c
  | .returnIdle c .event => Alive s c
  | .putIdle c _ => c ∈ s.busy
  | .handOver _ _ _ => env.expired = true ∨ env.posted = true
  | .execFailed c _ => (s.conns c).rpc = none
  | _ => True

/-- Also, no request is parked when `Uninit` begins. -/
def Allowed (s : Service) : Label → Prop
  | .query => True
  | .uninit => s.inited = true → s.delayReqs = []
  | .onOpened c _ _ => Alive s c
  | .onClosed c _ => Alive s c
  | .processMsg c _ _ => Alive s c
  | .onTimer c _ => Alive s c
  | .task i env => ∀ task ∈ s.tasks[i]?, MayQuery s task.1 env
  | .advance i env => ∀ call ∈ s.calls[i]?, AllowedCall s env call

instance (s : Service) (c : Nat) (env : Env) : Decidable (MayQuery s c env) :=
  inferInstanceAs (Decidable (_ ∧ _))

instance decidableAllowedCall (s : Service) (env : Env) : ∀ call, Decidable (AllowedCall s env call)
  | .getIdleConn _ => isTrue trivial
  | .noConn _ => isTrue trivial
  | .noConnInited _ => inferInstanceAs (Decidable (_ = true))
  | .park _ => inferInstanceAs (Decidable (_ ∨ _))
  | .connQuery c _ => inferInstanceAs (Decidable (MayQuery s c env))
  | .reset c => inferInstanceAs (Decidable (Alive s c))
  | .dropIo c => inferInstanceAs (Decidable (Alive s c))
  | .returnIdle c .event => inferInstanceAs (Decidable (Alive s c))
  | .returnIdle _ .query => isTrue trivial
  | .returnIdle _ (.close _) => isTrue trivial
  | .putIdle _ _ => inferInstanceAs (Decidable (_ ∈ _))
  | .handOver _ _ _ => inferInstanceAs (Decidable (_ ∨ _))
  | .execFailed _ _ => inferInstanceAs (Decidable (_ = none))
  | .uninit _ => isTrue trivial
  | .close _ _ => isTrue trivial

instance decidableAllowed (s : Service) : ∀ label, Decidable (Allowed s label)
  | .query => isTrue trivial
  | .uninit => inferInstanceAs (Decidable (_ → _))
  | .onOpened c _ _ => inferInstanceAs (Decidable (Alive s c))
  | .onClosed c _ => inferInstanceAs (Decidable (Alive s c))
  | .processMsg c _ _ => inferInstanceAs (Decidable (Alive s c))
  | .onTimer c _ => inferInstanceAs (Decidable (Alive s c))
  | .task i _ => inferInstanceAs (Decidable (∀ task ∈ s.tasks[i]?, _))
  | .advance i _ => inferInstanceAs (Decidable (∀ call ∈ s.calls[i]?, _))

/-! ## The invariant -/

/-- What a call has to do: its request, the request whose `Query` has not returned, the connection
that it is going to query, the connections that `Uninit` has still to reset and to take back, and
whether the call is that of `Uninit`. -/
structure Load where
  rpcs : List Nat := []
  asks : List Nat := []
  lends : List Nat := []
  resets : List Nat := []
  returns : List Nat := []
  uninits : Nat := 0

/-- The load of a call that gives a connection back. -/
def Caller.load (c : Nat) : Caller → Load
  | .close conns => { resets := conns, returns := c :: conns, uninits := 1 }
  | _ => {}

def Call.load : Call → Load
  | .getIdleConn rpc => { rpcs := [rpc], asks := [rpc] }
  | .noConn rpc => { rpcs := [rpc], asks := [rpc] }
  | .noConnInited rpc => { rpcs := [rpc], asks := [rpc] }
  | .park rpc => { rpcs := [rpc], asks := [rpc] }
  | .connQuery c rpc => { rpcs := [rpc], asks := [rpc], lends := [c] }
  | .reset _ => {}
  | .dropIo _ => {}
  | .returnIdle c caller => caller.load c
  | .putIdle c caller => caller.load c
  | .handOver c rpc caller => { caller.load c with rpcs := [rpc], lends := [c] }
  | .execFailed _ rpc => { rpcs := [rpc] }
  | .uninit conns => { resets := conns, returns := conns, uninits := 1 }
  | .close _ conns => { resets := conns, returns := conns, uninits := 1 }

/-- `ReturnIdleConn` finds no parked request after `Uninit` has begun. -/
def Call.Own : Call → Prop
  | .handOver c _ caller => caller.load c = {}
  | _ => True

def total (s : Service) (part : Load → List Nat) : List Nat :=
  s.calls.flatMap fun call => part call.load

def held (s : Service) (c : Nat) : Option Nat := (s.conns c).rpc

/-- The requests that no connection holds. -/
def records (s : Service) : List Nat :=
  s.called ++ s.refused ++ s.delayReqs ++ s.tasks.map Prod.snd ++ total s Load.rpcs

/-- `hand` are the requests that the step in work holds. -/
structure Inv (hand : List Nat) (s : Service) : Prop where
  crashed : s.crashed = false
  placed : Placed s.nextRpc (hand ++ records s) (held s)
  accepted : ∀ rpc ∈ s.accepted, rpc < s.nextRpc ∧ rpc ∉ s.refused ∧ rpc ∉ total s Load.asks
  own : ∀ call ∈ s.calls, call.Own
  nodup : s.busy.Nodup
  iter : ∀ c, (s.conns c).iter = true ↔ c ∈ s.busy
  ioId : ∀ c, (s.conns c).status = .closed → (s.conns c).ioId = 0
  listed : s.inited = true → Accounted s.nextConnId (s.idle ++ s.busy) ∧
    s.idleCount = s.idle.length ∧ s.busyCount = s.busy.length
  lends : ∀ c ∈ s.tasks.map Prod.fst ++ total s Load.lends, c < s.nextConnId
  holders : ∀ c, held s c ≠ none → c < s.nextConnId
  uninits : (s.calls.map fun call => call.load.uninits).sum ≤ if s.inited then 0 else 1
  parked : s.inited = false → s.delayReqs = []
  resets : s.inited = false → ∀ c, held s c ≠ none → c ∈ total s Load.resets
  returns : s.inited = false → ∀ c ∈ s.busy, c ∈ total s Load.returns

section Calls

variable {s : Service} {hand rpcs asks lends : List Nat} {call call' : Call} {c rpc : Nat}
  {conn : TokenlessConn} {caller : Caller} {env : Env}

theorem load_resets (call : Call) : call.load.resets = call.toReset := by
  cases call with
  | returnIdle c caller => cases caller <;> rfl
  | putIdle c caller => cases caller <;> rfl
  | handOver c rpc caller => cases caller <;> rfl
  | _ => rfl

theorem total_resets (s : Service) : total s Load.resets = toReset s := by
  simp only [total, toReset, load_resets]

theorem asks_subset (call : Call) : call.load.asks ⊆ call.load.rpcs := by
  cases call with
  | returnIdle c caller => cases caller <;> exact List.nil_subset _
  | putIdle c caller => cases caller <;> exact List.nil_subset _
  | handOver c rpc caller => cases caller <;> exact List.nil_subset _
  | _ => simp [Call.load]

theorem total_push (part : Load → List Nat) :
    total (push s call) part = part call.load ++ total s part := List.flatMap_cons

theorem count_records (s : Service) (rpc : Nat) : (records s).count rpc =
    s.called.count rpc + s.refused.count rpc + s.delayReqs.count rpc +
      (s.tasks.map Prod.snd).count rpc + (total s Load.rpcs).count rpc := by
  simp only [records, List.count_append]

theorem count_records_push (rpc : Nat) :
    (records (push s call)).count rpc = (records s).count rpc + call.load.rpcs.count rpc := by
  rw [count_records, count_records, total_push, List.count_append]
  simp only [push]
  omega

/-- Requests move between the places outside of the connections. -/
theorem Inv.move {s' : Service} {hand' : List Nat} (inv : Inv hand s)
    (moved : ∀ rpc, hand.count rpc + (records s).count rpc =
      hand'.count rpc + (records s').count rpc) :
    Placed s.nextRpc (hand' ++ records s') (held s) := by
  refine inv.placed.perm (List.perm_iff_count.mpr fun rpc => ?_)
  rw [List.count_append, List.count_append]
  exact moved rpc

/-- The order of the calls does not matter. -/
theorem Inv.perm {calls : List Call} (inv : Inv hand s) (same : calls.Perm s.calls) :
    Inv hand { s with calls := calls } := by
  have totals : ∀ part, (total { s with calls := calls } part).Perm (total s part) := fun part =>
    same.flatMap_right fun call : Call => part call.load
  exact
    { inv with
      placed := inv.move fun rpc => by
        rw [count_records, count_records, (totals Load.rpcs).count_eq]
      accepted := by
        intro rpc member
        obtain ⟨old, notRefused, notAsked⟩ := inv.accepted rpc member
        exact ⟨old, notRefused, fun asked => notAsked ((totals Load.asks).mem_iff.mp asked)⟩
      own := fun call member => inv.own call (same.mem_iff.mp member)
      lends := by
        intro c member
        refine inv.lends c ?_
        rcases List.mem_append.mp member with posted | queried
        · exact List.mem_append_left _ posted
        · exact List.mem_append_right _ ((totals Load.lends).mem_iff.mp queried)
      uninits := by
        rw [(same.map fun call => call.load.uninits).sum_eq]
        exact inv.uninits
      resets := fun closing c holds =>
        (totals Load.resets).mem_iff.mpr (inv.resets closing c holds)
      returns := fun closing c member =>
        (totals Load.returns).mem_iff.mpr (inv.returns closing c member) }

/-! ### Calls -/

theorem Inv.others (inv : Inv hand (push s call)) : ∀ other ∈ s.calls, other.Own :=
  fun other member => inv.own other (List.mem_cons_of_mem call member)

theorem Inv.uninits_push (inv : Inv hand (push s call)) :
    call.load.uninits + (s.calls.map fun call => call.load.uninits).sum ≤
      if s.inited then 0 else 1 := inv.uninits

/-- A call goes on with the same load. -/
theorem Inv.goOn (inv : Inv hand (push s call)) (same : call'.load = call.load)
    (own : call'.Own) : Inv hand (push s call') := by
  have totals : ∀ part, total (push s call') part = total (push s call) part := fun part => by
    rw [total_push, total_push, same]
  exact
    { inv with
      placed := inv.move fun rpc => by rw [count_records_push, count_records_push, same]
      accepted := by rw [totals]; exact inv.accepted
      own := List.forall_mem_cons.mpr ⟨own, inv.others⟩
      lends := by rw [totals]; exact inv.lends
      uninits := by
        simp only [push, List.map_cons, List.sum_cons, same]
        exact inv.uninits_push
      resets := by rw [totals]; exact inv.resets
      returns := by rw [totals]; exact inv.returns }

/-- The step takes over what a call had to do for a request. -/
theorem Inv.take (inv : Inv [] (push s call)) (isRpcs : call.load.rpcs = rpcs)
    (noResets : call.load.resets = []) (noReturns : call.load.returns = []) : Inv rpcs s :=
  { inv with
    placed := inv.move fun rpc => by
      rw [count_records_push, isRpcs, List.count_nil]
      omega
    accepted := by
      intro rpc member
      obtain ⟨old, notRefused, notAsked⟩ := inv.accepted rpc member
      rw [total_push] at notAsked
      exact ⟨old, notRefused, fun asked => notAsked (List.mem_append_right _ asked)⟩
    own := inv.others
    lends := by
      intro c member
      refine inv.lends c ?_
      rw [total_push]
      rcases List.mem_append.mp member with posted | queried
      · exact List.mem_append_left _ posted
      · exact List.mem_append_right _ (List.mem_append_right _ queried)
    uninits := (Nat.le_add_left ..).trans inv.uninits_push
    resets := by
      intro closing c holds
      have waits := inv.resets closing c holds
      rw [total_push, noResets] at waits
      exact waits
    returns := by
      intro closing c member
      have waits := inv.returns closing c member
      rw [total_push, noReturns] at waits
      exact waits }

/-- A call without a load ends. -/
theorem Inv.drop (inv : Inv [] (push s call)) (free : call.load = {}) : Inv [] s :=
  inv.take (by rw [free]) (by rw [free]) (by rw [free])

/-- A call begins with what the step has in hand. -/
theorem Inv.give (inv : Inv rpcs s)
    (isLoad : call.load = { rpcs := rpcs, asks := asks, lends := lends }) (own : call.Own)
    (unknown : ∀ rpc ∈ asks, rpc ∉ s.accepted) (old : ∀ c ∈ lends, c < s.nextConnId) :
    Inv [] (push s call) :=
  { inv with
    placed := inv.move fun rpc => by
      simp only [count_records_push, isLoad, List.count_nil]
      omega
    accepted := by
      intro rpc member
      obtain ⟨oldRpc, notRefused, notAsked⟩ := inv.accepted rpc member
      refine ⟨oldRpc, notRefused, fun asked => ?_⟩
      rw [total_push, isLoad] at asked
      rcases List.mem_append.mp asked with isAsked | asked
      · exact unknown rpc isAsked member
      · exact notAsked asked
    own := List.forall_mem_cons.mpr ⟨own, inv.own⟩
    lends := by
      intro c member
      rw [total_push, isLoad] at member
      rcases List.mem_append.mp member with posted | queried
      · exact inv.lends c (List.mem_append_left _ posted)
      · rcases List.mem_append.mp queried with first | queried
        · exact old c first
        · exact inv.lends c (List.mem_append_right _ queried)
    uninits := by
      simp only [push, List.map_cons, List.sum_cons, isLoad, zero_add]
      exact inv.uninits
    resets := by
      intro closing c holds
      rw [total_push]
      exact List.mem_append_right _ (inv.resets closing c holds)
    returns := by
      intro closing c member
      rw [total_push]
      exact List.mem_append_right _ (inv.returns closing c member) }

/-- A call without a load begins. -/
theorem Inv.start (inv : Inv [] s) (free : call.load = {}) (own : call.Own) :
    Inv [] (push s call) := inv.give free own nofun nofun

/-- The request of a call that asks was not accepted. -/
theorem Inv.unknown (inv : Inv hand (push s call)) (asked : rpc ∈ call.load.asks) :
    rpc ∉ s.accepted := by
  intro member
  refine (inv.accepted rpc member).2.2 ?_
  rw [total_push]
  exact List.mem_append_left _ asked

/-! ### Requests -/

theorem Inv.callback {rpc : Option Nat} (inv : Inv rpc.toList s) : Inv [] (callback s rpc) :=
  { inv with
    placed := inv.move fun r => by
      rw [count_records, count_records, List.count_nil]
      simp only [TokenlessService.callback, List.count_append, total]
      omega }

theorem Inv.refuse (inv : Inv [rpc] s) (unknown : rpc ∉ s.accepted) : Inv [] (refuse s rpc) :=
  { inv with
    placed := inv.move fun r => by
      rw [count_records, count_records, List.count_nil, List.count_singleton]
      simp only [TokenlessService.refuse, List.count_cons, total]
      omega
    accepted := by
      intro r member
      obtain ⟨old, notRefused, notAsked⟩ := inv.accepted r member
      refine ⟨old, fun refused => ?_, notAsked⟩
      rcases List.mem_cons.mp refused with rfl | refused
      · exact unknown member
      · exact notRefused refused }

/-- A request in hand is not refused, and no call asks for it. -/
theorem Inv.inHand (inv : Inv [rpc] s) :
    rpc < s.nextRpc ∧ rpc ∉ s.refused ∧ rpc ∉ total s Load.asks := by
  have apart : rpc ∉ records s := (List.nodup_cons.mp inv.placed.once).1
  have notCounted := List.count_eq_zero.mpr apart
  rw [count_records] at notCounted
  have notRefused : rpc ∉ s.refused := List.count_eq_zero.mp (by omega)
  refine ⟨inv.placed.old rpc List.mem_cons_self, notRefused, fun asked => ?_⟩
  obtain ⟨call, member, asks⟩ := List.mem_flatMap.mp asked
  have placed : rpc ∈ total s Load.rpcs :=
    List.mem_flatMap.mpr ⟨call, member, asks_subset call asks⟩
  have := List.count_pos_iff.mpr placed
  omega

theorem Inv.accept (inv : Inv hand s)
    (known : rpc < s.nextRpc ∧ rpc ∉ s.refused ∧ rpc ∉ total s Load.asks) :
    Inv hand (accept s rpc) :=
  { inv with accepted := List.forall_mem_cons.mpr ⟨known, inv.accepted⟩ }

theorem Inv.delay (inv : Inv [rpc] s) (inited : s.inited = true) :
    Inv [] { s with delayReqs := s.delayReqs ++ [rpc] } :=
  { inv with
    placed := inv.move fun r => by
      rw [count_records, count_records, List.count_nil, List.count_singleton]
      simp only [List.count_append, List.count_singleton, total]
      omega
    parked := fun closing => absurd (inited.symm.trans closing) (by decide) }

theorem Inv.undelay {rest : List Nat} (inv : Inv [] s) (first : s.delayReqs = rpc :: rest) :
    Inv [rpc] { s with delayReqs := rest } :=
  { inv with
    placed := inv.move fun r => by
      rw [count_records, count_records, first, List.count_nil, List.count_singleton]
      simp only [List.count_cons, total]
      omega
    parked := fun closing => absurd (first.symm.trans (inv.parked closing)) (by simp) }

theorem Inv.post (inv : Inv [rpc] s) (old : c < s.nextConnId) :
    Inv [] { s with tasks := (c, rpc) :: s.tasks } :=
  { inv with
    placed := inv.move fun r => by
      rw [count_records, count_records, List.count_nil, List.count_singleton]
      simp only [List.map_cons, List.count_cons, total]
      omega
    lends := by
      intro d member
      rcases List.mem_cons.mp member with rfl | member
      · exact old
      · exact inv.lends d member }

theorem Inv.unpost {i : Nat} (inv : Inv [] s) (atIndex : s.tasks[i]? = some (c, rpc)) :
    Inv [rpc] { s with tasks := s.tasks.eraseIdx i } ∧ c < s.nextConnId := by
  have others := perm_cons_eraseIdx atIndex
  refine ⟨?_, ?_⟩
  · exact
      { inv with
        placed := inv.move fun r => by
          rw [count_records, count_records, (others.map Prod.snd).count_eq, List.count_nil,
            List.count_singleton]
          simp only [List.map_cons, List.count_cons, total]
          omega
        lends := by
          intro d member
          refine inv.lends d ?_
          rcases List.mem_append.mp member with posted | queried
          · refine List.mem_append_left _ ?_
            exact (others.map Prod.fst).mem_iff.mpr (List.mem_cons_of_mem _ posted)
          · exact List.mem_append_right _ queried }
  · refine inv.lends c (List.mem_append_left _ ?_)
    exact (others.map Prod.fst).mem_iff.mpr List.mem_cons_self

/-- A new request. -/
theorem Inv.create (inv : Inv [] s) : Inv [s.nextRpc] { s with nextRpc := s.nextRpc + 1 } :=
  { inv with
    placed := inv.placed.record
    accepted := fun rpc member => (inv.accepted rpc member).imp_left Nat.lt_succ_of_lt }

/-! ### Connections -/

@[simp] theorem setConn_self (s : Service) (c : Nat) (conn : TokenlessConn) :
    (setConn s c conn).conns c = conn := Function.update_self ..

theorem setConn_of_ne {d : Nat} (other : d ≠ c) : (setConn s c conn).conns d = s.conns d :=
  Function.update_of_ne other ..

theorem held_setConn (s : Service) (c : Nat) (conn : TokenlessConn) :
    held (setConn s c conn) = Function.update (held s) c conn.rpc := by
  funext d
  by_cases same : d = c
  · rw [same, Function.update_self, held, setConn_self]
  · rw [Function.update_of_ne same, held, setConn_of_ne same, held]

theorem held_same (same : conn.rpc = (s.conns c).rpc) : held (setConn s c conn) = held s := by
  rw [held_setConn, same]
  exact Function.update_eq_self c (held s)

theorem Inv.iter_setConn (inv : Inv hand s) (iter : conn.iter = (s.conns c).iter) (d : Nat) :
    ((setConn s c conn).conns d).iter = true ↔ d ∈ s.busy := by
  by_cases same : d = c
  · rw [same, setConn_self, iter]
    exact inv.iter c
  · rw [setConn_of_ne same]
    exact inv.iter d

theorem Inv.ioId_setConn (inv : Inv hand s) (ioId : conn.status = .closed → conn.ioId = 0)
    (d : Nat) :
    ((setConn s c conn).conns d).status = .closed → ((setConn s c conn).conns d).ioId = 0 := by
  by_cases same : d = c
  · rw [same, setConn_self]
    exact ioId
  · rw [setConn_of_ne same]
    exact inv.ioId d

/-- A connection changes, but not its request and not the list that it is in. -/
theorem Inv.change (inv : Inv hand s) (rpc : conn.rpc = (s.conns c).rpc)
    (iter : conn.iter = (s.conns c).iter) (ioId : conn.status = .closed → conn.ioId = 0) :
    Inv hand (setConn s c conn) :=
  { inv with
    placed := by rw [held_same rpc]; exact inv.placed
    iter := inv.iter_setConn iter
    ioId := inv.ioId_setConn ioId
    holders := by rw [held_same rpc]; exact inv.holders
    resets := by rw [held_same rpc]; exact inv.resets }

/-- A connection goes from one list to the other one. -/
theorem Inv.relist {idle busy : List Nat} {idleCount busyCount : Int} {iter : Bool}
    (inv : Inv hand s) (nodup : busy.Nodup) (isIter : iter = true ↔ c ∈ busy)
    (others : ∀ d, d ≠ c → (d ∈ busy ↔ d ∈ s.busy))
    (listed : s.inited = true → (idle ++ busy).Perm (s.idle ++ s.busy) ∧
      idleCount = idle.length ∧ busyCount = busy.length)
    (lends : c ∈ busy → s.inited = true) :
    Inv hand (setConn
      { s with idle := idle, idleCount := idleCount, busy := busy, busyCount := busyCount } c
      { s.conns c with iter := iter }) := by
  have same : held (setConn s c { s.conns c with iter := iter }) = held s := held_same rfl
  have placed := inv.placed
  have holders := inv.holders
  have resets := inv.resets
  rw [← same] at placed holders resets
  exact
    { inv with
      placed := placed
      nodup := nodup
      iter := by
        intro d
        by_cases isConn : d = c
        · rw [isConn, setConn_self]
          exact isIter
        · rw [setConn_of_ne isConn]
          exact (inv.iter d).trans (others d isConn).symm
      ioId := inv.ioId_setConn (inv.ioId c)
      listed := by
        intro inited
        obtain ⟨moved, counts⟩ := listed inited
        exact ⟨(inv.listed inited).1.move moved, counts⟩
      holders := holders
      resets := resets
      returns := by
        intro closing d member
        by_cases isConn : d = c
        · exact absurd ((lends (isConn ▸ member)).symm.trans closing) (by decide)
        · exact inv.returns closing d ((others d isConn).mp member) }

/-- The request of a connection is taken from it. -/
theorem Inv.free (inv : Inv [] s) (free : conn.rpc = none) (iter : conn.iter = (s.conns c).iter)
    (ioId : conn.status = .closed → conn.ioId = 0) :
    Inv (s.conns c).rpc.toList (setConn s c conn) := by
  cases isRpc : (s.conns c).rpc with
  | none => exact inv.change (free.trans isRpc.symm) iter ioId
  | some rpc =>
      have fewer : ∀ d, held (setConn s c conn) d ≠ none → held s d ≠ none := by
        intro d holds none'
        rw [held_setConn, free] at holds
        by_cases same : d = c
        · exact holds (by rw [same, Function.update_self])
        · exact holds (by rw [Function.update_of_ne same, none'])
      exact
        { inv with
          placed := by
            have moved := inv.placed.putDown isRpc
            rw [← free, ← held_setConn] at moved
            exact moved
          iter := inv.iter_setConn iter
          ioId := inv.ioId_setConn ioId
          holders := fun d holds => inv.holders d (fewer d holds)
          resets := fun closing d holds => inv.resets closing d (fewer d holds) }

/-- A connection gets the request in hand. -/
theorem Inv.hold (inv : Inv [rpc] s) (free : (s.conns c).rpc = none) (holds : conn.rpc = some rpc)
    (iter : conn.iter = (s.conns c).iter) (ioId : conn.status = .closed → conn.ioId = 0)
    (old : c < s.nextConnId) (waits : s.inited = false → c ∈ total s Load.resets) :
    Inv [] (setConn s c conn) := by
  have others : ∀ d, d ≠ c → held (setConn s c conn) d = held s d := by
    intro d other
    rw [held_setConn, Function.update_of_ne other]
  exact
    { inv with
      placed := by
        have moved := inv.placed.pickUp free
        rw [← holds, ← held_setConn] at moved
        exact moved
      iter := inv.iter_setConn iter
      ioId := inv.ioId_setConn ioId
      holders := by
        intro d holds
        by_cases same : d = c
        · exact same ▸ old
        · exact inv.holders d (others d same ▸ holds)
      resets := by
        intro closing d holds
        by_cases same : d = c
        · exact same ▸ waits closing
        · exact inv.resets closing d (others d same ▸ holds) }

/-! ### Sections -/

/-- What a query makes of a connection without a request. -/
theorem query_cases (conn : TokenlessConn) (rpc : Nat) (env : Env) (free : conn.rpc = none)
    (ioId : conn.status = .closed → conn.ioId = 0) :
    ∃ ret conn', conn.query rpc env = some (ret, conn') ∧ conn'.iter = conn.iter ∧
      (conn'.status = .closed → conn'.ioId = 0) ∧
      (ret = 0 ∧ conn'.rpc = some rpc ∧ env.expired = false ∧ conn.status.sends env = true ∨
        ret ≠ 0 ∧ conn'.rpc = none) := by
  unfold TokenlessConn.query
  rw [if_neg (not_not.mpr free)]
  by_cases expired : env.expired = true
  · rw [if_pos expired]
    exact ⟨-100, conn, rfl, rfl, ioId, Or.inr ⟨by decide, free⟩⟩
  rw [if_neg expired]
  have inTime : env.expired = false := by simpa using expired
  have fails : ∀ conn' : TokenlessConn, conn'.iter = conn.iter →
      ∃ ret conn'', some conn'.queryFailed = some (ret, conn'') ∧ conn''.iter = conn.iter ∧
        (conn''.status = .closed → conn''.ioId = 0) ∧
        (ret = 0 ∧ conn''.rpc = some rpc ∧ env.expired = false ∧ conn.status.sends env = true ∨
          ret ≠ 0 ∧ conn''.rpc = none) :=
    fun conn' iter => ⟨-1, _, rfl, iter, fun _ => rfl, Or.inr ⟨by decide, rfl⟩⟩
  cases isStatus : conn.status with
  | closed =>
      simp only
      rw [if_neg (not_not.mpr (ioId isStatus))]
      by_cases connecting : env.connect = 1
      · rw [if_pos connecting]
        exact ⟨0, _, rfl, rfl, nofun, Or.inl ⟨rfl, rfl, inTime, by simp [Status.sends, connecting]⟩⟩
      rw [if_neg connecting]
      rw [isStatus] at fails
      by_cases connected : env.connect = 0
      · rw [if_pos connected, TokenlessConn.sendRequest]
        by_cases sent : env.sent = true
        · rw [if_pos sent]
          refine ⟨0, _, rfl, rfl, nofun, Or.inl ⟨rfl, rfl, inTime, ?_⟩⟩
          simp [Status.sends, connected, sent]
        · rw [if_neg sent]
          exact fails _ rfl
      · rw [if_neg connected]
        exact fails _ rfl
  | connected =>
      simp only
      rw [TokenlessConn.sendRequest]
      rw [isStatus] at fails
      by_cases sent : env.sent = true
      · rw [if_pos sent]
        exact ⟨0, _, rfl, rfl, nofun, Or.inl ⟨rfl, rfl, inTime, sent⟩⟩
      · rw [if_neg sent]
        exact fails _ rfl
  | connecting =>
      rw [isStatus] at fails
      exact fails _ rfl
  | sending =>
      rw [isStatus] at fails
      exact fails _ rfl
  | uninited =>
      rw [isStatus] at fails
      exact fails _ rfl

/-- A query with the request in hand: the connection gets it, or it stays in hand. -/
theorem query_inv (inv : Inv [rpc] s) (may : MayQuery s c env) (old : c < s.nextConnId) :
    ∃ ret conn, (s.conns c).query rpc env = some (ret, conn) ∧
      (ret = 0 ∧ Inv [] (setConn s c conn) ∨ ret ≠ 0 ∧ Inv [rpc] (setConn s c conn)) := by
  obtain ⟨ret, conn, queried, iter, ioId, result⟩ :=
    query_cases (s.conns c) rpc env may.1 (inv.ioId c)
  refine ⟨ret, conn, queried, ?_⟩
  rcases result with ⟨isZero, holds, inTime, sends⟩ | ⟨failed, free⟩
  · refine Or.inl ⟨isZero, inv.hold may.1 holds iter ioId old fun closing => ?_⟩
    rw [total_resets]
    refine (may.2 inTime sends).resolve_left fun inited => ?_
    exact absurd (closing.symm.trans inited) (by decide)
  · exact Or.inr ⟨failed, inv.change (free.trans may.1.symm) iter ioId⟩

theorem connQuery_inv (inv : Inv [] (push s (.connQuery c rpc))) (may : MayQuery s c env) :
    Inv [] (connQuery s c rpc env) := by
  have unknown : rpc ∉ s.accepted := inv.unknown List.mem_cons_self
  have old : c < s.nextConnId := inv.lends c (List.mem_append_right _ List.mem_cons_self)
  have taken : Inv [rpc] s := inv.take rfl rfl rfl
  obtain ⟨ret, conn, queried, result⟩ := query_inv taken may old
  rw [connQuery, queried]
  rcases result with ⟨rfl, done⟩ | ⟨failed, inHand⟩
  · exact done.accept taken.inHand
  · simp only [if_neg failed]
    exact (inHand.refuse unknown).start rfl trivial

theorem execDelayReqCallback_inv (inv : Inv [rpc] s) (may : MayQuery s c env)
    (old : c < s.nextConnId) : Inv [] (execDelayReqCallback s c rpc env) := by
  obtain ⟨ret, conn, queried, result⟩ := query_inv inv may old
  rw [execDelayReqCallback, queried]
  rcases result with ⟨rfl, done⟩ | ⟨failed, inHand⟩
  · exact done
  · simp only [if_neg failed]
    exact inHand.give rfl trivial nofun nofun

theorem execFailed_inv (inv : Inv [] (push s (.execFailed c rpc)))
    (free : (s.conns c).rpc = none) : Inv [] (execFailed s c rpc) := by
  have taken : Inv [rpc] s := inv.take rfl rfl rfl
  have cleared : Inv (some rpc).toList (setConn s c { s.conns c with rpc := none }) :=
    taken.change free.symm rfl (inv.ioId c)
  exact cleared.callback.start rfl trivial

theorem reset_inv (inv : Inv [] s) (isCaller : (Call.returnIdle c caller).load = {}) :
    Inv [] (reset s c caller) := by
  have taken : Inv (s.conns c).rpc.toList (setConn s c (s.conns c).reset) :=
    inv.free rfl rfl fun _ => rfl
  have answered := taken.callback
  exact answered.start isCaller trivial

theorem returned_free (free : caller.load c = {}) : returned s c caller = s := by
  cases caller with
  | event => rfl
  | query => rfl
  | close conns => exact absurd (congrArg Load.uninits free) Nat.one_ne_zero

/-- A connection that is not lent was given back. -/
theorem returned_inv (inv : Inv [] (push s call)) (isLoad : call.load = caller.load c)
    (idle : c ∉ s.busy) : Inv [] (returned s c caller) := by
  cases caller with
  | event => exact inv.drop isLoad
  | query => exact inv.drop isLoad
  | close conns =>
      exact
        { inv with
          placed := inv.move fun rpc => by
            rw [returned, count_records_push, count_records_push, isLoad]
            rfl
          accepted := by
            have := inv.accepted
            rw [total_push, isLoad] at this
            exact this
          own := List.forall_mem_cons.mpr ⟨trivial, inv.others⟩
          lends := by
            have := inv.lends
            rw [total_push, isLoad] at this
            exact this
          uninits := by
            have := inv.uninits_push
            rw [isLoad] at this
            exact this
          resets := by
            have := inv.resets
            rw [total_push, isLoad] at this
            exact this
          returns := by
            intro closing d member
            have waits := inv.returns closing d member
            rw [total_push, isLoad] at waits
            rcases List.mem_cons.mp waits with rfl | waits
            · exact absurd member idle
            · exact waits }

/-- Before `Uninit` no connection is given back by it. -/
theorem caller_free (inv : Inv hand (push s call)) (isLoad : call.load = caller.load c)
    (inited : s.inited = true) : caller.load c = {} := by
  have none' := inv.uninits_push
  rw [inited, if_pos rfl, isLoad] at none'
  cases caller with
  | event => rfl
  | query => rfl
  | close conns => exact absurd ((Nat.le_add_right 1 _).trans none') (by decide)

theorem returnIdle_inv (inv : Inv [] (push s (.returnIdle c caller))) :
    Inv [] (returnIdle s c caller) := by
  unfold returnIdle
  by_cases iter : (s.conns c).iter = true
  · have lent : c ∈ s.busy := (inv.iter c).mp iter
    rw [if_neg (by simp [iter]), if_pos lent]
    split
    · rename_i rpc rest inited first
      have free : caller.load c = {} := caller_free inv rfl inited
      have taken : Inv [] s := inv.drop free
      have isLoad : (Call.handOver c rpc caller).load = { rpcs := [rpc], lends := [c] } := by
        rw [Call.load, free]
      refine (taken.undelay first).give isLoad free nofun fun d member => ?_
      rw [List.mem_singleton.mp member]
      exact (inv.listed inited).1.mem_iff.mp (List.mem_append_right _ lent)
    · exact inv.goOn rfl trivial
  · rw [if_pos (by simpa using iter)]
    exact returned_inv inv rfl fun lent => iter ((inv.iter c).mpr lent)

theorem putIdle_inv (inv : Inv [] (push s (.putIdle c caller))) (lent : c ∈ s.busy) :
    Inv [] (putIdle s c caller) := by
  have isBusy : s.busy.Perm (c :: s.busy.erase c) := List.perm_cons_erase lent
  have left : c ∉ s.busy.erase c := inv.nodup.not_mem_erase
  unfold putIdle
  rw [if_pos ⟨(inv.iter c).mpr lent, lent⟩]
  have apart : ∀ d, d ≠ c → (d ∈ s.busy.erase c ↔ d ∈ s.busy) := fun d other =>
    List.mem_erase_of_ne other
  have listed : s.inited = true →
      (s.idle ++ [c] ++ s.busy.erase c).Perm (s.idle ++ s.busy) ∧
        s.idleCount + 1 = (s.idle ++ [c]).length ∧ s.busyCount - 1 = (s.busy.erase c).length := by
    intro inited
    have counts : s.idleCount = s.idle.length ∧ s.busyCount = s.busy.length :=
      (inv.listed inited).2
    have := isBusy.length_eq
    rw [List.length_cons] at this
    rw [List.append_assoc, List.length_append, List.length_singleton]
    exact ⟨isBusy.symm.append_left s.idle, by omega, by omega⟩
  refine returned_inv (?_ : Inv [] (push _ (.putIdle c caller))) rfl left
  exact inv.relist (inv.nodup.erase c) ⟨nofun, fun member => absurd member left⟩ apart listed
    fun member => absurd member left

theorem handOver_inv (inv : Inv [] (push s (.handOver c rpc caller)))
    (allowed : env.expired = true ∨ env.posted = true) : Inv [] (handOver s c rpc caller env) := by
  have free : caller.load c = {} := inv.own _ List.mem_cons_self
  have isLoad : (Call.handOver c rpc caller).load = { rpcs := [rpc], lends := [c] } := by
    rw [Call.load, free]
  have old : c < s.nextConnId := by
    refine inv.lends c (List.mem_append_right _ ?_)
    rw [total_push, isLoad]
    exact List.mem_cons_self
  have taken : Inv (some rpc).toList s :=
    inv.take (by rw [isLoad]; rfl) (by rw [isLoad]) (by rw [isLoad])
  unfold handOver
  by_cases expired : env.expired = true
  · rw [if_pos expired]
    exact taken.callback.start free trivial
  · rw [if_neg expired, if_pos (allowed.resolve_left expired), returned_free free]
    exact taken.post old

/-- A call that is not the one of `Uninit` has nothing to reset and nothing to take back. -/
theorem load_returns (call : Call) (other : call.load.uninits = 0) : call.load.returns = [] := by
  cases call with
  | returnIdle c caller =>
      cases caller with
      | close conns => exact absurd other Nat.one_ne_zero
      | event => rfl
      | query => rfl
  | putIdle c caller =>
      cases caller with
      | close conns => exact absurd other Nat.one_ne_zero
      | event => rfl
      | query => rfl
  | handOver c rpc caller =>
      cases caller with
      | close conns => exact absurd other Nat.one_ne_zero
      | event => rfl
      | query => rfl
  | uninit conns => exact absurd other Nat.one_ne_zero
  | close c conns => exact absurd other Nat.one_ne_zero
  | _ => rfl

/-- All connections were given back when `Uninit` clears the lists. -/
theorem clear_inv (inv : Inv [] (push s (.uninit []))) :
    Inv [] { s with idle := [], busy := [] } := by
  have uninits : 1 + (s.calls.map fun call => call.load.uninits).sum ≤
      if s.inited then 0 else 1 := inv.uninits_push
  have closing : s.inited = false := by
    cases inited : s.inited with
    | false => rfl
    | true =>
        rw [inited, if_pos rfl] at uninits
        omega
  rw [closing, if_neg (by decide)] at uninits
  have noOthers := List.sum_eq_zero_iff_forall_eq_nat.mp (by omega :
    (s.calls.map fun call => call.load.uninits).sum = 0)
  have others : total s Load.returns = [] :=
    List.flatMap_eq_nil_iff.mpr fun call member =>
      load_returns call (noOthers _ (List.mem_map_of_mem member))
  have empty : s.busy = [] := by
    refine List.eq_nil_iff_forall_not_mem.mpr fun c member => ?_
    have waits := inv.returns closing c member
    rw [total_push, others] at waits
    exact absurd waits List.not_mem_nil
  exact
    { inv.take rfl rfl rfl with
      nodup := List.nodup_nil
      iter := by
        intro c
        rw [← empty]
        exact inv.iter c
      listed := fun inited => absurd (inited.symm.trans closing) (by decide)
      returns := nofun }

/-- `Uninit` goes on with the next connection. -/
theorem resetNext_inv {conns : List Nat} (inv : Inv [] (push s (.uninit (c :: conns))))
    (free : held s c = none) : Inv [] (push s (.returnIdle c (.close conns))) :=
  { inv with
    placed := inv.move fun rpc => by rw [count_records_push, count_records_push]; rfl
    own := List.forall_mem_cons.mpr ⟨trivial, inv.others⟩
    resets := by
      intro closing d holds
      have waits := inv.resets closing d holds
      rw [total_push] at waits
      rcases List.mem_cons.mp waits with rfl | waits
      · exact absurd free holds
      · exact waits }

theorem uninit_inv {conns : List Nat} (inv : Inv [] (push s (.uninit conns))) :
    Inv [] (uninit s conns) := by
  cases conns with
  | nil => exact clear_inv inv
  | cons c rest =>
      have taken : Inv (s.conns c).rpc.toList
          (push (setConn s c (s.conns c).reset) (.uninit (c :: rest))) :=
        inv.free rfl rfl fun _ => rfl
      have answered : Inv [] (push (callback (setConn s c (s.conns c).reset) (s.conns c).rpc)
          (.uninit (c :: rest))) := taken.callback
      refine resetNext_inv answered ?_
      exact congrArg TokenlessConn.rpc (setConn_self s c (s.conns c).reset)

theorem startUninit_inv (inv : Inv [] s) (drained : s.inited = true → s.delayReqs = []) :
    Inv [] (startUninit s) := by
  unfold startUninit
  by_cases closing : s.inited = false
  · rw [if_pos closing]
    exact inv
  rw [if_neg closing]
  have inited : s.inited = true := by simpa using closing
  have all : ∀ c, c < s.nextConnId → c ∈ s.busy ++ s.idle := by
    intro c old
    have listed := (inv.listed inited).1.mem_iff.mpr old
    exact List.perm_append_comm.mem_iff.mp listed
  exact
    { inv with
      placed := inv.move fun rpc => by rw [count_records_push]; rfl
      own := List.forall_mem_cons.mpr ⟨trivial, inv.own⟩
      listed := nofun
      uninits := by
        have none' := inv.uninits
        rw [inited, if_pos rfl] at none'
        exact Nat.add_le_add_left none' 1
      parked := fun _ => drained inited
      resets := fun _ c holds => List.mem_append_left _ (all c (inv.holders c holds))
      returns := fun _ c member => List.mem_append_left _ (List.mem_append_left _ member) }

theorem onOpened_same (conn : TokenlessConn) (ioId : Nat) (sent : Bool) :
    (conn.onOpened ioId sent).1.rpc = conn.rpc ∧ (conn.onOpened ioId sent).1.iter = conn.iter ∧
      ((conn.status = .closed → conn.ioId = 0) → (conn.onOpened ioId sent).1.status = .closed →
        (conn.onOpened ioId sent).1.ioId = 0) := by
  unfold TokenlessConn.onOpened
  split
  · exact ⟨rfl, rfl, id⟩
  split
  · split
    · exact ⟨rfl, rfl, fun _ => nofun⟩
    · exact ⟨rfl, rfl, fun _ => nofun⟩
  · exact ⟨rfl, rfl, id⟩

theorem onOpened_inv {ioId : Nat} {sent : Bool} (inv : Inv [] s) :
    Inv [] (onOpened s c ioId sent) := by
  obtain ⟨rpc, iter, closed⟩ := onOpened_same (s.conns c) ioId sent
  have changed := inv.change rpc iter (closed (inv.ioId c))
  unfold onOpened
  simp only
  split
  · exact changed.start rfl trivial
  · exact changed

theorem processMsg_inv {short eofOrError : Bool} {ioId : Nat} (inv : Inv [] s) :
    Inv [] (processMsg short s c ioId eofOrError) := by
  unfold processMsg
  simp only
  split
  · exact inv.change rfl rfl fun _ => rfl
  have taken : Inv (s.conns c).rpc.toList (setConn s c
      { s.conns c with status := .connected, rpc := none, timerId := 0 }) :=
    inv.free rfl rfl nofun
  have answered := taken.callback
  split
  · exact answered.start rfl trivial
  · exact answered.start rfl trivial

theorem onTimer_inv {id : Int} (inv : Inv [] s) : Inv [] (onTimer s c id) := by
  unfold onTimer
  split
  · exact inv
  · have changed : Inv [] (setConn s c { s.conns c with timerId := 0 }) :=
      inv.change rfl rfl (inv.ioId c)
    exact changed.start rfl trivial

theorem lend_inv {rest : List Nat} (inv : Inv [] (push s (.getIdleConn rpc)))
    (inited : s.inited = true) (first : s.idle = c :: rest) :
    Inv [] (lend { s with idleCount := s.idleCount - 1, idle := rest } c rpc) := by
  have unknown : rpc ∉ s.accepted := inv.unknown List.mem_cons_self
  have taken : Inv [rpc] s := inv.take rfl rfl rfl
  obtain ⟨accounted, idleCount, busyCount⟩ := taken.listed inited
  have once := accounted.nodup
  rw [first, List.cons_append] at once
  have idle : c ∉ s.busy := fun member =>
    (List.nodup_cons.mp once).1 (List.mem_append_right _ member)
  have old : c < s.nextConnId := by
    refine accounted.mem_iff.mp (List.mem_append_left _ ?_)
    rw [first]
    exact List.mem_cons_self
  have moved : (rest ++ (s.busy ++ [c])).Perm (s.idle ++ s.busy) := by
    rw [first, ← List.append_assoc]
    exact List.perm_append_singleton c (rest ++ s.busy)
  have apart : ∀ d, d ≠ c → (d ∈ s.busy ++ [c] ↔ d ∈ s.busy) := by
    intro d other
    rw [List.mem_append, List.mem_singleton, or_iff_left other]
  have nodup : (s.busy ++ [c]).Nodup :=
    (List.perm_append_singleton c s.busy).nodup_iff.mpr (List.nodup_cons.mpr ⟨idle, inv.nodup⟩)
  have isLent : c ∈ s.busy ++ [c] := List.mem_append_right _ List.mem_cons_self
  have listed : s.inited = true → (rest ++ (s.busy ++ [c])).Perm (s.idle ++ s.busy) ∧
      s.idleCount - 1 = rest.length ∧ s.busyCount + 1 = (s.busy ++ [c]).length := by
    intro _
    rw [first, List.length_cons] at idleCount
    rw [List.length_append, List.length_singleton]
    exact ⟨moved, by omega, by omega⟩
  have lent := taken.relist nodup ⟨fun _ => isLent, fun _ => rfl⟩ apart listed fun _ => inited
  refine lent.give rfl trivial (fun r member => ?_) fun d member => ?_
  · rw [List.mem_singleton.mp member]
    exact unknown
  · rw [List.mem_singleton.mp member]
    exact old

/-- A new connection, as if it had been idle. -/
theorem newConn_inv (inv : Inv hand s) (inited : s.inited = true) (empty : s.idle = []) :
    Inv hand { newConn s env with idle := [s.nextConnId], idleCount := s.idleCount + 1 } := by
  obtain ⟨accounted, idleCount, busyCount⟩ := inv.listed inited
  rw [empty, List.nil_append] at accounted
  have free : (s.conns s.nextConnId).rpc = none :=
    not_not.mp fun holds => Nat.lt_irrefl _ (inv.holders s.nextConnId holds)
  have notLent : (s.conns s.nextConnId).iter = false := by
    refine Bool.eq_false_iff.mpr fun iter => ?_
    exact Nat.lt_irrefl _ (accounted.mem_iff.mp ((inv.iter _).mp iter))
  have changed : Inv hand (setConn s s.nextConnId (.new env)) :=
    inv.change free.symm notLent.symm fun _ => rfl
  exact
    { changed with
      listed := by
        intro _
        refine ⟨accounted.create (List.Perm.refl _), ?_, busyCount⟩
        rw [empty] at idleCount
        exact congrArg (· + 1) idleCount
      lends := fun d member => Nat.lt_succ_of_lt (inv.lends d member)
      holders := fun d holds => Nat.lt_succ_of_lt (changed.holders d holds) }

theorem getIdleConn_inv (inv : Inv [] (push s (.getIdleConn rpc))) :
    Inv [] (getIdleConn s rpc env) := by
  unfold getIdleConn
  by_cases closing : s.inited = false
  · rw [if_pos closing]
    exact inv.goOn rfl trivial
  rw [if_neg closing]
  have inited : s.inited = true := by simpa using closing
  split
  · rename_i empty
    split
    · exact inv.goOn rfl trivial
    · have made : Inv [] (push { newConn s env with
          idle := [s.nextConnId], idleCount := s.idleCount + 1 } (.getIdleConn rpc)) :=
        newConn_inv inv inited empty
      have isNew : { newConn s env with idle := [], idleCount := s.idleCount + 1 - 1 } =
          newConn s env := by
        rw [Int.add_sub_cancel, ← empty]
        rfl
      rw [← isNew]
      exact lend_inv made inited rfl
  · rename_i c rest first
    exact lend_inv inv inited first

theorem park_inv (inv : Inv [] (push s (.park rpc)))
    (allowed : env.expired = true ∨ s.inited = true) : Inv [] (park s rpc env) := by
  have unknown : rpc ∉ s.accepted := inv.unknown List.mem_cons_self
  have taken : Inv [rpc] s := inv.take rfl rfl rfl
  unfold park
  by_cases expired : env.expired = true
  · rw [if_pos expired]
    exact taken.refuse unknown
  · rw [if_neg expired]
    exact (taken.delay (allowed.resolve_left expired)).accept taken.inHand

theorem mayQuery_erase {i : Nat} (atIndex : s.calls[i]? = some (.connQuery c rpc))
    (may : MayQuery s c env) : MayQuery { s with calls := s.calls.eraseIdx i } c env := by
  have same : (toReset s).Perm (toReset { s with calls := s.calls.eraseIdx i }) :=
    (perm_cons_eraseIdx atIndex).flatMap_right Call.toReset
  exact ⟨may.1, fun inTime sends => (may.2 inTime sends).imp_right same.mem_iff.mp⟩

theorem self_alive (allowed : AllowedCall s env call) : ∀ c ∈ call.self, Alive s c := by
  cases call with
  | reset c => exact fun d isSelf => Option.some.inj isSelf ▸ allowed
  | dropIo c => exact fun d isSelf => Option.some.inj isSelf ▸ allowed
  | returnIdle c caller =>
      cases caller with
      | event => exact fun d isSelf => Option.some.inj isSelf ▸ allowed
      | query => exact nofun
      | close conns => exact nofun
  | _ => exact nofun

theorem advance_inv {i : Nat} (inv : Inv [] s) (atIndex : s.calls[i]? = some call)
    (allowed : AllowedCall s env call) :
    Inv [] (advance { s with calls := s.calls.eraseIdx i } env call) := by
  have opened : Inv [] (push { s with calls := s.calls.eraseIdx i } call) :=
    inv.perm (perm_cons_eraseIdx atIndex).symm
  cases call with
  | getIdleConn rpc => exact getIdleConn_inv opened
  | noConn rpc =>
      rw [advance]
      split
      · exact opened.goOn rfl trivial
      · have taken : Inv [rpc] { s with calls := s.calls.eraseIdx i } := opened.take rfl rfl rfl
        exact taken.refuse (opened.unknown List.mem_cons_self)
  | noConnInited rpc =>
      rw [advance, if_pos (show s.inited = true from allowed)]
      exact opened.goOn rfl trivial
  | park rpc => exact park_inv opened allowed
  | connQuery c rpc => exact connQuery_inv opened (mayQuery_erase atIndex allowed)
  | reset c => exact reset_inv (opened.drop rfl) rfl
  | dropIo c =>
      have changed : Inv [] (setConn { s with calls := s.calls.eraseIdx i } c (s.conns c).dropIo) :=
        (opened.drop rfl).change rfl rfl fun _ => rfl
      exact changed.start rfl trivial
  | returnIdle c caller => exact returnIdle_inv opened
  | putIdle c caller => exact putIdle_inv opened allowed
  | handOver c rpc caller => exact handOver_inv opened allowed
  | execFailed c rpc => exact execFailed_inv opened allowed
  | uninit conns => exact uninit_inv opened
  | close c conns =>
      have changed : Inv [] (push (setConn { s with calls := s.calls.eraseIdx i } c
          { s.conns c with status := .uninited }) (.close c conns)) :=
        opened.change rfl rfl nofun
      exact changed.goOn rfl trivial

end Calls

/-! ## Runs -/

section Runs

variable {s s' : Service} {short : Bool}

theorem event_inv {c : Nat} {handled : Service} (inv : Inv [] handled) (alive : Alive s c)
    (taken : event s c handled = some s') : Inv [] s' := by
  unfold event at taken
  split at taken
  · exact absurd taken (by simp)
  · obtain rfl : handled = s' := by simpa [alive] using taken
    exact inv

theorem handle_inv {label : Label} (inv : Inv [] s) (allowed : Allowed s label)
    (handled : handle short s label = some s') : Inv [] s' := by
  cases label with
  | query =>
      obtain rfl := Option.some.inj handled
      refine Inv.give inv.create rfl trivial (fun rpc member accepted => ?_) nofun
      rw [List.mem_singleton.mp member] at accepted
      exact Nat.lt_irrefl _ (inv.accepted _ accepted).1
  | uninit =>
      obtain rfl := Option.some.inj handled
      exact startUninit_inv inv allowed
  | onOpened c ioId sent => exact event_inv (onOpened_inv inv) allowed handled
  | onClosed c ioId =>
      refine event_inv ?_ allowed handled
      unfold onClosed
      split
      · exact inv.start rfl trivial
      · exact inv
  | processMsg c ioId eofOrError => exact event_inv (processMsg_inv inv) allowed handled
  | onTimer c id => exact event_inv (onTimer_inv inv) allowed handled
  | task i env =>
      obtain ⟨⟨c, rpc⟩, atIndex, rfl⟩ := Option.map_eq_some_iff.mp handled
      obtain ⟨taken, old⟩ := inv.unpost atIndex
      exact execDelayReqCallback_inv taken (allowed (c, rpc) atIndex) old
  | advance i env =>
      obtain ⟨call, atIndex, rfl⟩ := Option.map_eq_some_iff.mp handled
      have call' : AllowedCall s env call := allowed call atIndex
      simp only [if_pos (self_alive call')]
      exact advance_inv inv atIndex call'

/-- An invariant state is sound. -/
theorem sound_of_inv (inv : Inv [] s) : Sound s where
  once := by
    intro rpc member
    have once := (List.nodup_iff_count_le_one.mp inv.placed.once) rpc
    rw [List.nil_append, count_records] at once
    omega
  answered := by
    intro closed noCalls noTasks rpc member
    obtain ⟨old, notRefused, -⟩ := inv.accepted rpc member
    have noLoads : ∀ part, total s part = [] := fun part => by rw [total, noCalls, List.flatMap_nil]
    rcases inv.placed.found rpc old with recorded | ⟨c, holds⟩
    · have once := (List.nodup_iff_count_le_one.mp inv.placed.once) rpc
      have some' := List.count_pos_iff.mpr recorded
      rw [List.nil_append, count_records, inv.parked closed, noTasks, noLoads,
        List.count_eq_zero.mpr notRefused] at once some'
      simp only [List.map_nil, List.count_nil] at once some'
      omega
    · have waits := inv.resets closed c (by rw [holds]; simp)
      rw [noLoads] at waits
      exact absurd waits List.not_mem_nil
  listed inited := (inv.listed inited).1
  counted := by
    intro inited
    obtain ⟨accounted, idleCount, busyCount⟩ := inv.listed inited
    refine ⟨?_, idleCount, busyCount⟩
    have all := accounted.length_eq
    rw [List.length_append, List.length_range] at all
    omega

/-- In time, connected at once, and sent with the timer 7. -/
def inTime : Env :=
  { expired := false, connect := 0, ioId := 5, sent := true, timerId := 7, posted := true,
    memory := 0 }

/-- A reply, a timeout on the same connection, and `Uninit`. -/
def answeredRun : List Label :=
  [.query, .advance 0 inTime, .advance 0 inTime, .processMsg 0 5 false, .advance 0 inTime,
    .advance 0 inTime, .query, .advance 0 inTime, .advance 0 inTime, .onTimer 0 7,
    .advance 0 inTime, .advance 0 inTime, .advance 0 inTime, .uninit, .advance 0 inTime,
    .advance 0 inTime, .advance 0 inTime, .advance 0 inTime]

/-- The timeout of a request, and the end of its connection while the timeout is handled. -/
def racedRun : List Label :=
  [.query, .advance 0 inTime, .advance 0 inTime, .onTimer 0 7, .onClosed 0 5, .advance 0 inTime,
    .advance 1 inTime, .advance 0 inTime, .advance 1 inTime, .advance 0 inTime,
    .advance 0 inTime]

/-- A query that goes on after `Uninit` has reset its connection. -/
def lateRun : List Label :=
  [.query, .advance 0 inTime, .uninit, .advance 0 inTime, .advance 1 inTime, .advance 0 inTime,
    .advance 0 inTime, .advance 0 inTime, .advance 0 inTime]

end Runs

end MlsImgSearch.Blitz.TokenlessService
