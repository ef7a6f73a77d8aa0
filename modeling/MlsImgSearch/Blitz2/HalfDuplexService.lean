import Mathlib.Logic.Function.Basic
import MlsImgSearch.Blitz2.StreamSocketChannel

/-!
# Queries and their answers

A service keeps connects to one address, and each of them works on one query at a
time. A query ends with an answer, with the close of its connect or with its
timer. Closes are reported partly by a call and partly by a task that the reactor
runs later.
-/

namespace MlsImgSearch.Blitz2.HalfDuplexService

open Lib.Run
open StreamSocketChannel (Channel OutMsg Pieces Writev ConnectResult)

/-! ## The state -/

/-- A query in work; its number stands for the outmsg and the callback. -/
structure QueryInfo where
  number : Nat
  timerId : Nat
  deriving DecidableEq

/-- A query in the queue. -/
structure QueuedQuery where
  number : Nat
  pieces : Pieces
  expireTime : Nat

/-- A connect. `requests` are the queries whose messages were passed to the channel since it was
connected, of which the peer answered the first `answered`. -/
structure HalfDuplexConnect where
  channel : Channel
  requests : List Nat
  answered : Nat
  queryInfo : Option QueryInfo

def HalfDuplexConnect.new : HalfDuplexConnect := ⟨Channel.initial, [], 0, none⟩

/-- What a callback is called with; the service itself gives the first two and `connectClosed`. -/
inductive QueryResult where
  | success
  | timeout
  | internal
  | connectClosed
  | failSelectService
  | invalidResp
  deriving DecidableEq

inductive Result where
  /-- With the query that the message answers; `none` is any other message. -/
  | success (answer : Option Nat)
  | timeout
  | connectClosed
  deriving DecidableEq

/-- A timer that was not yet handled, and its `FLAG_REMOVED`. -/
structure Timer where
  id : Nat
  conn : Nat
  removed : Bool
  deriving DecidableEq

inductive Task where
  | opened (conn : Nat)
  | closed (conn : Nat)
  /-- `TaskCallback` of a query that was too late. -/
  | callback (number : Nat)
  deriving DecidableEq

/-- What is running. All but `tryQuery` are a callback of the user, which may call `Query`; what
follows it in the code comes with the step `finish`. -/
inductive Frame where
  | msgArrived (conn : Nat)
  | closed (conn : Nat)
  | timeout (conn : Nat)
  | expired (conn curTime : Nat)
  | tryQuery (conn curTime : Nat)
  deriving DecidableEq

def Frame.conn : Frame → Nat
  | msgArrived c => c
  | closed c => c
  | timeout c => c
  | expired c _ => c
  | tryQuery c _ => c

/-- The service and the reactor. The connects are numbered, and the first `connCount` exist;
`log` are the callbacks that ran. `aborted` is a call of `abort`, a failed assertion or the use of a
null pointer. -/
structure Service where
  now : Nat
  maxConnCount : Nat
  shortConnect : Bool
  conns : Nat → HalfDuplexConnect
  connCount : Nat
  idleConns : List Nat
  queries : List QueuedQuery
  timerId : Nat
  timers : List Timer
  tasks : List Task
  running : Option Frame
  nextQuery : Nat
  log : List (Nat × Result)
  aborted : Bool

def Service.initial : Service :=
  { now := 0, maxConnCount := 100, shortConnect := false, conns := fun _ => .new, connCount := 0,
    idleConns := [], queries := [], timerId := 0, timers := [], tasks := [], running := none,
    nextQuery := 0, log := [], aborted := false }

/-! ## The operations -/

def setConn (s : Service) (c : Nat) (conn : HalfDuplexConnect) : Service :=
  { s with conns := Function.update s.conns c conn }

def postTask (s : Service) (task : Task) : Service := { s with tasks := s.tasks ++ [task] }

def abort (s : Service) : Service := { s with aborted := true }

def runCallback (s : Service) (number : Nat) (result : Result) : Service :=
  { s with log := s.log ++ [(number, result)] }

def removeTimer (id : Nat) (timers : List Timer) : List Timer :=
  timers.map fun t => if t.id = id then { t with removed := true } else t

/-- `StreamSocketChannel::Connect` with the tasks that it posts. -/
def connect (s : Service) (c : Nat) (result : ConnectResult) : Service :=
  let conn := s.conns c
  let connected : HalfDuplexConnect :=
    { conn with channel := StreamSocketChannel.connect result conn.channel,
                requests := [], answered := 0 }
  if conn.channel.status = .closed then
    match result with
    | .connected => postTask (setConn s c connected) (.opened c)
    | .inProgress => setConn s c connected
    | .failed => postTask s (.closed c)
  else s

/-- `RealClose` without a notification. -/
def close (s : Service) (c : Nat) : Service :=
  let conn := s.conns c
  setConn s c { conn with channel := StreamSocketChannel.realClose conn.channel }

/-- `HalfDuplexConnect::Query`; a write that fails closes the channel and posts a task. -/
def connQuery (s : Service) (c number : Nat) (pieces : Pieces) (results : List Writev) :
    Option Service :=
  let conn := s.conns c
  let timerId := (s.timerId + 1) % 2 ^ 32
  if conn.queryInfo.isSome then some (abort s)
  else if timerId = 0 then some (abort s)
  else
    (StreamSocketChannel.sendMsg pieces results conn.channel).map fun channel =>
      let wasOpen := conn.channel.status ≠ .closed
      let s := setConn s c
        { conn with
          channel := channel
          requests := if wasOpen then conn.requests ++ [number] else conn.requests
          queryInfo := some ⟨number, timerId⟩ }
      let s := { s with timerId := timerId, timers := s.timers ++ [⟨timerId, c, false⟩] }
      if wasOpen ∧ channel.status = .closed then postTask s (.closed c) else s

/-- What a caller and its sockets choose. -/
structure Call where
  pieces : Pieces
  timeout : Nat
  result : ConnectResult
  results : List Writev

/-- `GetIdleConn` and `Query`. -/
def query (s : Service) (call : Call) : Option Service :=
  let number := s.nextQuery
  let s := { s with nextQuery := number + 1 }
  match s.idleConns with
  | c :: rest =>
      connQuery (connect { s with idleConns := rest } c call.result) c number call.pieces
        call.results
  | [] =>
      if s.connCount < s.maxConnCount then
        let c := s.connCount
        let s := setConn { s with connCount := c + 1 } c .new
        connQuery (connect s c call.result) c number call.pieces call.results
      else some { s with queries := s.queries ++ [⟨number, call.pieces, s.now + call.timeout⟩] }

/-- `QueryWithExpire`, with the moment in place of the timeout. -/
def queryWithExpire (s : Service) (call : Call) : Option Service :=
  if s.now < call.timeout then query s { call with timeout := (call.timeout - s.now) % 2 ^ 32 }
  else some (postTask { s with nextQuery := s.nextQuery + 1 } (.callback s.nextQuery))

def returnConn (s : Service) (c : Nat) : Service := { s with idleConns := s.idleConns ++ [c] }

/-- One turn of the loop of `TryQuery`. -/
def tryQuery (s : Service) (c curTime : Nat) (result : ConnectResult) (results : List Writev) :
    Option Service :=
  match s.queries with
  | [] => some { returnConn s c with running := none }
  | q :: rest =>
      if q.expireTime ≤ curTime then
        some { runCallback s q.number .timeout with running := some (.expired c curTime) }
      else
        (connQuery (connect { s with running := none } c result) c q.number q.pieces results).map
          fun s => { s with queries := rest }

def clearQuery (s : Service) (c : Nat) : Service :=
  setConn s c { s.conns c with queryInfo := none }

/-- What `OnMsgArrived`, `OnClosed`, `OnTimeout` and `TryQuery` do after the callback. -/
def finishFrame (s : Service) : Frame → Option Service
  | .msgArrived c =>
      let s := clearQuery s c
      let s := if s.shortConnect then close s c else s
      some { s with running := some (.tryQuery c s.now) }
  | .closed c =>
      match (s.conns c).queryInfo with
      | none => none
      | some info =>
          let s := clearQuery { s with timers := removeTimer info.timerId s.timers } c
          some { s with running := some (.tryQuery c s.now) }
  | .timeout c =>
      let s := close (clearQuery s c) c
      some { s with running := some (.tryQuery c s.now) }
  | .expired c curTime =>
      some { s with queries := s.queries.tail, running := some (.tryQuery c curTime) }
  | .tryQuery _ _ => none

def onMsgArrived (s : Service) (c : Nat) (answer : Option Nat) : Service :=
  match (s.conns c).queryInfo with
  | none => abort s
  | some info =>
      let s := { s with timers := removeTimer info.timerId s.timers }
      { runCallback s info.number (.success answer) with running := some (.msgArrived c) }

def onClosed (s : Service) (c : Nat) : Service :=
  match (s.conns c).queryInfo with
  | none => s
  | some info => { runCallback s info.number .connectClosed with running := some (.closed c) }

def onTimeout (s : Service) (c id : Nat) : Service :=
  match (s.conns c).queryInfo with
  | none => abort s
  | some info =>
      if info.timerId ≠ id then abort s
      else { runCallback s info.number .timeout with running := some (.timeout c) }

/-- A timer that is handled is no longer pending. -/
def handleTimerEvent (s : Service) (t : Timer) : Service :=
  let s := { s with timers := s.timers.erase t }
  if t.removed then s else onTimeout s t.conn t.id

def runTask (s : Service) : Task → Service
  | .opened _ => s
  | .closed c => onClosed s c
  | .callback number => runCallback s number .timeout

/-! ## The peer -/

/-- The messages up to the first unanswered one arrived. -/
def Answerable (conn : HalfDuplexConnect) : Prop :=
  (conn.channel.passed.take (conn.answered + 1)).flatMap OutMsg.bytes <+: conn.channel.accepted

instance decidableAnswerable (conn : HalfDuplexConnect) : Decidable (Answerable conn) :=
  inferInstanceAs (Decidable (_ <+: _))

/-- The peer got bytes that are not those of the messages. -/
def Garbled (conn : HalfDuplexConnect) : Prop :=
  ¬ conn.channel.accepted <+: conn.channel.passed.flatMap OutMsg.bytes

instance decidableGarbled (conn : HalfDuplexConnect) : Decidable (Garbled conn) :=
  inferInstanceAs (Decidable (¬ _ <+: _))

/-- The peer answers the messages in order, or anything if it did not get them. -/
def reply (s : Service) (c : Nat) (stray : Bool) : Option Service :=
  let conn := s.conns c
  if conn.channel.status ≠ .connected then none
  else if stray then if Garbled conn then some (onMsgArrived s c none) else none
  else
    match conn.requests[conn.answered]? with
    | none => none
    | some number =>
        if Answerable conn then
          some (onMsgArrived (setConn s c { conn with answered := conn.answered + 1 }) c
            (some number))
        else none

/-! ## The system -/

/-- `OnWrite` of a connected channel. -/
def onWrite (s : Service) (c : Nat) (results : List Writev) : Option Service :=
  let conn := s.conns c
  if conn.channel.status ≠ .connected then none
  else
    (StreamSocketChannel.trySend results conn.channel).map fun channel =>
      let s := setConn s c { conn with channel := channel }
      if channel.status = .closed then onClosed s c else s

inductive Label where
  | tick (milliseconds : Nat)
  | configure (maxConnCount : Nat) (shortConnect : Bool)
  | query (call : Call)
  | queryWithExpire (call : Call)
  | opened (conn : Nat)
  | onWrite (conn : Nat) (results : List Writev)
  /-- The peer closes, the connect fails, or there is an error of reading or decoding. -/
  | realClose (conn : Nat)
  | reply (conn : Nat) (stray : Bool)
  | timer (t : Timer)
  | task
  /-- The callback returns. -/
  | finish
  | tryQuery (result : ConnectResult) (results : List Writev)

/-- The steps of the event loop, which no callback runs in. -/
def handleEvent (s : Service) : Label → Option Service
  | .opened c =>
      let conn := s.conns c
      if conn.channel.status = .connecting then
        some (setConn s c { conn with channel := { conn.channel with status := .connected } })
      else none
  | .onWrite c results => onWrite s c results
  | .realClose c =>
      if (s.conns c).channel.status = .closed then none else some (onClosed (close s c) c)
  | .reply c stray => reply s c stray
  | .timer t => if t ∈ s.timers then some (handleTimerEvent s t) else none
  | .task =>
      match s.tasks with
      | [] => none
      | task :: rest => some (runTask { s with tasks := rest } task)
  | _ => none

def step (s : Service) (label : Label) : Option Service :=
  if s.aborted then none
  else
    match label, s.running with
    | .tick milliseconds, _ => some { s with now := s.now + milliseconds }
    | .configure maxConnCount shortConnect, _ => some { s with maxConnCount, shortConnect }
    | .tryQuery result results, some (.tryQuery c curTime) => tryQuery s c curTime result results
    | _, some (.tryQuery _ _) => none
    | .query call, _ => query s call
    | .queryWithExpire call, _ => queryWithExpire s call
    | .finish, some frame => finishFrame s frame
    | label, none => handleEvent s label
    | _, some _ => none

/-! ## What is wanted -/

/-- Nothing is left that could end a query. -/
def Quiet (s : Service) : Prop :=
  (∀ t ∈ s.timers, t.removed = true) ∧ s.tasks = [] ∧ s.queries = []

structure Correct (s : Service) : Prop where
  atMostOnce : ∀ n, (s.log.map Prod.fst).count n ≤ 1
  exactlyOnce : Quiet s → ∀ n < s.nextQuery, (s.log.map Prod.fst).count n = 1
  answers : ∀ n answer, (n, Result.success answer) ∈ s.log → answer = some n
  idleOnce : s.idleConns.Nodup
  idleFree : ∀ c ∈ s.idleConns, (s.conns c).queryInfo = none
  /-- `Query` found no other query, and the others found theirs. -/
  safe : s.aborted = false

/-- A channel that is connected has no cursor of an earlier connection. -/
def Clean (s : Service) (c : Nat) (result : ConnectResult) : Prop :=
  StreamSocketChannel.Allowed (s.conns c).channel (.connect result)

def Small (pieces : Pieces) : Prop :=
  pieces.list.length < 2 ^ 31 ∧ ∀ piece ∈ pieces.list, piece.length < 2 ^ 31

/-- A call of `Query`: timer ids are left, and the idle connect is clean. -/
def AllowedCall (s : Service) (call : Call) : Prop :=
  s.timerId + 1 < 2 ^ 32 ∧ Small call.pieces ∧
    ∀ c ∈ s.idleConns.head?, Clean s c call.result

def Allowed (s : Service) : Label → Prop
  | .query call => AllowedCall s call
  | .queryWithExpire call => s.now < call.timeout → AllowedCall s call
  | .tryQuery result _ => s.timerId + 1 < 2 ^ 32 ∧ ∀ frame ∈ s.running, Clean s frame.conn result
  | .opened c => (s.conns c).channel.iovec = none
  -- the connect of a posted close was not connected again, or has no query
  | .task => ∀ c, s.tasks.head? = some (.closed c) → (s.conns c).queryInfo ≠ none →
      (s.conns c).channel.status = .closed
  | _ => True

instance decidableAllowedCall (s : Service) (call : Call) : Decidable (AllowedCall s call) :=
  inferInstanceAs (Decidable (s.timerId + 1 < 2 ^ 32 ∧ (call.pieces.list.length < 2 ^ 31 ∧
    ∀ piece ∈ call.pieces.list, piece.length < 2 ^ 31) ∧
    ∀ c ∈ s.idleConns.head?, StreamSocketChannel.Allowed (s.conns c).channel
      (.connect call.result)))

instance decidableAllowed (s : Service) : ∀ label, Decidable (Allowed s label)
  | .query call => decidableAllowedCall s call
  | .queryWithExpire call =>
      inferInstanceAs (Decidable (s.now < call.timeout → AllowedCall s call))
  | .tryQuery result _ => inferInstanceAs (Decidable (s.timerId + 1 < 2 ^ 32 ∧
      ∀ frame ∈ s.running, StreamSocketChannel.Allowed (s.conns frame.conn).channel
        (.connect result)))
  | .opened c => inferInstanceAs (Decidable ((s.conns c).channel.iovec = none))
  | .task =>
      match first : s.tasks.head? with
      | some (.closed c) => decidable_of_iff ((s.conns c).queryInfo ≠ none →
          (s.conns c).channel.status = .closed) (by simp [Allowed, first])
      | some (.opened _) => isTrue (by simp [Allowed, first])
      | some (.callback _) => isTrue (by simp [Allowed, first])
      | none => isTrue (by simp [Allowed, first])
  | .tick _ | .configure _ _ | .onWrite _ _ | .realClose _ | .reply _ _ | .timer _ | .finish =>
      isTrue trivial

end MlsImgSearch.Blitz2.HalfDuplexService
