import MlsImgSearch.Blitz.FdManager
import MlsImgSearch.Lib.Run

/-!
# The framework: connections, handles and posted tasks

Every file descriptor belongs to the thread `fd % thread_count_`. Other threads
reach its connection through tasks that are queued for that thread and carry an
io identifier. The state records, beside the table and the queues, which
identifiers were issued and registered and which effect each task had.
-/

namespace MlsImgSearch.Blitz.Framework

open MlsImgSearch.Lib.Run

variable {η μ : Type}

/-! ## Operations on the table -/

def kInvalidParam : Int := -5000

/-- What an operation does to a connection or to its arguments. `μ` stands for the messages. -/
inductive Effect (η μ : Type) where
  | sendMsg (d : FdDescriptor η) (msg : μ)
  | eventDel (d : FdDescriptor η)
  | fnFree (d : FdDescriptor η)
  | eventReadd (d : FdDescriptor η)
  | release (msg : μ)
  | freeArgument (handler : η)
  | passiveConnected (handler : η)
  deriving DecidableEq

/-- The descriptor whose connection the effect reaches. -/
def Effect.target : Effect η μ → Option (FdDescriptor η)
  | .sendMsg d _ => some d
  | .eventDel d => some d
  | .fnFree d => some d
  | .eventReadd d => some d
  | .release _ => none
  | .freeArgument _ => none
  | .passiveConnected _ => none

structure Outcome (η μ : Type) where
  code : Int
  table : FdManager η
  effects : List (Effect η μ)

/-- Remove the event of a descriptor and free its handler. -/
def dismantle (d : FdDescriptor η) : List (Effect η μ) :=
  (if d.ev then [.eventDel d] else []) ++
    (if d.handler.isSome && d.fnFree then [.fnFree d] else [])

/-- `none` stands for undefined behaviour: an access outside of the table. -/
def realDelFd (m : FdManager η) (fd : Nat) : Option (Outcome η μ) :=
  (m.getFd fd).map fun d => ⟨0, m.freeFd fd, dismantle d⟩

/-- `sent` is whether `handler->SendMsg` returns 0. -/
def realSendMsg (m : FdManager η) (ioId : BitVec 64) (msg : μ) (sent : Bool) :
    Option (Outcome η μ) :=
  match m.getByIoId ioId with
  | none => some ⟨-1, m, [.release msg]⟩
  | some d =>
      if d.handler.isNone then none
      else if sent then some ⟨0, m, [.sendMsg d msg]⟩
      else (realDelFd m (IoId.getFd ioId)).map fun o => ⟨0, o.table, .sendMsg d msg :: o.effects⟩

/-- No caller uses this operation; it is the only way to close that looks at the salt. -/
def realCloseIo (m : FdManager η) (ioId : BitVec 64) : Outcome η μ :=
  if IoId.isValid ioId = false then ⟨kInvalidParam, m, []⟩
  else
    match m.getByIoId ioId with
    | none => ⟨-1, m, []⟩
    | some d => ⟨0, m.freeFd (IoId.getFd ioId), dismantle d⟩

/-- The descriptor as `RealAddFd` fills it in. -/
def describe (ioId : BitVec 64) (handler : η) (fnFree : Bool) : FdDescriptor η :=
  { fd := IoId.getFd ioId, ioId := ioId, handler := some handler, fnFree := fnFree, ev := true }

/-- `added` is whether `event_add` returns 0. -/
def realAddFd (m : FdManager η) (ioId : BitVec 64) (handler : η) (fnFree added : Bool) :
    Option (Outcome η μ) :=
  if IoId.isValid ioId = false then some ⟨kInvalidParam, m, []⟩
  else
    let fd := IoId.getFd ioId
    match m.use fd with
    | none => some ⟨-2, m, []⟩
    | some m' =>
        let m'' := m'.setItem fd { m'.items fd with descriptor := describe ioId handler fnFree }
        if added then some ⟨0, m'', []⟩
        else (realDelFd m'' fd).map fun o => ⟨-3, o.table, o.effects⟩

/-- `event_del` of a null event stops the program. -/
def realReaddFd (m : FdManager η) (fd : Nat) : Option (Outcome η μ) :=
  if fd ≤ 0 then some ⟨-1, m, []⟩
  else (m.getFd fd).bind fun d => if d.ev then some ⟨0, m, [.eventReadd d]⟩ else none

/-! ## Tasks -/

inductive Task (η μ : Type) where
  | sendMsg (ioId : BitVec 64) (msg : μ)
  | closeIo (ioId : BitVec 64)
  | reactivateIo (ioId : BitVec 64)
  | addIo (ioId : BitVec 64) (handler : η) (fnFree : Bool)
  | addAcceptTcp (ioId : BitVec 64) (conn : η)
  | addTcpConn (ioId : BitVec 64) (conn : η)
  | addTcpServ (ioId : BitVec 64) (serv : η)

/-- The identifier that the task was posted for. -/
def Task.ioId : Task η μ → BitVec 64
  | .sendMsg ioId _ => ioId
  | .closeIo ioId => ioId
  | .reactivateIo ioId => ioId
  | .addIo ioId _ _ => ioId
  | .addAcceptTcp ioId _ => ioId
  | .addTcpConn ioId _ => ioId
  | .addTcpServ ioId _ => ioId

/-- The handler that the task registers. -/
def Task.adds : Task η μ → Option η
  | .sendMsg _ _ => none
  | .closeIo _ => none
  | .reactivateIo _ => none
  | .addIo _ handler _ => some handler
  | .addAcceptTcp _ conn => some conn
  | .addTcpConn _ conn => some conn
  | .addTcpServ _ serv => some serv

/-- The four callbacks that add a handler free it when `RealAddFd` fails. -/
def addCallback (m : FdManager η) (ioId : BitVec 64) (handler : η) (fnFree : Bool)
    (before : List (Effect η μ)) (added : Bool) : Option (Outcome η μ) :=
  (realAddFd m ioId handler fnFree added).map fun o =>
    { o with effects := o.effects ++ before ++
        (if o.code ≠ 0 && fnFree then [.freeArgument handler] else []) }

/-- `ok` is the result of the one call that the task makes outside of the framework. -/
def callback (m : FdManager η) (ok : Bool) : Task η μ → Option (Outcome η μ)
  | .sendMsg ioId msg => realSendMsg m ioId msg ok
  | .closeIo ioId => realDelFd m (IoId.getFd ioId)
  | .reactivateIo ioId => realReaddFd m (IoId.getFd ioId)
  | .addIo ioId handler fnFree => addCallback m ioId handler fnFree [] ok
  | .addAcceptTcp ioId conn => addCallback m ioId conn true [.passiveConnected conn] ok
  | .addTcpConn ioId conn => addCallback m ioId conn true [] ok
  | .addTcpServ ioId serv => addCallback m ioId serv true [] ok

/-! ## The framework as a transition system -/

structure State (η μ : Type) where
  fdManager : FdManager η
  threadCount : Nat
  taskQueue : Nat → List (Task η μ)
  /-- Undefined behaviour or a failed assertion ended the program. -/
  crashed : Bool
  /-- Identifiers from `AssignFdIoId` that were not passed on to be added. -/
  issued : List (BitVec 64)
  /-- The connections that took a slot so far, each with its identifier. -/
  registered : List (BitVec 64 × η)
  /-- The effects of tasks so far, each with the identifier of its task. -/
  applied : List (BitVec 64 × Effect η μ)

def State.initial (maxCount threadCount : Nat) : State η μ :=
  ⟨.init maxCount, threadCount, fun _ => [], false, [], [], []⟩

/-- The connection of an add task takes its slot unless `RealAddFd` returns early. -/
def registration (task : Task η μ) (code : Int) : List (BitVec 64 × η) :=
  match task.adds with
  | none => []
  | some handler => if code = 0 ∨ code = -3 then [(task.ioId, handler)] else []

def State.crash (s : State η μ) : State η μ := { s with crashed := true }

def perform (s : State η μ) (task : Task η μ) (ok : Bool) : State η μ :=
  match callback s.fdManager ok task with
  | none => s.crash
  | some o =>
      { s with
        fdManager := o.table
        registered := s.registered ++ registration task o.code
        applied := s.applied ++ o.effects.map fun e => (task.ioId, e) }

def postTask (s : State η μ) (task : Task η μ) : State η μ :=
  let thread := IoId.getFd task.ioId % s.threadCount
  { s with taskQueue := Function.update s.taskQueue thread (s.taskQueue thread ++ [task]) }

/-- The public operations reject identifiers that are not of a file descriptor. -/
def postValid (s : State η μ) (task : Task η μ) : State η μ :=
  if IoId.isValid task.ioId then postTask s task else s

/-- `AssignFdIoId`, then what the caller does with the new identifier. -/
def assignFdIoId (s : State η μ) (fd : Nat) (next : State η μ → BitVec 64 → State η μ) :
    State η μ :=
  match s.fdManager.nextSalt fd with
  | none => s.crash
  | some (salt, m) => next { s with fdManager := m } (IoId.ioIdFromFd (BitVec.ofNat 32 fd) salt)

/-- Every choice of the callers, the scheduler and the operating system. -/
inductive Label (η μ : Type) where
  | assignFdIoId (fd : Nat)
  | connect (fd : Nat) (conn : η) (connected : Bool)
  | bind (fd : Nat) (serv : η)
  | accept (fd : Nat) (conn : η)
  | addIo (ioId : BitVec 64) (handler : η) (fnFree : Bool)
  | sendMsg (thread : Int) (ioId : BitVec 64) (msg : μ) (sent : Bool)
  | closeIo (ioId : BitVec 64)
  | reactivateIo (ioId : BitVec 64)
  | runTask (thread : Nat) (ok : Bool)
  | libeventCallback (fd : Nat) (ok : Bool)

def step (s : State η μ) : Label η μ → Option (State η μ)
  | .assignFdIoId fd =>
      some (assignFdIoId s fd fun s' ioId => { s' with issued := ioId :: s'.issued })
  | .connect fd conn connected =>
      some (assignFdIoId s fd fun s' ioId =>
        if connected then postTask s' (.addTcpConn ioId conn) else s')
  | .bind fd serv => some (assignFdIoId s fd fun s' ioId => postTask s' (.addTcpServ ioId serv))
  | .accept fd conn => some (assignFdIoId s fd fun s' ioId => postValid s' (.addAcceptTcp ioId conn))
  | .addIo ioId handler fnFree =>
      some (postValid { s with issued := s.issued.filter (· ≠ ioId) } (.addIo ioId handler fnFree))
  | .sendMsg thread ioId msg sent =>
      if IoId.isValid ioId = false then some s
      else if (IoId.getFd ioId % s.threadCount : Nat) = thread then
        some (perform s (.sendMsg ioId msg) sent)
      else some (postTask s (.sendMsg ioId msg))
  | .closeIo ioId => some (postValid s (.closeIo ioId))
  | .reactivateIo ioId => some (postValid s (.reactivateIo ioId))
  | .runTask thread ok =>
      match s.taskQueue thread with
      | [] => none
      | task :: rest =>
          some (perform { s with taskQueue := Function.update s.taskQueue thread rest } task ok)
  | .libeventCallback fd ok =>
      -- a failing read or write removes the connection of the event that fired
      if s.fdManager.maxCount ≤ fd ∨ (s.fdManager.items fd).descriptor.ev = false then none
      else if ok then some s
      else
        match (realDelFd s.fdManager fd : Option (Outcome η μ)) with
        | none => some s.crash
        | some o => some { s with fdManager := o.table }

/-- A crashed program does nothing more. -/
def next (s : State η μ) (label : Label η μ) : Option (State η μ) :=
  if s.crashed then none else step s label

end MlsImgSearch.Blitz.Framework
