import MlsImgSearch.Blitz.TaskQueues

/-!
# Servers with worker threads

The thrift server and both memcached servers put every message into one queue. Worker threads take the
messages out of it, one at a time, and process them outside of the mutex. A message that has waited for
too long is dropped by the worker that comes across it.
-/

namespace MlsImgSearch.Blitz.TaskServer

open Lib.Fifo Lib.Run
open TaskQueues.FrameworkThread (late)

/-! ## The queue and the workers -/

/-- The task for a message; it has an `fn_delete`. -/
abbrev Message (μ : Type) := TaskQueues.Task μ

/-- A message was too old at this time, or a worker took it. -/
inductive Outcome (κ : Type) where
  | expired (now : Nat)
  | taken (worker : κ) (now : Nat)
  deriving DecidableEq

/-- The queue, what each worker is processing, what each one has processed and done so far, and what
became of the messages. -/
structure Server (μ κ ε : Type) where
  taskQueue : List (Message μ)
  current : κ → Option (Message μ)
  processed : κ → List (Message μ × ε)
  record : Record (Message μ) (Outcome κ)

variable {μ κ ε : Type}

def Server.initial (μ κ ε : Type) : Server μ κ ε := ⟨[], fun _ => none, fun _ => [], .empty⟩

/-- `ProcessMsg` at a time; the time limit of the server may be missing. -/
def processMsg (timeout : Int) (s : Server μ κ ε) (now : Nat) (msg : μ) : Server μ κ ε :=
  let task := ⟨msg, true, if 0 < timeout then now + timeout.toNat else 0⟩
  { s with taskQueue := s.taskQueue ++ [task], record := s.record.post task }

/-- What became of the messages that were too old, and of the one that is taken. -/
def takenOutcomes (worker : κ) (dropped : List (Message μ × Nat)) (taken : Option (Message μ × Nat)) :
    List (Message μ × Outcome κ) :=
  (dropped.map fun e => (e.1, .expired e.2)) ++ taken.toList.map fun e => (e.1, .taken worker e.2)

section Workers

variable [DecidableEq κ]

/-- `PopValidTask`, all of it under the mutex. -/
def popValidTask (s : Server μ κ ε) (worker : κ) (clock : Nat → Nat) : Server μ κ ε :=
  let (dropped, taken, rest) := takeValid late clock s.taskQueue
  { s with
    taskQueue := rest
    current := Function.update s.current worker (taken.map Prod.fst)
    record := s.record.settleAll (takenOutcomes worker dropped taken) }

/-- The callback of the task that the worker has taken, with what `RealProcessMsg` does. -/
def taskCallback (s : Server μ κ ε) (worker : κ) (realProcessMsg : μ → ε) :
    Option (Server μ κ ε) :=
  (s.current worker).map fun task =>
    { s with
      current := Function.update s.current worker none
      processed := Function.update s.processed worker
        (s.processed worker ++ [(task, realProcessMsg task.args)]) }

/-- A message comes in, or a worker takes its next step. What sending returns is any number. -/
inductive Label (μ κ : Type) where
  | processMsg (now : Nat) (msg : μ)
  | popValidTask (worker : κ) (clock : Nat → Nat)
  | taskCallback (worker : κ) (sendMsg : Int)

def step (timeout : Int) (realProcessMsg : Int → μ → ε) (s : Server μ κ ε) :
    Label μ κ → Option (Server μ κ ε)
  | .processMsg now msg => some (processMsg timeout s now msg)
  | .popValidTask worker clock => some (popValidTask s worker clock)
  | .taskCallback worker sendMsg => taskCallback s worker (realProcessMsg sendMsg)

/-- The loop of `ThriftExecThread`: a worker processes what it has taken before it takes more. -/
def Allowed (s : Server μ κ ε) : Label μ κ → Prop
  | .processMsg _ _ => True
  | .popValidTask worker _ => s.current worker = none
  | .taskCallback worker _ => s.current worker ≠ none

instance decidableAllowed (s : Server μ κ ε) : ∀ label : Label μ κ, Decidable (Allowed s label)
  | .processMsg _ _ => inferInstanceAs (Decidable True)
  | .popValidTask worker _ => decidable_of_iff ((s.current worker).isNone = true) (by simp [Allowed])
  | .taskCallback worker _ => decidable_of_iff ((s.current worker).isSome = true) (by
      simp [Allowed, Option.isSome_iff_ne_none])

/-! ## Any run -/

/-- A message is taken in time and dropped when it is too old. -/
def Fair (e : Message μ × Outcome κ) : Prop :=
  match e.2 with
  | .expired now => late now e.1 = true
  | .taken _ now => late now e.1 = false

/-- The message that a worker took. -/
def takenBy (worker : κ) (e : Message μ × Outcome κ) : Option (Message μ) :=
  match e.2 with
  | .expired _ => none
  | .taken other _ => if other = worker then some e.1 else none

/-- What holds in every run. -/
structure Sound (realProcessMsg : Int → μ → ε) (s : Server μ κ ε) : Prop where
  /-- The messages leave the queue in the order in which they came, each of them once. -/
  inOrder : s.record.posted = s.record.settled.map Prod.fst ++ s.taskQueue
  /-- No message that is too old is processed, and no other one is dropped. -/
  fair : ∀ e ∈ s.record.settled, Fair e
  /-- A worker processes the messages that it took, in their order, each of them once. -/
  each : ∀ worker, s.record.settled.filterMap (takenBy worker) =
    (s.processed worker).map Prod.fst ++ (s.current worker).toList
  /-- What was done for a message is what the server does for it. -/
  effects : ∀ worker, ∀ done ∈ s.processed worker, ∃ sendMsg, done.2 = realProcessMsg sendMsg done.1.args

variable {realProcessMsg : Int → μ → ε} {s : Server μ κ ε} {timeout : Int}

theorem Sound.initial : Sound realProcessMsg (Server.initial μ κ ε) where
  inOrder := Record.leaves_empty
  fair := fun _ member => absurd member List.not_mem_nil
  each := fun _ => rfl
  effects := fun _ _ member => absurd member List.not_mem_nil

theorem Sound.processMsg (sound : Sound realProcessMsg s) (now : Nat) (msg : μ) :
    Sound realProcessMsg (processMsg timeout s now msg) where
  inOrder := Record.Leaves.post sound.inOrder
  fair := sound.fair
  each := sound.each
  effects := sound.effects

theorem Sound.popValidTask (sound : Sound realProcessMsg s) {worker : κ}
    (free : s.current worker = none) (clock : Nat → Nat) :
    Sound realProcessMsg (popValidTask s worker clock) := by
  obtain ⟨late', inTime, split⟩ := @takeValid_spec _ late clock s.taskQueue
  unfold TaskServer.popValidTask
  generalize takeValid late clock s.taskQueue = result at late' inTime split
  obtain ⟨dropped, taken, rest⟩ := result
  dsimp only at late' inTime split ⊢
  constructor
  · refine Record.Leaves.settleAll (sound.inOrder.trans ?_)
    rw [split, takenOutcomes, List.map_append, List.map_map, List.map_map, List.append_assoc]
    rfl
  · intro e member
    dsimp only at member
    rw [Record.settled_settleAll, takenOutcomes, List.mem_append, List.mem_append] at member
    rcases member with old | expired | new
    · exact sound.fair e old
    · obtain ⟨entry, there, rfl⟩ := List.mem_map.mp expired
      exact late' entry there
    · obtain ⟨entry, there, rfl⟩ := List.mem_map.mp new
      exact inTime entry (Option.mem_toList.mp there)
  · intro other
    dsimp only
    have nothing : (dropped.map fun e => (e.1, Outcome.expired e.2)).filterMap (takenBy other) = [] := by
      rw [List.filterMap_map]
      exact List.filterMap_eq_nil_iff.mpr fun _ _ => rfl
    rw [Record.settled_settleAll, takenOutcomes, List.filterMap_append, List.filterMap_append, nothing,
      List.nil_append, sound.each other, List.append_assoc]
    congr 1
    rcases eq_or_ne other worker with rfl | differ
    · rw [free, Function.update_self]
      cases taken with
      | none => rfl
      | some e => simp [takenBy]
    · rw [Function.update_of_ne differ]
      cases taken with
      | none => simp
      | some e => simp [takenBy, differ.symm]
  · exact sound.effects

theorem Sound.taskCallback (sound : Sound realProcessMsg s) {worker : κ} {task : Message μ}
    (runs : s.current worker = some task) (sendMsg : Int) :
    ∃ s', taskCallback s worker (realProcessMsg sendMsg) = some s' ∧ Sound realProcessMsg s' := by
  refine ⟨_, by rw [TaskServer.taskCallback, runs, Option.map_some], ?_⟩
  constructor
  · exact sound.inOrder
  · exact sound.fair
  · intro other
    have each := sound.each other
    dsimp only
    rcases eq_or_ne other worker with rfl | differ
    · rw [runs] at each
      rw [each, Function.update_self, Function.update_self, List.map_append, Option.toList_none,
        List.append_nil]
      rfl
    · rw [each, Function.update_of_ne differ, Function.update_of_ne differ]
  · intro other done member
    dsimp only at member
    rcases eq_or_ne other worker with rfl | differ
    · rw [Function.update_self, List.mem_append, List.mem_singleton] at member
      rcases member with old | rfl
      · exact sound.effects other done old
      · exact ⟨sendMsg, rfl⟩
    · rw [Function.update_of_ne differ] at member
      exact sound.effects other done member

/-- Every permitted step is possible and keeps what holds. -/
theorem Sound.step (sound : Sound realProcessMsg s) {label : Label μ κ} (allowed : Allowed s label) :
    ∃ s', step timeout realProcessMsg s label = some s' ∧ Sound realProcessMsg s' := by
  cases label with
  | processMsg now msg => exact ⟨_, rfl, sound.processMsg now msg⟩
  | popValidTask worker clock => exact ⟨_, rfl, sound.popValidTask allowed clock⟩
  | taskCallback worker sendMsg =>
      obtain ⟨task, runs⟩ := Option.ne_none_iff_exists'.mp allowed
      exact sound.taskCallback runs sendMsg

/-- The messages that no worker has taken or dropped have all been looked at when a worker finds
nothing to take. -/
theorem taskQueue_popValidTask {worker : κ} {clock : Nat → Nat}
    (nothing : (popValidTask s worker clock).current worker = none) :
    (popValidTask s worker clock).taskQueue = [] := by
  have none' : (takeValid late clock s.taskQueue).2.1 = none := by
    have updated : (popValidTask s worker clock).current worker =
        (takeValid late clock s.taskQueue).2.1.map Prod.fst := Function.update_self ..
    rwa [updated, Option.map_eq_none_iff] at nothing
  exact takeValid_none none'

end Workers

/-! ## The thrift server -/

/-- What the server does with a message and its connection. -/
inductive Event where
  | freed
  | closed
  | sent (bytes : List UInt8)
  deriving DecidableEq

/-- `RealProcessMsg`. The processor reads behind the four bytes of the length; it throws, or it leaves
the bytes of an answer in the transport. -/
def realProcessMsg (process : List UInt8 → Option (List UInt8)) (sendMsg : Int)
    (msg : List UInt8) : List Event :=
  match process (msg.drop 4) with
  | none => [.freed, .closed]
  | some reply =>
      .freed :: if reply = [] then []
        else .sent reply :: if sendMsg ≠ 0 then [.closed] else []

/-- Every message is freed once, and there is one answer at most. -/
theorem realProcessMsg_once (process : List UInt8 → Option (List UInt8)) (sendMsg : Int)
    (msg : List UInt8) :
    (realProcessMsg process sendMsg msg).count .freed = 1 ∧
      ∀ bytes ∈ process (msg.drop 4), bytes ≠ [] →
        ∃ rest, realProcessMsg process sendMsg msg = .freed :: .sent bytes :: rest ∧
          ∀ e ∈ rest, e = .closed := by
  unfold realProcessMsg
  cases processed : process (msg.drop 4) with
  | none => exact ⟨rfl, fun bytes member => by cases member⟩
  | some reply =>
      constructor
      · dsimp only
        split <;> [rfl; (split <;> rfl)]
      · intro bytes member some'
        obtain rfl := Option.some.inj member
        dsimp only
        rw [if_neg some']
        refine ⟨_, rfl, fun e member => ?_⟩
        split at member
        · exact List.mem_singleton.mp member
        · exact absurd member List.not_mem_nil

/-- However many workers there are, every message is dropped once because it is too old, or processed
once by one of them, the messages are taken in the order in which they came, and each that was processed
was freed once. -/
theorem thrift_run_sound {κ : Type} [DecidableEq κ] (process : List UInt8 → Option (List UInt8))
    (timeout : Int) (labels : List (Label (List UInt8) κ))
    (allowed : Meets (step timeout (realProcessMsg process)) Allowed (.initial _ _ _) labels) :
    ∃ s, exec (step timeout (realProcessMsg process)) (.initial _ _ _) labels = some s ∧
      Sound (realProcessMsg process) s ∧
      ∀ worker, ∀ done ∈ s.processed worker, done.2.count .freed = 1 := by
  obtain ⟨s, ran, sound⟩ := exec_progress (fun _ _ sound can => Sound.step sound can)
    Sound.initial allowed
  refine ⟨s, ran, sound, fun worker done member => ?_⟩
  obtain ⟨sendMsg, effects⟩ := sound.effects worker done member
  rw [effects]
  exact (realProcessMsg_once process sendMsg done.1.args).1

/-- Two workers and three messages, the second of which waits for too long. -/
def twoWorkers : List (Label (List UInt8) Bool) :=
  [.processMsg 10 [0, 0, 0, 1, 7], .processMsg 11 [0, 0, 0, 1, 8], .popValidTask true fun _ => 12,
    .processMsg 40 [0, 0, 0, 1, 9], .popValidTask false fun i => 41 + i, .taskCallback false 0,
    .taskCallback true (-1), .popValidTask true fun _ => 50]

theorem thrift_twoWorkers_sound :
    ∃ s, exec (step 5 (realProcessMsg some)) (.initial _ _ _) twoWorkers = some s ∧
      Sound (realProcessMsg some) s ∧
      ∀ worker, ∀ done ∈ s.processed worker, done.2.count .freed = 1 :=
  thrift_run_sound some 5 twoWorkers (by decide)

end MlsImgSearch.Blitz.TaskServer
