import MlsImgSearch.Lib.Fifo
import MlsImgSearch.Lib.Run

/-!
# The task queues of the framework's threads

Every thread of the framework has a queue that other threads push to under a mutex, and a second one
that only the thread's own loop touches: when that one is empty, the two are swapped. The labels carry
the choices of the scheduler and what the clock shows. The record of each thread keeps what was posted
to it and what became of it.
-/

namespace MlsImgSearch.Blitz.TaskQueues

open Lib.Fifo Lib.Run

/-! ## One thread -/

/-- The arguments of a task, whether it has an `fn_delete`, and its `expire_time`. -/
structure Task (α : Type) where
  args : α
  fnDelete : Bool
  expireTime : Nat
  deriving DecidableEq

/-- The callback ran although the clock showed this time, the task was too late at this time, or the
thread was dismantled first. -/
inductive Outcome where
  | called (now : Nat)
  | expired (now : Nat)
  | deleted
  deriving DecidableEq

/-- Where the thread stands: not in `Loop`, before `while(running_)`, in the event loop, before the
next task of its own queue, or in a callback since the second `start`. -/
inductive Phase where
  | outside
  | check
  | events
  | drain
  | callback (now start : Nat)
  deriving DecidableEq

/-- The members of the class; `record` and `swapped`, the number of tasks that had been posted when
the queues were swapped last, are written down beside them. -/
structure FrameworkThread (α : Type) where
  running : Bool
  taskQueue : List (Task α)
  taskQueueRunning : List (Task α)
  taskStartTime : Nat
  phase : Phase
  record : Record (Task α) Outcome
  swapped : Nat
  deriving DecidableEq

/-- The constructor. -/
def FrameworkThread.fresh (α : Type) : FrameworkThread α :=
  ⟨false, [], [], 0, .outside, .empty, 0⟩

variable {α : Type}

namespace FrameworkThread

def postTask (t : FrameworkThread α) (task : Task α) : FrameworkThread α :=
  { t with taskQueue := t.taskQueue ++ [task], record := t.record.post task }

/-- The thread begins its loop. -/
def start (t : FrameworkThread α) : FrameworkThread α :=
  { t with running := true, taskStartTime := 0, phase := .check }

/-- `Stop` only sets the flag. -/
def stop (t : FrameworkThread α) : FrameworkThread α := { t with running := false }

/-- `while(running_)`. -/
def enter (t : FrameworkThread α) : FrameworkThread α :=
  { t with phase := if t.running then .events else .outside }

/-- The event loop has returned, and the queues are swapped. -/
def swap (t : FrameworkThread α) : FrameworkThread α :=
  if t.taskQueueRunning = [] then
    { t with
      taskQueue := []
      taskQueueRunning := t.taskQueue
      phase := .drain
      swapped := t.record.posted.length }
  else { t with phase := .drain }

/-- A task whose time is over. -/
def late (now : Nat) (task : Task α) : Bool := 0 < task.expireTime && task.expireTime < now

/-- The front of the queue is deleted if it is too late, else it is called. `none` is the call of a null
pointer. -/
def takeTask (t : FrameworkThread α) (now second : Nat) : Option (FrameworkThread α) :=
  match t.taskQueueRunning with
  | [] => none
  | task :: rest =>
      if late now task then
        if task.fnDelete then
          some { t with taskQueueRunning := rest, record := t.record.settle task (.expired now) }
        else none
      else some { t with taskStartTime := second, phase := .callback now second }

/-- The callback returns. -/
def taskReturns (t : FrameworkThread α) : Option (FrameworkThread α) :=
  match t.phase, t.taskQueueRunning with
  | .callback now _, task :: rest =>
      some { t with
        taskQueueRunning := rest
        taskStartTime := 0
        phase := .drain
        record := t.record.settle task (.called now) }
  | _, _ => none

/-- The queue is empty, and the thread sleeps. -/
def drainDone (t : FrameworkThread α) : FrameworkThread α := { t with phase := .check }

/-- `Uninit` deletes what nobody has taken. -/
def uninit (t : FrameworkThread α) : FrameworkThread α :=
  { t with taskQueue := [], record := t.record.settleAll (t.taskQueue.map fun task => (task, .deleted)) }

def isTaskExecuteTimeout (t : FrameworkThread α) (timeout now : Nat) : Bool :=
  t.taskStartTime != 0 && t.taskStartTime + timeout ≤ now && 0 < t.taskStartTime

end FrameworkThread

/-! ## The framework -/

inductive Status where
  | uninit
  | init
  | start
  deriving DecidableEq

def kObjectUninit : Int := -5001

/-- `stopping` is set while `Stop` joins the threads. Beside the members stand the records of the threads
that are gone and the number of tasks that were accepted. -/
structure Framework (α : Type) where
  status : Status
  threads : List (FrameworkThread α)
  threadIter : Nat
  stopping : Bool
  gone : List (Record (Task α) Outcome)
  accepted : Nat
  deriving DecidableEq

def Framework.initial (α : Type) : Framework α := ⟨.uninit, [], 0, false, [], 0⟩

namespace Framework

/-- `delete [] threads_`: the destructors call `Uninit`. -/
def deleteThreads (f : Framework α) : Framework α :=
  { f with
    threads := []
    gone := f.gone ++ f.threads.map fun t => t.uninit.record }

def setThreadCount (f : Framework α) (count : Nat) : Option (Int × Framework α) :=
  if count = 0 then none
  else if f.status = .start then some (1, f)
  else some (0, { f.deleteThreads with threads := List.replicate count (.fresh α) })

/-- One thread is made if there is none. -/
def withThreads (f : Framework α) : Option (Framework α) :=
  if f.threads = [] then (f.setThreadCount 1).map Prod.snd else some f

def init (f : Framework α) : Option (Int × Framework α) :=
  if f.status ≠ .uninit then some (1, f)
  else f.withThreads.map fun f => (0, { f with status := .init })

/-- `none` is the failing assertion. -/
def uninit (f : Framework α) : Option (Framework α) :=
  if f.status = .start then none else some { f.deleteThreads with status := .uninit }

/-- `Start` up to its own loop. -/
def start (f : Framework α) : Option (Int × Framework α) :=
  if f.status ≠ .init then some (1, f)
  else
    f.withThreads.map fun f =>
      (0, { f with status := .start, threads := f.threads.map FrameworkThread.start })

/-- `Stop` before it joins the threads. -/
def stop (f : Framework α) : Int × Framework α :=
  if f.status ≠ .start then (1, f)
  else if f.threads = [] then (2, { f with status := .init })
  else (0, { f with stopping := true, threads := f.threads.map FrameworkThread.stop })

/-- All threads are joined. -/
def stopped (f : Framework α) : Framework α := { f with status := .init, stopping := false }

/-- `PostTask` for a given thread; `none` is the failing assertion. -/
def postTaskTo (f : Framework α) (threadNumber : Nat) (task : Task α) :
    Option (Int × Framework α) :=
  if f.threads.length ≤ threadNumber then none
  else if f.status = .uninit then some (kObjectUninit, f)
  else
    some (0, { f with
      threads := f.threads.modify threadNumber fun t => t.postTask task
      accepted := f.accepted + 1 })

/-- `PostTask` for the next thread; `none` is the division by zero. -/
def postTask (f : Framework α) (task : Task α) : Option (Int × Framework α) :=
  if f.status = .uninit then some (kObjectUninit, f)
  else if f.threads.length = 0 then none
  else
    { f with threadIter := f.threadIter + 1 }.postTaskTo (f.threadIter % f.threads.length) task

end Framework

/-- What a thread does next. -/
inductive Act where
  | enter
  | swap
  | takeTask (now second : Nat)
  | taskReturns
  | drainDone
  deriving DecidableEq

def Act.apply (t : FrameworkThread α) : Act → Option (FrameworkThread α)
  | .enter => some t.enter
  | .swap => some t.swap
  | .takeTask now second => t.takeTask now second
  | .taskReturns => t.taskReturns
  | .drainDone => some t.drainDone

/-- A call of the framework, from whatever thread, or the next action of one of its threads. -/
inductive Label (α : Type) where
  | init
  | uninit
  | setThreadCount (count : Nat)
  | start
  | stop
  | stopped
  | postTask (task : Task α)
  | postTaskTo (threadNumber : Nat) (task : Task α)
  | thread (threadNumber : Nat) (act : Act)
  deriving DecidableEq

def step (f : Framework α) : Label α → Option (Framework α)
  | .init => f.init.map Prod.snd
  | .uninit => f.uninit
  | .setThreadCount count => (f.setThreadCount count).map Prod.snd
  | .start => f.start.map Prod.snd
  | .stop => some f.stop.2
  | .stopped => some f.stopped
  | .postTask task => (f.postTask task).map Prod.snd
  | .postTaskTo threadNumber task => (f.postTaskTo threadNumber task).map Prod.snd
  | .thread threadNumber act =>
      (f.threads[threadNumber]?).bind fun t =>
        (act.apply t).map fun t' => { f with threads := f.threads.set threadNumber t' }

/-- The action is the next one of a thread that stands here. -/
def Act.Next (t : FrameworkThread α) : Act → Prop
  | .enter => t.phase = .check
  | .swap => t.phase = .events
  | .takeTask _ _ => t.phase = .drain ∧ t.taskQueueRunning ≠ []
  | .taskReturns => t.phase ≠ .outside ∧ t.phase ≠ .check ∧ t.phase ≠ .events ∧ t.phase ≠ .drain
  | .drainDone => t.phase = .drain ∧ t.taskQueueRunning = []

/-- A task with a time limit must have an `fn_delete`. -/
def Task.Deletable (task : Task α) : Prop := 0 < task.expireTime → task.fnDelete = true

/-- What the callers keep to. The threads act in the order of their program. -/
def Allowed (f : Framework α) : Label α → Prop
  | .init => True
  | .uninit => f.status ≠ .start
  | .setThreadCount count => 0 < count
  | .start => True
  | .stop => f.stopping = false
  | .stopped => f.stopping = true ∧ ∀ t ∈ f.threads, t.phase = .outside
  | .postTask task => task.Deletable
  | .postTaskTo threadNumber task => task.Deletable ∧ threadNumber < f.threads.length
  | .thread threadNumber act => ∃ t, f.threads[threadNumber]? = some t ∧ act.Next t

instance decidableNext (t : FrameworkThread α) : ∀ act : Act, Decidable (act.Next t)
  | .enter => inferInstanceAs (Decidable (t.phase = .check))
  | .swap => inferInstanceAs (Decidable (t.phase = .events))
  | .takeTask _ _ => decidable_of_iff (t.phase = .drain ∧ ¬ t.taskQueueRunning.isEmpty)
      (by simp [Act.Next])
  | .taskReturns => inferInstanceAs (Decidable
      (t.phase ≠ .outside ∧ t.phase ≠ .check ∧ t.phase ≠ .events ∧ t.phase ≠ .drain))
  | .drainDone => decidable_of_iff (t.phase = .drain ∧ t.taskQueueRunning.isEmpty)
      (by simp [Act.Next])

instance decidableAllowed (f : Framework α) : ∀ label : Label α, Decidable (Allowed f label)
  | .init => inferInstanceAs (Decidable True)
  | .uninit => inferInstanceAs (Decidable (f.status ≠ .start))
  | .setThreadCount count => inferInstanceAs (Decidable (0 < count))
  | .start => inferInstanceAs (Decidable True)
  | .stop => inferInstanceAs (Decidable (f.stopping = false))
  | .stopped => inferInstanceAs (Decidable (f.stopping = true ∧ ∀ t ∈ f.threads, t.phase = .outside))
  | .postTask task => inferInstanceAs (Decidable (0 < task.expireTime → task.fnDelete = true))
  | .postTaskTo threadNumber task => inferInstanceAs
      (Decidable ((0 < task.expireTime → task.fnDelete = true) ∧ threadNumber < f.threads.length))
  | .thread threadNumber act => decidable_of_iff
      (∃ t ∈ f.threads[threadNumber]?, act.Next t) (by simp [Allowed])

/-! ## One thread -/

/-- A task is called in time and deleted only when it is late. -/
def Fair (e : Task α × Outcome) : Prop :=
  match e.2 with
  | .called now => FrameworkThread.late now e.1 = false
  | .expired now => FrameworkThread.late now e.1 = true
  | .deleted => False

/-- What the thread's own queue holds where it stands. -/
def Phase.Fits (t : FrameworkThread α) : Phase → Prop
  | .outside => t.taskQueueRunning = []
  | .check => t.taskQueueRunning = []
  | .events => t.taskQueueRunning = []
  | .drain => True
  | .callback now _ => ∃ task rest, t.taskQueueRunning = task :: rest ∧
      FrameworkThread.late now task = false

structure ThreadInv (t : FrameworkThread α) : Prop where
  leaves : t.record.Leaves (t.taskQueueRunning ++ t.taskQueue)
  fair : ∀ e ∈ t.record.settled, Fair e
  deletable : ∀ task ∈ t.record.posted, task.Deletable
  fits : t.phase.Fits t
  idle : (∀ now start, t.phase ≠ .callback now start) → t.taskStartTime = 0
  timed : ∀ now start, t.phase = .callback now start → t.taskStartTime = start
  round : t.swapped ≤ t.record.settled.length + t.taskQueueRunning.length

namespace ThreadInv

variable {t : FrameworkThread α}

theorem fresh : ThreadInv (.fresh α) where
  leaves := Record.leaves_empty
  fair := fun e member => absurd member List.not_mem_nil
  deletable := fun task member => absurd member List.not_mem_nil
  fits := rfl
  idle := fun _ => rfl
  timed := fun now start there => by cases there
  round := Nat.le_refl 0

/-- A thread that is not in a callback. -/
theorem noCallback {phase : Phase} (stands : t.phase = phase)
    (other : ∀ now start, phase ≠ .callback now start) : ∀ now start, t.phase ≠ .callback now start :=
  fun now start same => other now start (stands ▸ same)

theorem postTask (inv : ThreadInv t) {task : Task α} (deletable : task.Deletable) :
    ThreadInv (t.postTask task) where
  leaves := by
    have posted := inv.leaves.post (x := task)
    rwa [List.append_assoc] at posted
  fair := inv.fair
  deletable := by
    intro other member
    rcases List.mem_append.mp member with old | new
    · exact inv.deletable other old
    · exact List.mem_singleton.mp new ▸ deletable
  fits := by
    have fits := inv.fits
    show Phase.Fits (t.postTask task) t.phase
    cases stands : t.phase <;> rw [stands] at fits <;> exact fits
  idle := inv.idle
  timed := inv.timed
  round := inv.round

theorem start (inv : ThreadInv t) (outside : t.phase = .outside) : ThreadInv t.start where
  leaves := inv.leaves
  fair := inv.fair
  deletable := inv.deletable
  fits := by
    have fits := inv.fits
    rwa [outside] at fits
  idle := fun _ => rfl
  timed := fun now start there => by cases there
  round := inv.round

/-- `Stop` changes nothing but the flag. -/
theorem stop (inv : ThreadInv t) : ThreadInv t.stop where
  leaves := inv.leaves
  fair := inv.fair
  deletable := inv.deletable
  fits := by
    have fits := inv.fits
    show Phase.Fits t.stop t.phase
    cases stands : t.phase <;> rw [stands] at fits <;> exact fits
  idle := inv.idle
  timed := inv.timed
  round := inv.round

theorem enter (inv : ThreadInv t) (stands : t.phase = .check) : ThreadInv t.enter where
  leaves := inv.leaves
  fair := inv.fair
  deletable := inv.deletable
  fits := by
    have fits := inv.fits
    rw [stands] at fits
    show Phase.Fits t.enter (if t.running then .events else .outside)
    split <;> exact fits
  idle := fun _ => inv.idle (noCallback stands fun _ _ => Phase.noConfusion)
  timed := fun now start there => by
    have there : (if t.running then Phase.events else .outside) = .callback now start := there
    split at there <;> cases there
  round := inv.round

theorem swap (inv : ThreadInv t) (stands : t.phase = .events) : ThreadInv t.swap := by
  have fits := inv.fits
  rw [stands] at fits
  have empty : t.taskQueueRunning = [] := fits
  have leaves := inv.leaves
  rw [empty, List.nil_append] at leaves
  rw [FrameworkThread.swap, if_pos empty]
  constructor
  · show t.record.Leaves (t.taskQueue ++ [])
    rwa [List.append_nil]
  · exact inv.fair
  · exact inv.deletable
  · exact trivial
  · exact fun _ => inv.idle (noCallback stands fun _ _ => Phase.noConfusion)
  · intro now start there
    cases there
  · exact Nat.le_of_eq leaves.length

theorem takeTask (inv : ThreadInv t) (stands : t.phase = .drain) (more : t.taskQueueRunning ≠ [])
    (now second : Nat) : ∃ t', t.takeTask now second = some t' ∧ ThreadInv t' := by
  obtain ⟨task, rest, front⟩ := List.exists_cons_of_ne_nil more
  have leaves := inv.leaves
  have round := inv.round
  rw [front] at leaves
  rw [front, List.length_cons] at round
  have posted : task ∈ t.record.posted := by
    rw [leaves]
    simp
  unfold FrameworkThread.takeTask
  rw [front]
  dsimp only
  cases isLate : FrameworkThread.late now task with
  | true =>
      have limited : 0 < task.expireTime := by
        rw [FrameworkThread.late, Bool.and_eq_true, decide_eq_true_eq] at isLate
        exact isLate.1
      rw [if_pos rfl, if_pos (inv.deletable task posted limited)]
      refine ⟨_, rfl, ?_⟩
      constructor
      · exact leaves.settle
      · exact Record.forall_settle inv.fair isLate
      · exact inv.deletable
      · show Phase.Fits _ t.phase
        rw [stands]
        exact trivial
      · exact fun _ => inv.idle (noCallback stands fun _ _ => Phase.noConfusion)
      · intro now start there
        have there : t.phase = .callback now start := there
        rw [stands] at there
        cases there
      · show t.swapped ≤ (t.record.settled ++ [(task, Outcome.expired now)]).length + rest.length
        rw [List.length_append, List.length_singleton]
        omega
  | false =>
      rw [if_neg Bool.false_ne_true]
      refine ⟨_, rfl, ?_⟩
      constructor
      · exact leaves
      · exact inv.fair
      · exact inv.deletable
      · exact ⟨task, rest, rfl, isLate⟩
      · exact fun other => absurd rfl (other now second)
      · intro now' start there
        cases there
        rfl
      · exact round

theorem taskReturns (inv : ThreadInv t) {now start : Nat} (stands : t.phase = .callback now start) :
    ∃ t', t.taskReturns = some t' ∧ ThreadInv t' := by
  have fits := inv.fits
  rw [stands] at fits
  obtain ⟨task, rest, front, inTime⟩ := fits
  have leaves := inv.leaves
  have round := inv.round
  rw [front] at leaves
  rw [front, List.length_cons] at round
  unfold FrameworkThread.taskReturns
  rw [stands, front]
  refine ⟨_, rfl, ?_⟩
  constructor
  · exact leaves.settle
  · exact Record.forall_settle inv.fair inTime
  · exact inv.deletable
  · exact trivial
  · exact fun _ => rfl
  · intro now start there
    cases there
  · show t.swapped ≤ (t.record.settled ++ [(task, Outcome.called now)]).length + rest.length
    rw [List.length_append, List.length_singleton]
    omega

theorem drainDone (inv : ThreadInv t) (stands : t.phase = .drain) (empty : t.taskQueueRunning = []) :
    ThreadInv t.drainDone where
  leaves := inv.leaves
  fair := inv.fair
  deletable := inv.deletable
  fits := empty
  idle := fun _ => inv.idle (noCallback stands fun _ _ => Phase.noConfusion)
  timed := fun now start there => by cases there
  round := inv.round

/-- The next action of a thread is possible. -/
theorem apply (inv : ThreadInv t) {act : Act} (next : act.Next t) :
    ∃ t', act.apply t = some t' ∧ ThreadInv t' := by
  cases act with
  | enter => exact ⟨_, rfl, inv.enter next⟩
  | swap => exact ⟨_, rfl, inv.swap next⟩
  | takeTask now second => exact inv.takeTask next.1 next.2 now second
  | taskReturns =>
      obtain ⟨outside, check, events, drain⟩ := next
      cases stands : t.phase with
      | callback now start => exact inv.taskReturns stands
      | outside => exact absurd stands outside
      | check => exact absurd stands check
      | events => exact absurd stands events
      | drain => exact absurd stands drain
  | drainDone => exact ⟨_, rfl, inv.drainDone next.1 next.2⟩

end ThreadInv

/-! ## The framework -/

theorem forall_set {p : FrameworkThread α → Prop} {threads : List (FrameworkThread α)}
    (all : ∀ t ∈ threads, p t) (i : Nat) {t' : FrameworkThread α} (new : p t') :
    ∀ t ∈ threads.set i t', p t := by
  intro t member
  rcases List.mem_or_eq_of_mem_set member with old | rfl
  · exact all t old
  · exact new

/-- How many tasks were posted to the threads of a list. -/
def postedTo (threads : List (FrameworkThread α)) : Nat :=
  (threads.map fun t => t.record.posted.length).sum

/-- How many tasks were posted to the threads that are gone. -/
def postedBefore (gone : List (Record (Task α) Outcome)) : Nat :=
  (gone.map fun r => r.posted.length).sum

theorem postedTo_set {threads : List (FrameworkThread α)} {i n : Nat} {t t' : FrameworkThread α}
    (there : threads[i]? = some t)
    (length : t'.record.posted.length = t.record.posted.length + n) :
    postedTo (threads.set i t') = postedTo threads + n := by
  induction threads generalizing i with
  | nil => cases there
  | cons first threads ih =>
      cases i with
      | zero =>
          obtain rfl := Option.some.inj there
          rw [List.set_cons_zero, postedTo, postedTo, List.map_cons, List.sum_cons, List.map_cons,
            List.sum_cons, length]
          omega
      | succ i =>
          have later := ih there
          rw [postedTo, postedTo] at later
          rw [List.set_cons_succ, postedTo, postedTo, List.map_cons, List.sum_cons, List.map_cons,
            List.sum_cons, later, Nat.add_assoc]

/-- A change that posts nothing. -/
theorem postedTo_map {threads : List (FrameworkThread α)}
    (change : FrameworkThread α → FrameworkThread α) (same : ∀ t, (change t).record = t.record) :
    postedTo (threads.map change) = postedTo threads := by
  rw [postedTo, postedTo, List.map_map]
  exact congrArg List.sum (List.map_congr_left fun t _ => by rw [Function.comp_apply, same])

/-- What has become of the tasks of a thread that is gone. -/
structure Finished (r : Record (Task α) Outcome) : Prop where
  complete : r.settled.map Prod.fst = r.posted
  fair : ∀ e ∈ r.settled, Fair e ∨ e.2 = .deleted

structure Inv (f : Framework α) : Prop where
  threads : ∀ t ∈ f.threads, ThreadInv t
  idle : f.status ≠ .start → ∀ t ∈ f.threads, t.phase = .outside
  count : f.status ≠ .uninit → f.threads ≠ []
  gone : ∀ r ∈ f.gone, Finished r
  accepted : f.accepted = postedTo f.threads + postedBefore f.gone
  stopping : f.stopping = true → f.status = .start

theorem ThreadInv.finished {t : FrameworkThread α} (inv : ThreadInv t) (outside : t.phase = .outside) :
    Finished t.uninit.record := by
  have fits := inv.fits
  rw [outside] at fits
  have empty : t.taskQueueRunning = [] := fits
  have leaves := inv.leaves
  rw [empty, List.nil_append] at leaves
  have settled : t.uninit.record.settled =
      t.record.settled ++ t.taskQueue.map fun task => (task, .deleted) := Record.settled_settleAll _ _
  constructor
  · rw [settled, show t.uninit.record.posted = t.record.posted from Record.posted_settleAll _ _, leaves,
      List.map_append, List.map_map]
    exact congrArg (_ ++ ·) (List.map_id _)
  · intro e member
    rw [settled] at member
    rcases List.mem_append.mp member with old | new
    · exact Or.inl (inv.fair e old)
    · obtain ⟨task, _, rfl⟩ := List.mem_map.mp new
      exact Or.inr rfl

namespace Inv

variable {f : Framework α}

theorem initial : Inv (Framework.initial α) where
  threads := fun t member => absurd member List.not_mem_nil
  idle := fun _ t member => absurd member List.not_mem_nil
  count := fun other => absurd rfl other
  gone := fun r member => absurd member List.not_mem_nil
  accepted := rfl
  stopping := fun set => by cases set

/-- The threads are deleted when they do not run. -/
theorem deleteThreads (inv : Inv f) (still : f.status ≠ .start) :
    (∀ r ∈ f.deleteThreads.gone, Finished r) ∧
      postedBefore f.deleteThreads.gone = f.accepted := by
  constructor
  · intro r member
    rcases List.mem_append.mp member with old | new
    · exact inv.gone r old
    · obtain ⟨t, there, rfl⟩ := List.mem_map.mp new
      exact (inv.threads t there).finished (inv.idle still t there)
  · have lengths : ((f.threads.map fun t => t.uninit.record).map fun r => r.posted.length).sum =
        postedTo f.threads := by
      rw [List.map_map, postedTo]
      exact congrArg List.sum (List.map_congr_left fun t _ =>
        congrArg List.length (Record.posted_settleAll _ _))
    rw [Framework.deleteThreads, postedBefore, List.map_append, List.sum_append, lengths, inv.accepted,
      postedBefore, Nat.add_comm]

theorem setThreadCount (inv : Inv f) {count : Nat} (positive : 0 < count) :
    ∃ answer, f.setThreadCount count = some answer ∧ Inv answer.2 ∧
      answer.2.status = f.status := by
  unfold Framework.setThreadCount
  rw [if_neg (Nat.pos_iff_ne_zero.mp positive)]
  by_cases runs : f.status = .start
  · rw [if_pos runs]
    exact ⟨_, rfl, inv, rfl⟩
  · obtain ⟨finished, posted⟩ := inv.deleteThreads runs
    rw [if_neg runs]
    refine ⟨_, rfl, ?_, rfl⟩
    constructor
    · intro t member
      rw [List.eq_of_mem_replicate member]
      exact ThreadInv.fresh
    · intro _ t member
      rw [List.eq_of_mem_replicate member]
      rfl
    · intro _ none'
      exact Nat.pos_iff_ne_zero.mp positive (List.replicate_eq_nil_iff _ |>.mp none')
    · exact finished
    · have nothing : postedTo (List.replicate count (.fresh α)) = 0 := by
        rw [postedTo, List.map_replicate]
        simp [FrameworkThread.fresh, Record.empty]
      show f.accepted = postedTo (List.replicate count (.fresh α)) + postedBefore f.deleteThreads.gone
      rw [nothing, posted, Nat.zero_add]
    · exact inv.stopping

theorem withThreads (inv : Inv f) (still : f.status ≠ .start) :
    ∃ g, f.withThreads = some g ∧ Inv g ∧ g.status = f.status ∧ g.threads ≠ [] := by
  unfold Framework.withThreads
  by_cases none' : f.threads = []
  · obtain ⟨answer, set, inv', status⟩ := inv.setThreadCount Nat.zero_lt_one
    rw [if_pos none', set]
    refine ⟨answer.2, rfl, inv', status, ?_⟩
    rw [Framework.setThreadCount, if_neg Nat.one_ne_zero, if_neg still] at set
    rw [← Option.some.inj set]
    exact List.cons_ne_nil _ _
  · rw [if_neg none']
    exact ⟨f, rfl, inv, rfl, none'⟩

theorem init (inv : Inv f) : ∃ answer, f.init = some answer ∧ Inv answer.2 := by
  unfold Framework.init
  by_cases fresh : f.status = .uninit
  · have stillF : f.status ≠ .start := fresh ▸ Status.noConfusion
    obtain ⟨g, made, invG, status, some'⟩ := inv.withThreads stillF
    have still : g.status ≠ .start := status ▸ stillF
    rw [if_neg (not_not.mpr fresh), made]
    refine ⟨_, rfl, ?_⟩
    constructor
    · exact invG.threads
    · exact fun _ => invG.idle still
    · exact fun _ => some'
    · exact invG.gone
    · exact invG.accepted
    · exact fun set => absurd (invG.stopping set) still
  · rw [if_pos fresh]
    exact ⟨_, rfl, inv⟩

theorem uninit (inv : Inv f) (still : f.status ≠ .start) :
    ∃ f', f.uninit = some f' ∧ Inv f' := by
  obtain ⟨finished, posted⟩ := inv.deleteThreads still
  unfold Framework.uninit
  rw [if_neg still]
  refine ⟨_, rfl, ?_⟩
  constructor
  · exact fun t member => absurd member List.not_mem_nil
  · exact fun _ t member => absurd member List.not_mem_nil
  · exact fun other => absurd rfl other
  · exact finished
  · show f.accepted = postedTo [] + postedBefore f.deleteThreads.gone
    rw [posted]
    exact (Nat.zero_add _).symm
  · exact fun set => absurd (inv.stopping set) still

theorem start (inv : Inv f) : ∃ answer, f.start = some answer ∧ Inv answer.2 := by
  unfold Framework.start
  by_cases ready : f.status = .init
  · have stillF : f.status ≠ .start := ready ▸ Status.noConfusion
    obtain ⟨g, made, invG, status, some'⟩ := inv.withThreads stillF
    rw [if_neg (not_not.mpr ready), made]
    refine ⟨_, rfl, ?_⟩
    constructor
    · intro t member
      obtain ⟨old, there, rfl⟩ := List.mem_map.mp member
      exact (invG.threads old there).start (invG.idle (status ▸ stillF) old there)
    · exact fun other => absurd rfl other
    · exact fun _ none' => some' (List.map_eq_nil_iff.mp none')
    · exact invG.gone
    · show g.accepted = postedTo (g.threads.map FrameworkThread.start) + postedBefore g.gone
      rw [postedTo_map FrameworkThread.start fun _ => rfl, invG.accepted]
    · exact fun _ => rfl
  · rw [if_pos ready]
    exact ⟨_, rfl, inv⟩

theorem stop (inv : Inv f) : Inv f.stop.2 := by
  unfold Framework.stop
  by_cases runs : f.status = .start
  · have some' : f.threads ≠ [] := inv.count (runs ▸ Status.noConfusion)
    rw [if_neg (not_not.mpr runs), if_neg some']
    constructor
    · intro t member
      obtain ⟨old, there, rfl⟩ := List.mem_map.mp member
      exact (inv.threads old there).stop
    · exact fun other => absurd runs other
    · exact fun _ none' => some' (List.map_eq_nil_iff.mp none')
    · exact inv.gone
    · show f.accepted = postedTo (f.threads.map FrameworkThread.stop) + postedBefore f.gone
      rw [postedTo_map FrameworkThread.stop fun _ => rfl, inv.accepted]
    · exact fun _ => runs
  · rw [if_pos runs]
    exact inv

theorem stopped (inv : Inv f) (set : f.stopping = true) (outside : ∀ t ∈ f.threads, t.phase = .outside) :
    Inv f.stopped where
  threads := inv.threads
  idle := fun _ => outside
  count := fun _ => inv.count (inv.stopping set ▸ Status.noConfusion)
  gone := inv.gone
  accepted := inv.accepted
  stopping := fun set => by cases set

theorem postTaskTo (inv : Inv f) {threadNumber : Nat} (bound : threadNumber < f.threads.length)
    {task : Task α} (deletable : task.Deletable) :
    ∃ answer, f.postTaskTo threadNumber task = some answer ∧ Inv answer.2 := by
  unfold Framework.postTaskTo
  rw [if_neg (Nat.not_le.mpr bound)]
  by_cases unready : f.status = .uninit
  · rw [if_pos unready]
    exact ⟨_, rfl, inv⟩
  · have there : f.threads[threadNumber]? = some f.threads[threadNumber] :=
      List.getElem?_eq_getElem bound
    have posted : f.threads.modify threadNumber (fun t => t.postTask task) =
        f.threads.set threadNumber (f.threads[threadNumber].postTask task) := by
      rw [List.modify_eq_set_get _ bound]
      rfl
    have old := List.getElem_mem bound
    rw [if_neg unready, posted]
    refine ⟨_, rfl, ?_⟩
    constructor
    · exact forall_set inv.threads threadNumber ((inv.threads _ old).postTask deletable)
    · intro still
      have outside : f.threads[threadNumber].phase = .outside := inv.idle still _ old
      exact forall_set (inv.idle still) threadNumber outside
    · intro other none'
      exact inv.count other (by rwa [List.set_eq_nil_iff] at none')
    · exact inv.gone
    · have length : (f.threads[threadNumber].postTask task).record.posted.length =
          f.threads[threadNumber].record.posted.length + 1 := List.length_append
      show f.accepted + 1 = postedTo (f.threads.set threadNumber _) + postedBefore f.gone
      rw [postedTo_set there length, inv.accepted]
      omega
    · exact inv.stopping

theorem postTask (inv : Inv f) {task : Task α} (deletable : task.Deletable) :
    ∃ answer, f.postTask task = some answer ∧ Inv answer.2 := by
  unfold Framework.postTask
  by_cases unready : f.status = .uninit
  · rw [if_pos unready]
    exact ⟨_, rfl, inv⟩
  · have positive := List.length_pos_of_ne_nil (inv.count unready)
    have same : Inv { f with threadIter := f.threadIter + 1 } :=
      ⟨inv.threads, inv.idle, inv.count, inv.gone, inv.accepted, inv.stopping⟩
    rw [if_neg unready, if_neg (Nat.pos_iff_ne_zero.mp positive)]
    exact same.postTaskTo (Nat.mod_lt _ positive) deletable

/-- A thread acts while the framework runs. -/
theorem thread (inv : Inv f) {threadNumber : Nat} {t : FrameworkThread α} {act : Act}
    (there : f.threads[threadNumber]? = some t) (next : act.Next t) :
    ∃ t', act.apply t = some t' ∧ Inv { f with threads := f.threads.set threadNumber t' } := by
  have old := List.mem_of_getElem? there
  obtain ⟨t', applied, inv'⟩ := (inv.threads t old).apply next
  have runs : f.status = .start := by
    by_contra still
    have outside := inv.idle still t old
    cases act <;> simp [Act.Next, outside] at next
  have posted : t'.record.posted = t.record.posted := by
    cases act with
    | enter => exact Option.some.inj applied ▸ rfl
    | swap =>
        rw [← Option.some.inj applied, FrameworkThread.swap]
        split <;> rfl
    | takeTask now second =>
        have applied : t.takeTask now second = some t' := applied
        unfold FrameworkThread.takeTask at applied
        split at applied
        · cases applied
        · split at applied
          · split at applied
            · exact Option.some.inj applied ▸ rfl
            · cases applied
          · exact Option.some.inj applied ▸ rfl
    | taskReturns =>
        have applied : t.taskReturns = some t' := applied
        unfold FrameworkThread.taskReturns at applied
        split at applied
        · exact Option.some.inj applied ▸ rfl
        · cases applied
    | drainDone => exact Option.some.inj applied ▸ rfl
  refine ⟨t', applied, ?_⟩
  constructor
  · exact forall_set inv.threads threadNumber inv'
  · exact fun still => absurd runs still
  · intro other none'
    exact inv.count other (by rwa [List.set_eq_nil_iff] at none')
  · exact inv.gone
  · show f.accepted = postedTo (f.threads.set threadNumber t') + postedBefore f.gone
    rw [postedTo_set (n := 0) there (congrArg List.length posted), inv.accepted, Nat.add_zero]
  · exact inv.stopping

/-- Every permitted step is possible. -/
theorem step (inv : Inv f) {label : Label α} (allowed : Allowed f label) :
    ∃ f', TaskQueues.step f label = some f' ∧ Inv f' := by
  cases label with
  | init =>
      obtain ⟨answer, ran, inv'⟩ := inv.init
      exact ⟨answer.2, by rw [TaskQueues.step, ran, Option.map_some], inv'⟩
  | uninit => exact inv.uninit allowed
  | setThreadCount count =>
      obtain ⟨answer, ran, inv', _⟩ := inv.setThreadCount allowed
      exact ⟨answer.2, by rw [TaskQueues.step, ran, Option.map_some], inv'⟩
  | start =>
      obtain ⟨answer, ran, inv'⟩ := inv.start
      exact ⟨answer.2, by rw [TaskQueues.step, ran, Option.map_some], inv'⟩
  | stop => exact ⟨_, rfl, inv.stop⟩
  | stopped => exact ⟨_, rfl, inv.stopped allowed.1 allowed.2⟩
  | postTask task =>
      obtain ⟨answer, ran, inv'⟩ := inv.postTask allowed
      exact ⟨answer.2, by rw [TaskQueues.step, ran, Option.map_some], inv'⟩
  | postTaskTo threadNumber task =>
      obtain ⟨answer, ran, inv'⟩ := inv.postTaskTo allowed.2 allowed.1
      exact ⟨answer.2, by rw [TaskQueues.step, ran, Option.map_some], inv'⟩
  | thread threadNumber act =>
      obtain ⟨t, there, next⟩ := allowed
      obtain ⟨t', applied, inv'⟩ := inv.thread there next
      exact ⟨_, by rw [TaskQueues.step, there, Option.bind_some, applied, Option.map_some], inv'⟩

end Inv

/-! ## Any run -/

/-- What the callers of the framework rely on. -/
structure Sound (f : Framework α) : Prop where
  /-- The tasks of a thread are settled in the order in which they were posted, none twice. -/
  inOrder : ∀ t ∈ f.threads,
    t.record.posted = t.record.settled.map Prod.fst ++ (t.taskQueueRunning ++ t.taskQueue)
  /-- No task is called too late, and none of a thread that is there is deleted for another reason. -/
  fair : ∀ t ∈ f.threads, ∀ e ∈ t.record.settled, Fair e
  /-- A thread that is about to look at `running_` has settled all that was posted before it swapped
  the queues. -/
  round : ∀ t ∈ f.threads, t.phase = .check → t.swapped ≤ t.record.settled.length
  /-- Only a callback that has really run for so long is reported. -/
  reported : ∀ t ∈ f.threads, ∀ timeout now, t.isTaskExecuteTimeout timeout now = true →
    ∃ called start, t.phase = .callback called start ∧ start + timeout ≤ now
  /-- When a thread is gone, everything that was posted to it was called or deleted. -/
  finished : ∀ r ∈ f.gone, Finished r
  /-- No task that was accepted is missing. -/
  accepted : f.accepted = postedTo f.threads + postedBefore f.gone

theorem Inv.sound {f : Framework α} (inv : Inv f) : Sound f := by
  constructor
  · exact fun t member => (inv.threads t member).leaves
  · exact fun t member => (inv.threads t member).fair
  · intro t member stands
    have fits := (inv.threads t member).fits
    have round := (inv.threads t member).round
    rw [stands] at fits
    have empty : t.taskQueueRunning = [] := fits
    rwa [empty] at round
  · intro t member timeout now reported
    rw [FrameworkThread.isTaskExecuteTimeout, Bool.and_eq_true, Bool.and_eq_true, bne_iff_ne,
      decide_eq_true_eq] at reported
    obtain ⟨⟨some', long⟩, _⟩ := reported
    cases stands : t.phase with
    | callback called start =>
        rw [(inv.threads t member).timed called start stands] at long
        exact ⟨called, start, rfl, long⟩
    | outside | check | events | drain =>
        refine absurd ((inv.threads t member).idle fun now start there => ?_) some'
        rw [stands] at there
        cases there
  · exact inv.gone
  · exact inv.accepted

/-- One thread that calls a task, deletes a late one and leaves one behind. -/
def oneRun : List (Label Nat) :=
  [.init, .postTaskTo 0 ⟨1, false, 0⟩, .start, .thread 0 .enter, .postTask ⟨2, true, 10⟩,
    .thread 0 .swap, .thread 0 (.takeTask 20 2), .postTaskTo 0 ⟨3, true, 50⟩, .stop,
    .thread 0 .taskReturns, .thread 0 (.takeTask 30 3), .thread 0 .drainDone, .thread 0 .enter,
    .stopped, .uninit]

end MlsImgSearch.Blitz.TaskQueues
