import Mathlib.Data.List.Basic
import MlsImgSearch.Blitz2.HalfDuplexService
import MlsImgSearch.Lib.Run

/-!
# Queries to a pool of services

A query goes to a service that a selector gives. If it fails before its time is
over, it is issued again, by the callback of the query that failed.
-/

namespace MlsImgSearch.Blitz2.ServicePool

open Lib.Run
open HalfDuplexService (QueryResult)

/-! ## The selector -/

/-- A node; its position is its id, and its item is the number of a service. -/
structure SelectNode where
  item : Nat
  weight : Int
  mark : Int
  deriving DecidableEq

structure RandomSelector where
  nodes : List SelectNode
  curnodeUsedCount : Nat
  selectIdx : Nat
  valid : selectIdx ≤ nodes.length - 1

def RandomSelector.initial : RandomSelector := ⟨[], 0, 0, le_refl 0⟩

def addItem (s : RandomSelector) (item : Nat) (weight : Int) : RandomSelector :=
  { s with
    nodes := s.nodes ++ [⟨item, weight, 100⟩]
    valid := by
      have := s.valid
      rw [List.length_append, List.length_singleton]
      omega }

/-- The first node behind the selected one with a good mark, in the order of the ring. -/
def markedIdx (s : RandomSelector) : Option Nat :=
  ((List.range (s.nodes.length - 1)).map fun k => (s.selectIdx + 1 + k) % s.nodes.length).find?
    fun idx => s.nodes[idx]?.any fun node => decide (0 < node.mark)

def nextIdx (s : RandomSelector) : Nat :=
  (markedIdx s).getD ((s.selectIdx + 1) % s.nodes.length)

theorem nextIdx_lt (s : RandomSelector) (nonempty : ¬ s.nodes.length = 0) :
    nextIdx s < s.nodes.length := by
  have positive : 0 < s.nodes.length := Nat.pos_of_ne_zero nonempty
  unfold nextIdx
  cases marked : markedIdx s with
  | none => exact Nat.mod_lt _ positive
  | some idx =>
      obtain ⟨k, -, rfl⟩ := List.mem_map.mp (List.mem_of_find?_eq_some marked)
      exact Nat.mod_lt _ positive

/-- `none` leaves the result as it was. -/
def select (s : RandomSelector) : Option (SelectNode × RandomSelector) :=
  if nonempty : s.nodes.length = 0 then none
  else
    let node := s.nodes.get ⟨s.selectIdx, by have := s.valid; omega⟩
    if 0 < node.mark ∧ (s.curnodeUsedCount : Int) < node.weight then
      some (node, { s with curnodeUsedCount := s.curnodeUsedCount + 1 })
    else
      some (s.nodes.get ⟨nextIdx s, nextIdx_lt s nonempty⟩,
        { s with
          curnodeUsedCount := 1
          selectIdx := nextIdx s
          valid := by have := nextIdx_lt s nonempty; omega })

def selectById (s : RandomSelector) (id : Int) : Option SelectNode :=
  if 0 ≤ id ∧ id < s.nodes.length then s.nodes[id.toNat]? else none

def updateMark (s : RandomSelector) (id : Int) (markDelta : Int) : RandomSelector :=
  if 0 ≤ id ∧ id < s.nodes.length then
    { s with
      nodes := s.nodes.modify id.toNat fun node =>
        { node with mark := min 100 (max (-100) (node.mark + markDelta)) }
      valid := by rw [List.length_modify]; exact s.valid }
  else s

/-! ## A query -/

/-- `Query` selects a service for its key, which the selector does not look at; `QueryByService` is
for the service with an id. -/
inductive Target where
  | key
  | service (id : Int)
  deriving DecidableEq

inductive Waiting where
  /-- For the callback of the service. -/
  | service
  /-- For the task with `ErrorQueryCallback`. -/
  | task
  deriving DecidableEq

/-- A call of `Query` or `QueryByService`. `deadline` is the expire time of the first attempt and
`retries` its `retry_count`; `expireTime` and `retryCount` are those of the last attempt. `issued`
are the queries to services with the time they were issued at, `outcomes` what their callbacks got.
`refs` are the references to the message that the pool holds, and `answers` the calls of the user's
callback. -/
structure Query (Msg : Type) where
  target : Target
  deadline : Nat
  retries : Int
  expireTime : Nat
  retryCount : Int
  waiting : Option Waiting
  issued : List (Nat × Nat)
  outcomes : List (QueryResult × Option Msg)
  refs : Int
  answers : List (QueryResult × Option Msg)

variable {Msg : Type}

def callback (q : Query Msg) (result : QueryResult) (msg : Option Msg) : Query Msg :=
  { q with waiting := none, answers := q.answers ++ [(result, msg)] }

def addRef (q : Query Msg) : Query Msg := { q with refs := q.refs + 1 }

def release (q : Query Msg) : Query Msg := { q with refs := q.refs - 1 }

/-- What `Select` or `SelectById` writes into `selected`, if it does. -/
def selectFor (s : RandomSelector) : Target → Option (Nat × RandomSelector)
  | .key => (select s).map fun (node, s) => (node.item, s)
  | .service id => (selectById s id).map fun node => (node.item, s)

/-- `Query` and `QueryByService`; `none` is a call through a pointer to no service. `selected` has
no initial value: `stack` is what stands at its place. -/
def issue (s : RandomSelector) (q : Query Msg) (timeout : Nat) (stack : Option Nat) (now : Nat) :
    Option (RandomSelector × Query Msg) :=
  match selectFor s q.target with
  | some (item, s) =>
      some (s, { addRef q with
        expireTime := now + timeout
        waiting := some .service
        issued := q.issued ++ [(item, now)] })
  | none =>
      match stack with
      | none => some (s, { q with waiting := some .task })
      | some _ => none

/-- `MyQueryCallback` and `MyQueryByServiceCallback`; `curTime` and `now` are two reads of the
clock, and the time that is left is passed as a `uint32_t`. -/
def myQueryCallback (s : RandomSelector) (q : Query Msg) (result : QueryResult) (msg : Option Msg)
    (curTime now : Nat) (stack : Option Nat) : Option (RandomSelector × Query Msg) :=
  if result = .success then some (s, callback (release q) result msg)
  else if curTime < q.expireTime ∧ 0 < q.retryCount then
    (issue s { q with retryCount := q.retryCount - 1 } ((q.expireTime - curTime) % 2 ^ 32) stack
      now).map fun (s, q) => (s, release q)
  else some (s, callback (release q) result msg)

def errorQueryCallback (q : Query Msg) : Query Msg := callback q .failSelectService none

/-! ## Steps -/

structure Pool (Msg : Type) where
  selector : RandomSelector
  queries : List (Query Msg)
  fault : Bool

inductive Event (Msg : Type) where
  | query (target : Target) (timeout : Nat) (retries : Int) (now : Nat) (stack : Option Nat)
  | result (i : Nat) (result : QueryResult) (msg : Option Msg) (curTime now : Nat)
      (stack : Option Nat)
  | task (i : Nat)
  | addService (item : Nat) (weight : Int)
  | updateMark (id : Int) (markDelta : Int)

def newQuery (target : Target) (timeout : Nat) (retries : Int) (now : Nat) : Query Msg :=
  ⟨target, now + timeout, retries, 0, retries, none, [], [], 0, []⟩

def waitingFor (p : Pool Msg) (i : Nat) (waiting : Waiting) : Option (Query Msg) :=
  p.queries[i]?.filter fun q => decide (q.waiting = some waiting)

def handleEvent (p : Pool Msg) : Event Msg → Option (Pool Msg)
  | .query target timeout retries now stack =>
      let q := newQuery target timeout retries now
      some (match issue p.selector q timeout stack now with
        | none => { p with fault := true }
        | some (s, q) => { p with selector := s, queries := p.queries ++ [q] })
  | .result i result msg curTime now stack =>
      (waitingFor p i .service).map fun q =>
        let q := { q with waiting := none, outcomes := q.outcomes ++ [(result, msg)] }
        match myQueryCallback p.selector q result msg curTime now stack with
        | none => { p with fault := true }
        | some (s, q) => { p with selector := s, queries := p.queries.set i q }
  | .task i =>
      (waitingFor p i .task).map fun q =>
        { p with queries := p.queries.set i (errorQueryCallback q) }
  | .addService item weight => some { p with selector := addItem p.selector item weight }
  | .updateMark id markDelta => some { p with selector := updateMark p.selector id markDelta }

/-- Nothing runs after a fault. -/
def step (p : Pool Msg) (event : Event Msg) : Option (Pool Msg) :=
  if p.fault then none else handleEvent p event

def Pool.initial (s : RandomSelector) : Pool Msg := ⟨s, [], false⟩

/-! ## What is wanted -/

def Failed (outcome : QueryResult × Option Msg) : Prop := outcome.1 ≠ .success

/-- The user gets the last outcome, or that no service was selected, and all outcomes before it are
failures. -/
def Delivers (outcomes : List (QueryResult × Option Msg)) (answer : QueryResult × Option Msg) :
    Prop :=
  (∃ earlier, outcomes = earlier ++ [answer] ∧ ∀ o ∈ earlier, Failed o) ∨
    (answer = (.failSelectService, none) ∧ ∀ o ∈ outcomes, Failed o)

structure AnsweredOnce (q : Query Msg) : Prop where
  answers : q.answers.length = if q.waiting = none then 1 else 0
  outcomes : q.outcomes.length + (if q.waiting = some .service then 1 else 0) = q.issued.length
  issued : (q.issued.length : Int) ≤ q.retries + 1
  inTime : ∀ query ∈ q.issued, query.2 ≤ q.deadline
  delivers : ∀ answer ∈ q.answers, Delivers q.outcomes answer
  refs : q.refs = if q.waiting = some .service then 1 else 0

structure Correct (p : Pool Msg) : Prop where
  fault : p.fault = false
  queries : ∀ q ∈ p.queries, AnsweredOnce q

/-- A service can be selected, or the place of `selected` held a null pointer. -/
def Selects (s : RandomSelector) (stack : Option Nat) : Target → Prop
  | .key => s.nodes ≠ [] ∨ stack = none
  | .service id => (0 ≤ id ∧ id < s.nodes.length) ∨ stack = none

instance decidableSelects (s : RandomSelector) (stack : Option Nat) :
    ∀ target, Decidable (Selects s stack target)
  | .key => inferInstanceAs (Decidable (_ ∨ _))
  | .service _ => inferInstanceAs (Decidable (_ ∨ _))

/-- The retry count is not negative, a selection does not read an arbitrary pointer, and the clock
does not go on between its two reads before a retry. -/
def Allowed (p : Pool Msg) : Event Msg → Prop
  | .query target _ retries _ stack => 0 ≤ retries ∧ Selects p.selector stack target
  | .result i result _ curTime now stack =>
      ∀ q ∈ p.queries[i]?, result ≠ .success → curTime < q.expireTime → 0 < q.retryCount →
        now ≤ curTime ∧ Selects p.selector stack q.target
  | .task _ => True
  | .addService _ _ => True
  | .updateMark _ _ => True

instance decidableAllowed (p : Pool Msg) : ∀ event, Decidable (Allowed p event)
  | .query _ _ _ _ _ => inferInstanceAs (Decidable (_ ∧ _))
  | .result i _ _ _ _ _ => inferInstanceAs (Decidable (∀ q ∈ p.queries[i]?, _))
  | .task _ => isTrue trivial
  | .addService _ _ => isTrue trivial
  | .updateMark _ _ => isTrue trivial

/-! ## One query -/

/-- A query that was not answered, with the attempts whose outcome is open and those it may still
make before the next retry. -/
structure Unanswered (q : Query Msg) (pending : Nat) (attempts : Int) : Prop where
  answers : q.answers = []
  retryCount : 0 ≤ q.retryCount
  issued : q.issued.length + attempts + q.retryCount ≤ q.retries + 1
  outcomes : q.outcomes.length + pending = q.issued.length
  failed : ∀ o ∈ q.outcomes, Failed o
  inTime : ∀ query ∈ q.issued, query.2 ≤ q.deadline

/-- A query between two events. -/
def Sound (q : Query Msg) : Prop :=
  match q.waiting with
  | none => AnsweredOnce q
  | some .service => Unanswered q 1 0 ∧ q.expireTime ≤ q.deadline ∧ q.refs = 1
  | some .task => Unanswered q 0 0 ∧ q.refs = 0

section Query

variable {s : RandomSelector} {q : Query Msg}

theorem Unanswered.release {pending : Nat} {attempts : Int}
    (unanswered : Unanswered q pending attempts) : Unanswered (release q) pending attempts :=
  ⟨unanswered.answers, unanswered.retryCount, unanswered.issued, unanswered.outcomes,
    unanswered.failed, unanswered.inTime⟩

theorem Sound.answeredOnce (sound : Sound q) : AnsweredOnce q := by
  unfold Sound at sound
  split at sound
  · exact sound
  · rename_i waits
    obtain ⟨unanswered, -, refs⟩ := sound
    refine ⟨by simp [waits, unanswered.answers], by simpa [waits] using unanswered.outcomes, ?_,
      unanswered.inTime, by simp [unanswered.answers], by simpa [waits] using refs⟩
    have := unanswered.issued
    have := unanswered.retryCount
    omega
  · rename_i waits
    obtain ⟨unanswered, refs⟩ := sound
    refine ⟨by simp [waits, unanswered.answers], by simpa [waits] using unanswered.outcomes, ?_,
      unanswered.inTime, by simp [unanswered.answers], by simpa [waits] using refs⟩
    have := unanswered.issued
    have := unanswered.retryCount
    omega

/-- The outcome that a query ends with. -/
theorem callback_sound (unanswered : Unanswered q 1 0) (refs : q.refs = 1) (result : QueryResult)
    (msg : Option Msg) :
    Sound (callback (release { q with
      waiting := none, outcomes := q.outcomes ++ [(result, msg)] }) result msg) := by
  refine AnsweredOnce.mk ?_ ?_ ?_ unanswered.inTime ?_ ?_
  · simp [callback, release, unanswered.answers]
  · simpa [callback, release] using unanswered.outcomes
  · have := unanswered.issued
    have := unanswered.retryCount
    simp only [callback, release]
    omega
  · intro answer member
    have last : answer = (result, msg) := by
      simpa [callback, release, unanswered.answers] using member
    exact Or.inl ⟨q.outcomes, by rw [last]; rfl, unanswered.failed⟩
  · simp [callback, release, refs]

theorem errorQueryCallback_sound (unanswered : Unanswered q 0 0) (refs : q.refs = 0) :
    Sound (errorQueryCallback q) := by
  refine AnsweredOnce.mk ?_ ?_ ?_ unanswered.inTime ?_ ?_
  · simp [errorQueryCallback, callback, unanswered.answers]
  · simpa [errorQueryCallback, callback] using unanswered.outcomes
  · have := unanswered.issued
    have := unanswered.retryCount
    simp only [errorQueryCallback, callback]
    omega
  · intro answer member
    have last : answer = (.failSelectService, none) := by
      simpa [errorQueryCallback, callback, unanswered.answers] using member
    exact Or.inr ⟨last, unanswered.failed⟩
  · simp [errorQueryCallback, callback, refs]

theorem selectFor_isSome {target : Target} {stack : Option Nat} (selects : Selects s stack target) :
    selectFor s target ≠ none ∨ stack = none := by
  cases target with
  | key =>
      refine selects.imp_left fun nonempty => ?_
      have positive : ¬ s.nodes.length = 0 := fun empty => nonempty (List.eq_nil_of_length_eq_zero empty)
      simp only [selectFor, select, dif_neg positive]
      split <;> simp
  | service id =>
      refine selects.imp_left fun inside => ?_
      have bound : id.toNat < s.nodes.length := by omega
      simp [selectFor, selectById, inside, bound]

/-- A query that is issued waits for its service, with one more reference, or for the task. -/
theorem issue_sound {timeout now : Nat} {stack : Option Nat} (unanswered : Unanswered q 0 1)
    (inTime : now + timeout ≤ q.deadline) (selects : Selects s stack q.target) :
    ∃ s' q', issue s q timeout stack now = some (s', q') ∧
      ((q'.waiting = some .service ∧ Unanswered q' 1 0 ∧ q'.expireTime ≤ q'.deadline ∧
          q'.refs = q.refs + 1) ∨
        (q'.waiting = some .task ∧ Unanswered q' 0 0 ∧ q'.refs = q.refs)) := by
  obtain ⟨answers, retryCount, issued, outcomes, failed, inTimes⟩ := unanswered
  unfold issue
  split
  · refine ⟨_, _, rfl, Or.inl ⟨rfl, ⟨answers, retryCount, ?_, ?_, failed, ?_⟩, inTime, rfl⟩⟩
    · simp only [addRef, List.length_append, List.length_singleton]
      push_cast
      omega
    · simp only [addRef, List.length_append, List.length_singleton]
      omega
    · intro query member
      rcases List.mem_append.mp member with old | new
      · exact inTimes query old
      · rw [List.mem_singleton.mp new]
        exact le_trans (Nat.le_add_right now timeout) inTime
  · rename_i none'
    have empty : stack = none := (selectFor_isSome selects).resolve_left (not_not.mpr none')
    rw [empty]
    exact ⟨_, _, rfl, Or.inr ⟨rfl, ⟨answers, retryCount, by simp only; omega, outcomes, failed,
      inTimes⟩, rfl⟩⟩

theorem myQueryCallback_sound {result : QueryResult} (msg : Option Msg) {curTime now : Nat}
    {stack : Option Nat} (unanswered : Unanswered q 1 0) (inTime : q.expireTime ≤ q.deadline)
    (refs : q.refs = 1)
    (retried : result ≠ .success → curTime < q.expireTime → 0 < q.retryCount →
      now ≤ curTime ∧ Selects s stack q.target) :
    ∃ s' q', Sound q' ∧ myQueryCallback s { q with
      waiting := none, outcomes := q.outcomes ++ [(result, msg)] } result msg curTime now stack =
        some (s', q') := by
  unfold myQueryCallback
  split
  · exact ⟨_, _, callback_sound unanswered refs result msg, rfl⟩
  · rename_i failure
    split
    · rename_i retry
      obtain ⟨still, selects⟩ := retried failure retry.1 retry.2
      have again : Unanswered { q with
          waiting := none, outcomes := q.outcomes ++ [(result, msg)],
          retryCount := q.retryCount - 1 } 0 1 := by
        refine ⟨unanswered.answers, Int.sub_nonneg_of_le retry.2, ?_, ?_, ?_, unanswered.inTime⟩
        · have := unanswered.issued
          simp only
          omega
        · have := unanswered.outcomes
          simp only [List.length_append, List.length_singleton]
          omega
        · intro o member
          rcases List.mem_append.mp member with old | new
          · exact unanswered.failed o old
          · rw [List.mem_singleton.mp new]
            exact failure
      have left : now + (q.expireTime - curTime) % 2 ^ 32 ≤ q.deadline := by
        have := Nat.mod_le (q.expireTime - curTime) (2 ^ 32)
        have := retry.1
        simp only at this
        omega
      obtain ⟨s', q', issued, outcome⟩ := issue_sound again left selects
      refine ⟨s', release q', ?_, by rw [issued]; rfl⟩
      rcases outcome with ⟨waits, unanswered', inTime', refs'⟩ | ⟨waits, unanswered', refs'⟩
      · rw [Sound, show (release q').waiting = some .service from waits]
        exact ⟨unanswered'.release, inTime', by simp [release, refs', refs]⟩
      · rw [Sound, show (release q').waiting = some .task from waits]
        exact ⟨unanswered'.release, by simp [release, refs', refs]⟩
    · exact ⟨_, _, callback_sound unanswered refs result msg, rfl⟩

end Query

/-! ## Runs -/

section Runs

variable {p p' : Pool Msg}

structure Inv (p : Pool Msg) : Prop where
  fault : p.fault = false
  sound : ∀ q ∈ p.queries, Sound q

theorem waitingFor_some {i : Nat} {waiting : Waiting} {q : Query Msg} (inv : Inv p)
    (found : waitingFor p i waiting = some q) :
    p.queries[i]? = some q ∧ q.waiting = some waiting ∧ Sound q := by
  obtain ⟨atIndex, waits⟩ := Option.filter_eq_some_iff.mp found
  exact ⟨atIndex, by simpa using waits, inv.sound q (List.mem_of_getElem? atIndex)⟩

theorem set_inv {i : Nat} {s : RandomSelector} {q : Query Msg} (inv : Inv p) (sound : Sound q) :
    Inv { p with selector := s, queries := p.queries.set i q } := by
  refine ⟨inv.fault, fun q' member => ?_⟩
  rcases List.mem_or_eq_of_mem_set member with old | rfl
  · exact inv.sound q' old
  · exact sound

theorem step_inv {event : Event Msg} (inv : Inv p) (allowed : Allowed p event)
    (taken : step p event = some p') : Inv p' := by
  rw [step, if_neg (by simp [inv.fault])] at taken
  cases event with
  | query target timeout retries now stack =>
      obtain rfl := Option.some.inj taken
      have fresh : Unanswered (newQuery target timeout retries now : Query Msg) 0 1 := by
        refine ⟨rfl, allowed.1, ?_, rfl, by simp [newQuery], by simp [newQuery]⟩
        simp [newQuery]
        omega
      obtain ⟨s, q, issued, outcome⟩ := issue_sound fresh (le_refl _) allowed.2
      rw [issued]
      refine ⟨inv.fault, fun q' member => ?_⟩
      rcases List.mem_append.mp member with old | new
      · exact inv.sound q' old
      · rw [List.mem_singleton.mp new]
        rcases outcome with ⟨waits, unanswered, inTime, refs⟩ | ⟨waits, unanswered, refs⟩
        · rw [Sound, waits]
          exact ⟨unanswered, inTime, by rw [refs]; rfl⟩
        · rw [Sound, waits]
          exact ⟨unanswered, by rw [refs]; rfl⟩
  | result i result msg curTime now stack =>
      obtain ⟨q, found, rfl⟩ := Option.map_eq_some_iff.mp taken
      obtain ⟨atIndex, waits, sound⟩ := waitingFor_some inv found
      rw [Sound, waits] at sound
      obtain ⟨unanswered, inTime, refs⟩ := sound
      obtain ⟨s, q', sound', called⟩ := myQueryCallback_sound msg unanswered inTime refs
        (allowed q atIndex)
      simp only [called]
      exact set_inv inv sound'
  | task i =>
      obtain ⟨q, found, rfl⟩ := Option.map_eq_some_iff.mp taken
      obtain ⟨-, waits, sound⟩ := waitingFor_some inv found
      rw [Sound, waits] at sound
      exact set_inv inv (errorQueryCallback_sound sound.1 sound.2)
  | addService item weight =>
      obtain rfl := Option.some.inj taken
      exact ⟨inv.fault, inv.sound⟩
  | updateMark id markDelta =>
      obtain rfl := Option.some.inj taken
      exact ⟨inv.fault, inv.sound⟩

/-- Two services. -/
def twoServices : RandomSelector := addItem (addItem .initial 5 1) 6 1

def retryRun : List (Event Nat) :=
  [.query .key 10 1 0 none, .result 0 .connectClosed none 4 4 none,
    .result 0 .success (some 7) 6 6 none]

end Runs

end MlsImgSearch.Blitz2.ServicePool
