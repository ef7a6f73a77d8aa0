import Mathlib.Data.BitVec
import Mathlib.Data.List.Nodup
import Mathlib.Logic.Function.Basic
import MlsImgSearch.Lib.History
import MlsImgSearch.Lib.Run

/-!
# Timers and tasks of the reactor

`HandleEvents` lets libevent call the handlers of what is due and then runs the
posted tasks. User code runs inside these calls and adds and removes timers and
posts tasks in any order. A removed timer is only marked: its wrap is deleted the
next time that libevent calls its handler. Time is not modelled: any timer that
libevent holds may be due.
-/

namespace MlsImgSearch.Blitz2.Reactor

open Lib.History Lib.Run

/-! ## The code -/

/-- `uint32_t`. -/
abbrev Word := BitVec 32

/-- `TimerWrap`; the address of a wrap is the number of the `new` that made it. -/
structure TimerWrap (κ : Type) where
  id : Word
  callback : κ
  needRepeat : Bool
  removed : Bool
  deriving DecidableEq, Repr

/-- What happens to the timers. -/
inductive Note where
  | added (wrap : Nat) (id : Word) (needRepeat : Bool)
  | called (wrap : Nat)
  | removed (wrap : Nat)
  | freed (wrap : Nat)
  deriving DecidableEq, Repr

/-- `timers_` with what was allocated, the events that libevent holds, the wrap whose callback runs,
and what has happened. -/
structure Timers (κ : Type) where
  timerId : Word
  timers : List (Word × Nat)
  wraps : Nat → Option (TimerWrap κ)
  made : Nat
  scheduled : List Nat
  current : Option Nat
  history : List Note

section TimerFunctions

variable {κ : Type}

/-- `timers_.erase(id)`. -/
def erase (timers : List (Word × Nat)) (id : Word) : List (Word × Nat) :=
  timers.filter fun entry => entry.1 ≠ id

/-- `delete wrap`. -/
def deleteWrap (t : Timers κ) (wrap : Nat) : Timers κ :=
  { t with wraps := Function.update t.wraps wrap none, history := t.history ++ [.freed wrap] }

/-- `AddTimer`; the id is `0` when `timer_id_` wraps. -/
def addTimer (t : Timers κ) (callback : κ) (needRepeat : Bool) : Word × Timers κ :=
  let id := t.timerId + 1
  (id, { t with
    timerId := id
    timers := erase t.timers id ++ [(id, t.made)]
    wraps := Function.update t.wraps t.made (some ⟨id, callback, needRepeat, false⟩)
    made := t.made + 1
    scheduled := t.scheduled ++ [t.made]
    history := t.history ++ [.added t.made id needRepeat] })

/-- `RemoveTimer`; no result when the wrap is not there any more. -/
def removeTimer (t : Timers κ) (timerId : Word) : Option (Int × Timers κ) :=
  match t.timers.find? fun entry => entry.1 = timerId with
  | none => some (1, t)
  | some (_, wrap) => (t.wraps wrap).map fun w => (0, { t with
      wraps := Function.update t.wraps wrap (some { w with removed := true })
      history := t.history ++ [.removed wrap] })

/-- `HandleTimerEvent` up to the callback; libevent has taken the event out before. -/
def startTimer (t : Timers κ) (wrap : Nat) : Option (Timers κ) :=
  (t.wraps wrap).map fun w =>
    let t := { t with scheduled := t.scheduled.erase wrap }
    if w.removed then deleteWrap { t with timers := erase t.timers w.id } wrap
    else { t with current := some wrap, history := t.history ++ [.called wrap] }

/-- `HandleTimerEvent` behind the callback. -/
def finishTimer (t : Timers κ) : Option (Timers κ) :=
  t.current.bind fun wrap => (t.wraps wrap).map fun w =>
    let t := { t with current := none }
    if w.needRepeat then { t with scheduled := t.scheduled ++ [wrap] }
    else deleteWrap { t with timers := erase t.timers w.id } wrap

/-- The part of `RemoveAllEventSource` about timers. -/
def removeAllTimers (t : Timers κ) : Timers κ :=
  let gone := t.timers.map Prod.snd
  { t with
    timerId := 0
    timers := []
    wraps := fun wrap => if wrap ∈ gone then none else t.wraps wrap
    scheduled := t.scheduled.filter fun wrap => wrap ∉ gone
    history := t.history ++ gone.map Note.freed }

end TimerFunctions

/-- Where `HandleEvents` stands. -/
inductive Phase where
  | outside
  | events
  | callback
  | drain
  | task
  deriving DecidableEq, Repr

/-- The reactor; `posted` and `settled` record the tasks of all times, `settled` with whether the
task was run. -/
structure Reactor (κ τ : Type) where
  timers : Timers κ
  tasks : List τ
  phase : Phase
  posted : List τ
  settled : List (τ × Bool)

def initial (κ τ : Type) : Reactor κ τ :=
  ⟨⟨0, [], fun _ => none, 0, [], none, []⟩, [], .outside, [], []⟩

/-- What user code, libevent and `HandleEvents` itself do. -/
inductive Label (κ τ : Type) where
  | postTask (task : τ)
  | addTimer (callback : κ) (needRepeat : Bool)
  | removeTimer (timerId : Word)
  | removeAllEventSource
  | handleEvents
  | timerDue (wrap : Nat)
  | timerReturns
  | eventsDone
  | taskStarts
  | taskReturns
  | tasksDone
  deriving DecidableEq, Repr

variable {κ τ : Type}

/-- One step; there is none when memory that was freed is used or an empty queue is popped. -/
def step (r : Reactor κ τ) : Label κ τ → Option (Reactor κ τ)
  | .postTask task => some { r with tasks := r.tasks ++ [task], posted := r.posted ++ [task] }
  | .addTimer callback needRepeat =>
      some { r with timers := (addTimer r.timers callback needRepeat).2 }
  | .removeTimer timerId =>
      (removeTimer r.timers timerId).map fun answer => { r with timers := answer.2 }
  | .removeAllEventSource => some { r with
      timers := removeAllTimers r.timers
      tasks := []
      settled := r.settled ++ r.tasks.map fun task => (task, false) }
  | .handleEvents => some { r with phase := .events }
  | .timerDue wrap => (startTimer r.timers wrap).map fun t =>
      { r with timers := t, phase := if t.current = none then .events else .callback }
  | .timerReturns => (finishTimer r.timers).map fun t => { r with timers := t, phase := .events }
  | .eventsDone => some { r with phase := .drain }
  | .taskStarts =>
      match r.tasks with
      | [] => none
      | task :: _ => some { r with phase := .task, settled := r.settled ++ [(task, true)] }
  | .taskReturns =>
      match r.tasks with
      | [] => none
      | _ :: tasks => some { r with phase := .drain, tasks := tasks }
  | .tasksDone => some { r with phase := .outside }

/-- User code does not run between two tasks. -/
def Phase.isUser (p : Phase) : Bool := p != .drain

/-- When a step can happen at all, with the two conditions on user code: the sources are not all
removed inside a callback or a task, and less than 2^32 timers are added between two removals of
all sources. -/
def Allowed (r : Reactor κ τ) : Label κ τ → Prop
  | .postTask _ => r.phase.isUser
  | .addTimer _ _ => r.phase.isUser ∧ r.timers.timerId.toNat + 1 < 2 ^ 32
  | .removeTimer _ => r.phase.isUser
  | .removeAllEventSource => r.phase = .outside ∨ r.phase = .events
  | .handleEvents => r.phase = .outside
  | .timerDue wrap => r.phase = .events ∧ wrap ∈ r.timers.scheduled
  | .timerReturns => r.phase = .callback
  | .eventsDone => r.phase = .events
  | .taskStarts => r.phase = .drain ∧ r.tasks ≠ []
  | .taskReturns => r.phase = .task
  | .tasksDone => r.phase = .drain ∧ r.tasks = []

instance decidableAllowed [DecidableEq τ] (r : Reactor κ τ) :
    ∀ label : Label κ τ, Decidable (Allowed r label)
  | .postTask _ => inferInstanceAs (Decidable (r.phase.isUser = true))
  | .addTimer _ _ =>
      inferInstanceAs (Decidable (r.phase.isUser = true ∧ r.timers.timerId.toNat + 1 < 2 ^ 32))
  | .removeTimer _ => inferInstanceAs (Decidable (r.phase.isUser = true))
  | .removeAllEventSource => inferInstanceAs (Decidable (r.phase = .outside ∨ r.phase = .events))
  | .handleEvents => inferInstanceAs (Decidable (r.phase = .outside))
  | .timerDue wrap => inferInstanceAs (Decidable (r.phase = .events ∧ wrap ∈ r.timers.scheduled))
  | .timerReturns => inferInstanceAs (Decidable (r.phase = .callback))
  | .eventsDone => inferInstanceAs (Decidable (r.phase = .events))
  | .taskStarts => inferInstanceAs (Decidable (r.phase = .drain ∧ r.tasks ≠ []))
  | .taskReturns => inferInstanceAs (Decidable (r.phase = .task))
  | .tasksDone => inferInstanceAs (Decidable (r.phase = .drain ∧ r.tasks = []))

/-! ## What has happened to the timers -/

/-- The history fits the wraps that are there and the callback that runs. -/
structure Recorded (wraps : Nat → Option (TimerWrap κ)) (made : Nat) (current : Option Nat)
    (history : List Note) : Prop where
  quiet : ∀ wrap, NeverAfter (.removed wrap) (.called wrap) history
  freedOnce : ∀ wrap, NeverAfter (.freed wrap) (.freed wrap) history
  freedQuiet : ∀ wrap, NeverAfter (.freed wrap) (.called wrap) history
  marked : ∀ wrap w, wraps wrap = some w → .removed wrap ∈ history → w.removed = true
  gone : ∀ wrap, .freed wrap ∈ history ↔ wrap < made ∧ wraps wrap = none
  kind : ∀ wrap w, wraps wrap = some w → ∀ id needRepeat,
    .added wrap id needRepeat ∈ history → needRepeat = w.needRepeat
  old : ∀ wrap, made ≤ wrap → wraps wrap = none ∧ .called wrap ∉ history ∧ .removed wrap ∉ history ∧
    ∀ id needRepeat, .added wrap id needRepeat ∉ history
  single : ∀ wrap id, .added wrap id false ∈ history →
    history.count (.called wrap) ≤ if wraps wrap ≠ none ∧ current ≠ some wrap then 0 else 1

namespace Recorded

variable {wraps : Nat → Option (TimerWrap κ)} {made wrap : Nat} {current : Option Nat}
  {history : List Note} {w : TimerWrap κ}

theorem start : Recorded (fun _ => none : Nat → Option (TimerWrap κ)) 0 none [] where
  quiet _ := neverAfter_nil
  freedOnce _ := neverAfter_nil
  freedQuiet _ := neverAfter_nil
  marked _ _ found := absurd found (by simp)
  gone wrap := iff_of_false List.not_mem_nil fun both => Nat.not_lt_zero wrap both.1
  kind _ _ found := absurd found (by simp)
  old _ _ := ⟨rfl, List.not_mem_nil, List.not_mem_nil, fun _ _ => List.not_mem_nil⟩
  single _ _ member := absurd member List.not_mem_nil

/-- A new wrap has no past. -/
theorem add (rec' : Recorded wraps made current history) (none' : current ≠ some made) (id : Word)
    (callback : κ) (needRepeat : Bool) :
    Recorded (Function.update wraps made (some ⟨id, callback, needRepeat, false⟩)) (made + 1) current
      (history ++ [.added made id needRepeat]) := by
  obtain ⟨_, noCall, noRemoval, noAdded⟩ := rec'.old made (Nat.le_refl made)
  constructor
  · exact fun wrap => (rec'.quiet wrap).other (by simp)
  · exact fun wrap => (rec'.freedOnce wrap).other (by simp)
  · exact fun wrap => (rec'.freedQuiet wrap).other (by simp)
  · intro wrap w found member
    rw [List.mem_append, List.mem_singleton] at member
    have past : Note.removed wrap ∈ history := member.resolve_right (by simp)
    have differ : wrap ≠ made := fun same => noRemoval (same ▸ past)
    rw [Function.update_of_ne differ] at found
    exact rec'.marked wrap w found past
  · intro wrap
    rw [List.mem_append, List.mem_singleton, rec'.gone wrap]
    rcases eq_or_ne wrap made with rfl | differ
    · simp
    · rw [Function.update_of_ne differ]
      simp only [reduceCtorEq, or_false]
      refine and_congr_left fun _ => ?_
      omega
  · intro wrap w found id' needRepeat' member
    rw [List.mem_append, List.mem_singleton] at member
    rcases eq_or_ne wrap made with rfl | differ
    · rw [Function.update_self] at found
      obtain rfl := Option.some.inj found
      have same := member.resolve_left (noAdded id' needRepeat')
      exact (Note.added.inj same).2.2
    · rw [Function.update_of_ne differ] at found
      refine rec'.kind wrap w found id' needRepeat' (member.resolve_right fun same => ?_)
      exact differ (Note.added.inj same).1
  · intro wrap beyond
    obtain ⟨absent, calls, removals, additions⟩ := rec'.old wrap (by omega)
    refine ⟨?_, ?_, ?_, fun id' needRepeat' => ?_⟩
    · rw [Function.update_of_ne (by omega), absent]
    · simpa using calls
    · simpa using removals
    · simp only [List.mem_append, List.mem_singleton, Note.added.injEq, not_or]
      exact ⟨additions id' needRepeat', fun same => absurd same.1 (by omega)⟩
  · intro wrap id' member
    rw [count_concat_of_ne (by simp)]
    rcases eq_or_ne wrap made with rfl | differ
    · rw [List.count_eq_zero.mpr noCall]
      exact Nat.zero_le _
    · rw [Function.update_of_ne differ]
      rw [List.mem_append, List.mem_singleton] at member
      refine rec'.single wrap id' (member.resolve_right fun same => ?_)
      exact differ (Note.added.inj same).1

/-- `SetRemoved`. -/
theorem mark (rec' : Recorded wraps made current history) (found : wraps wrap = some w) :
    Recorded (Function.update wraps wrap (some { w with removed := true })) made current
      (history ++ [.removed wrap]) := by
  have young : ¬ made ≤ wrap := fun old => by
    rw [(rec'.old wrap old).1] at found
    cases found
  constructor
  · exact fun other => (rec'.quiet other).other (by simp)
  · exact fun other => (rec'.freedOnce other).other (by simp)
  · exact fun other => (rec'.freedQuiet other).other (by simp)
  · intro other w' found' member
    rcases eq_or_ne other wrap with rfl | differ
    · rw [Function.update_self] at found'
      obtain rfl := Option.some.inj found'
      rfl
    · rw [Function.update_of_ne differ] at found'
      rw [List.mem_append, List.mem_singleton, Note.removed.injEq] at member
      exact rec'.marked other w' found' (member.resolve_right differ)
  · intro other
    rw [List.mem_append, List.mem_singleton, rec'.gone other]
    rcases eq_or_ne other wrap with rfl | differ
    · simp [found]
    · simp [Function.update_of_ne differ]
  · intro other w' found' id needRepeat member
    have past : Note.added other id needRepeat ∈ history := by simpa using member
    rcases eq_or_ne other wrap with rfl | differ
    · rw [Function.update_self] at found'
      obtain rfl := Option.some.inj found'
      exact rec'.kind other w found id needRepeat past
    · rw [Function.update_of_ne differ] at found'
      exact rec'.kind other w' found' id needRepeat past
  · intro other beyond
    obtain ⟨absent, calls, removals, additions⟩ := rec'.old other beyond
    have differ : other ≠ wrap := fun same => young (same ▸ beyond)
    refine ⟨?_, by simpa using calls, ?_, fun id needRepeat => by simpa using additions id needRepeat⟩
    · rw [Function.update_of_ne differ, absent]
    · simp only [List.mem_append, List.mem_singleton, Note.removed.injEq, not_or]
      exact ⟨removals, differ⟩
  · intro other id member
    have past : Note.added other id false ∈ history := by simpa using member
    have bound := rec'.single other id past
    rw [count_concat_of_ne (by simp)]
    rcases eq_or_ne other wrap with rfl | differ
    · simpa [found] using bound
    · simpa [Function.update_of_ne differ] using bound

/-- The callback of a wrap that is not marked is called. -/
theorem call (rec' : Recorded wraps made none history) (found : wraps wrap = some w)
    (unmarked : w.removed = false) :
    Recorded wraps made (some wrap) (history ++ [.called wrap]) := by
  have notRemoved : Note.removed wrap ∉ history := fun member => by
    have marked := rec'.marked wrap w found member
    rw [unmarked] at marked
    cases marked
  have notFreed : Note.freed wrap ∉ history := fun member => by
    have absent := ((rec'.gone wrap).mp member).2
    rw [found] at absent
    cases absent
  have young : ¬ made ≤ wrap := fun old => by
    rw [(rec'.old wrap old).1] at found
    cases found
  constructor
  · intro other
    rcases eq_or_ne other wrap with rfl | differ
    · exact (rec'.quiet other).last notRemoved
    · exact (rec'.quiet other).other (by simpa using differ.symm)
  · exact fun other => (rec'.freedOnce other).other (by simp)
  · intro other
    rcases eq_or_ne other wrap with rfl | differ
    · exact (rec'.freedQuiet other).last notFreed
    · exact (rec'.freedQuiet other).other (by simpa using differ.symm)
  · exact fun other w' found' member => rec'.marked other w' found' (by simpa using member)
  · exact fun other => by simpa using rec'.gone other
  · exact fun other w' found' id needRepeat member =>
      rec'.kind other w' found' id needRepeat (by simpa using member)
  · intro other beyond
    obtain ⟨absent, calls, removals, additions⟩ := rec'.old other beyond
    refine ⟨absent, ?_, by simpa using removals,
      fun id needRepeat => by simpa using additions id needRepeat⟩
    simp only [List.mem_append, List.mem_singleton, Note.called.injEq, not_or]
    exact ⟨calls, fun same => young (same ▸ beyond)⟩
  · intro other id member
    have bound := rec'.single other id (by simpa using member)
    rw [List.count_append, List.count_singleton]
    rcases eq_or_ne other wrap with rfl | differ
    · rw [if_pos ⟨by rw [found]; exact Option.some_ne_none w, by simp⟩] at bound
      simp only [ne_eq, not_true_eq_false, and_false, if_false, beq_self_eq_true, if_true]
      omega
    · have apart : (Note.called wrap == Note.called other) = false := by simpa using differ.symm
      rw [apart, if_neg Bool.false_ne_true, Nat.add_zero]
      simpa [differ.symm] using bound

/-- `delete wrap`, whatever callback runs then. -/
theorem free (rec' : Recorded wraps made current history) (found : wraps wrap = some w)
    (current' : Option Nat) (runs : ∀ other, wraps other ≠ none → current' ≠ some other →
      other ≠ wrap → current ≠ some other) :
    Recorded (Function.update wraps wrap none) made current' (history ++ [.freed wrap]) := by
  have notFreed : Note.freed wrap ∉ history := fun member => by
    have absent := ((rec'.gone wrap).mp member).2
    rw [found] at absent
    cases absent
  have young : wrap < made := by
    by_contra old
    rw [(rec'.old wrap (Nat.le_of_not_lt old)).1] at found
    cases found
  constructor
  · exact fun other => (rec'.quiet other).other (by simp)
  · intro other
    rcases eq_or_ne other wrap with rfl | differ
    · exact (rec'.freedOnce other).last notFreed
    · exact (rec'.freedOnce other).other (by simpa using differ.symm)
  · exact fun other => (rec'.freedQuiet other).other (by simp)
  · intro other w' found' member
    have differ : other ≠ wrap := by
      rintro rfl
      rw [Function.update_self] at found'
      cases found'
    rw [Function.update_of_ne differ] at found'
    exact rec'.marked other w' found' (by simpa using member)
  · intro other
    rw [List.mem_append, List.mem_singleton, rec'.gone other, Note.freed.injEq]
    rcases eq_or_ne other wrap with rfl | differ
    · simp [young]
    · simp [differ]
  · intro other w' found' id needRepeat member
    have differ : other ≠ wrap := by
      rintro rfl
      rw [Function.update_self] at found'
      cases found'
    rw [Function.update_of_ne differ] at found'
    exact rec'.kind other w' found' id needRepeat (by simpa using member)
  · intro other beyond
    obtain ⟨absent, calls, removals, additions⟩ := rec'.old other beyond
    refine ⟨?_, by simpa using calls, by simpa using removals,
      fun id needRepeat => by simpa using additions id needRepeat⟩
    rw [Function.update_of_ne (by omega), absent]
  · intro other id member
    have bound := rec'.single other id (by simpa using member)
    rw [count_concat_of_ne (by simp)]
    split at bound
    · omega
    · next busy =>
        refine Nat.le_trans bound ?_
        rw [if_neg]
        rintro ⟨there, idle⟩
        have differ : other ≠ wrap := by
          rintro rfl
          exact there (Function.update_self ..)
        rw [Function.update_of_ne differ] at there
        exact busy ⟨there, runs other there idle differ⟩

/-- The callback of a repeated timer returns. -/
theorem rest (rec' : Recorded wraps made (some wrap) history) (found : wraps wrap = some w)
    (needRepeat : w.needRepeat = true) : Recorded wraps made none history where
  quiet := rec'.quiet
  freedOnce := rec'.freedOnce
  freedQuiet := rec'.freedQuiet
  marked := rec'.marked
  gone := rec'.gone
  kind := rec'.kind
  old := rec'.old
  single other id member := by
    have bound := rec'.single other id member
    rcases eq_or_ne other wrap with rfl | differ
    · have kind := rec'.kind other w found id false member
      rw [needRepeat] at kind
      cases kind
    · simpa [differ.symm] using bound

/-- All wraps of a list are deleted. -/
theorem freeAll (rec' : Recorded wraps made none history) {gone : List Nat} (once : gone.Nodup)
    (there : ∀ wrap ∈ gone, ∃ w, wraps wrap = some w) :
    Recorded (fun wrap => if wrap ∈ gone then none else wraps wrap) made none
      (history ++ gone.map Note.freed) := by
  induction gone generalizing wraps history with
  | nil => simpa using rec'
  | cons wrap gone ih =>
      obtain ⟨absent, once⟩ := List.nodup_cons.mp once
      obtain ⟨w, found⟩ := there wrap List.mem_cons_self
      have freed := rec'.free found none fun _ _ idle _ => idle
      have rest := ih freed once fun other member => by
        have differ : other ≠ wrap := fun same => absent (same ▸ member)
        rw [Function.update_of_ne differ]
        exact there other (List.mem_cons_of_mem wrap member)
      have same : (fun other => if other ∈ wrap :: gone then none else wraps other) =
          fun other => if other ∈ gone then none else Function.update wraps wrap none other := by
        funext other
        rcases eq_or_ne other wrap with rfl | differ
        · simp
        · simp [differ]
      rw [same, List.map_cons]
      rwa [List.append_assoc] at rest

end Recorded

/-! ## What is there -/

theorem mem_erase {timers : List (Word × Nat)} {id : Word} {entry : Word × Nat} :
    entry ∈ erase timers id ↔ entry ∈ timers ∧ entry.1 ≠ id := by
  simp [erase]

theorem nodup_erase {timers : List (Word × Nat)} (keys : (timers.map Prod.fst).Nodup) (id : Word) :
    ((erase timers id).map Prod.fst).Nodup :=
  keys.sublist (List.filter_sublist.map Prod.fst)

/-- The wraps that are there are those in `timers_`, and each of them can still be called. -/
structure Kept (t : Timers κ) : Prop where
  keys : (t.timers.map Prod.fst).Nodup
  held : ∀ id wrap, (id, wrap) ∈ t.timers → ∃ w, t.wraps wrap = some w ∧ w.id = id
  listed : ∀ wrap w, t.wraps wrap = some w → (w.id, wrap) ∈ t.timers
  small : ∀ id wrap, (id, wrap) ∈ t.timers → id.toNat ≤ t.timerId.toNat
  once : t.scheduled.Nodup
  known : ∀ wrap ∈ t.scheduled, ∃ w, t.wraps wrap = some w
  somewhere : ∀ wrap w, t.wraps wrap = some w → wrap ∈ t.scheduled ∨ t.current = some wrap
  running : ∀ wrap, t.current = some wrap → wrap ∉ t.scheduled ∧ ∃ w, t.wraps wrap = some w
  recorded : Recorded t.wraps t.made t.current t.history

namespace Kept

variable {t : Timers κ} {wrap : Nat} {w : TimerWrap κ}

/-- Different wraps have different ids. -/
theorem wrap_eq (kept : Kept t) {id : Word} {first second : Nat} (mem : (id, first) ∈ t.timers)
    (mem' : (id, second) ∈ t.timers) : first = second :=
  congrArg Prod.snd (List.inj_on_of_nodup_map kept.keys mem mem' rfl)

theorem fresh (kept : Kept t) : t.wraps t.made = none :=
  (kept.recorded.old t.made (Nat.le_refl _)).1

theorem ne_made (kept : Kept t) (found : t.wraps wrap = some w) : wrap ≠ t.made := by
  rintro rfl
  rw [kept.fresh] at found
  cases found

theorem addTimer (kept : Kept t) (room : t.timerId.toNat + 1 < 2 ^ 32) (callback : κ)
    (needRepeat : Bool) : Kept (Reactor.addTimer t callback needRepeat).2 := by
  have next : (t.timerId + 1).toNat = t.timerId.toNat + 1 := by
    rw [BitVec.toNat_add]
    exact Nat.mod_eq_of_lt room
  have newId : ∀ id wrap, (id, wrap) ∈ t.timers → id ≠ t.timerId + 1 := by
    intro id wrap member same
    have small := kept.small id wrap member
    rw [same, next] at small
    omega
  have sameList : erase t.timers (t.timerId + 1) = t.timers :=
    List.filter_eq_self.mpr fun entry member => decide_eq_true (newId entry.1 entry.2 member)
  have notCurrent : t.current ≠ some t.made := fun current => by
    obtain ⟨w, found⟩ := (kept.running _ current).2
    exact kept.ne_made found rfl
  constructor
  · simp only [Reactor.addTimer, sameList, List.map_append, List.map_cons, List.map_nil]
    refine List.nodup_append.mpr ⟨kept.keys, List.nodup_singleton _, ?_⟩
    rintro id member _ last rfl
    obtain ⟨⟨id', wrap⟩, inside, rfl⟩ := List.mem_map.mp member
    exact newId id' wrap inside (List.mem_singleton.mp last)
  · intro id wrap member
    simp only [Reactor.addTimer, sameList, List.mem_append, List.mem_singleton, Prod.mk.injEq] at member ⊢
    rcases member with inside | ⟨rfl, rfl⟩
    · obtain ⟨w, found, same⟩ := kept.held id wrap inside
      exact ⟨w, by rw [Function.update_of_ne (kept.ne_made found), found], same⟩
    · exact ⟨_, Function.update_self .., rfl⟩
  · intro wrap w found
    simp only [Reactor.addTimer, sameList, List.mem_append, List.mem_singleton, Prod.mk.injEq] at found ⊢
    rcases eq_or_ne wrap t.made with rfl | differ
    · rw [Function.update_self] at found
      obtain rfl := Option.some.inj found
      exact Or.inr ⟨rfl, rfl⟩
    · rw [Function.update_of_ne differ] at found
      exact Or.inl (kept.listed wrap w found)
  · intro id wrap member
    simp only [Reactor.addTimer, sameList, List.mem_append, List.mem_singleton, Prod.mk.injEq] at member ⊢
    rcases member with inside | ⟨rfl, rfl⟩
    · have small := kept.small id wrap inside
      omega
    · exact Nat.le_refl _
  · refine List.nodup_append.mpr ⟨kept.once, List.nodup_singleton _, ?_⟩
    rintro wrap member _ last rfl
    obtain ⟨w, found⟩ := kept.known wrap member
    exact kept.ne_made found (List.mem_singleton.mp last)
  · intro wrap member
    rcases List.mem_append.mp member with inside | last
    · obtain ⟨w, found⟩ := kept.known wrap inside
      exact ⟨w, (Function.update_of_ne (kept.ne_made found) ..).trans found⟩
    · rw [List.mem_singleton.mp last]
      exact ⟨_, Function.update_self ..⟩
  · intro wrap w found
    rcases eq_or_ne wrap t.made with rfl | differ
    · exact Or.inl (List.mem_append_right _ List.mem_cons_self)
    · have found' : t.wraps wrap = some w := (Function.update_of_ne differ ..).symm.trans found
      exact (kept.somewhere wrap w found').imp_left (List.mem_append_left _)
  · intro wrap current
    obtain ⟨idle, w, found⟩ := kept.running wrap current
    refine ⟨fun member => ?_, w, (Function.update_of_ne (kept.ne_made found) ..).trans found⟩
    rcases List.mem_append.mp member with inside | last
    · exact idle inside
    · exact kept.ne_made found (List.mem_singleton.mp last)
  · exact kept.recorded.add notCurrent _ callback needRepeat

/-- `RemoveTimer` finds the timers that are there. -/
theorem removeTimer (kept : Kept t) (timerId : Word) :
    ∃ answer, Reactor.removeTimer t timerId = some answer ∧ Kept answer.2 ∧
      answer.1 = if timerId ∈ t.timers.map Prod.fst then 0 else 1 := by
  unfold Reactor.removeTimer
  cases found : t.timers.find? fun entry => entry.1 = timerId with
  | none =>
      refine ⟨(1, t), rfl, kept, (if_neg fun member => ?_).symm⟩
      obtain ⟨entry, inside, same⟩ := List.mem_map.mp member
      exact absurd same (by simpa using List.find?_eq_none.mp found entry inside)
  | some entry =>
      obtain ⟨id, wrap⟩ := entry
      have inside := List.mem_of_find?_eq_some found
      have same : id = timerId := by simpa using List.find?_some found
      obtain ⟨w, there, sameId⟩ := kept.held id wrap inside
      dsimp only
      rw [there, Option.map_some]
      refine ⟨_, rfl, ?_, (if_pos (List.mem_map.mpr ⟨_, inside, same⟩)).symm⟩
      constructor
      · exact kept.keys
      · intro id' wrap' member
        obtain ⟨w', found', same'⟩ := kept.held id' wrap' member
        rcases eq_or_ne wrap' wrap with rfl | differ
        · rw [there] at found'
          obtain rfl := Option.some.inj found'
          exact ⟨_, Function.update_self .., same'⟩
        · exact ⟨w', (Function.update_of_ne differ ..).trans found', same'⟩
      · intro wrap' w' found'
        rcases eq_or_ne wrap' wrap with rfl | differ
        · have marked : some { w with removed := true } = some w' :=
            (Function.update_self wrap' _ t.wraps).symm.trans found'
          rw [← Option.some.inj marked]
          exact kept.listed wrap' w there
        · exact kept.listed wrap' w' ((Function.update_of_ne differ ..).symm.trans found')
      · exact kept.small
      · exact kept.once
      · intro wrap' member
        rcases eq_or_ne wrap' wrap with rfl | differ
        · exact ⟨_, Function.update_self ..⟩
        · obtain ⟨w', found'⟩ := kept.known wrap' member
          exact ⟨w', (Function.update_of_ne differ ..).trans found'⟩
      · intro wrap' w' found'
        rcases eq_or_ne wrap' wrap with rfl | differ
        · exact kept.somewhere wrap' w there
        · exact kept.somewhere wrap' w' ((Function.update_of_ne differ ..).symm.trans found')
      · intro wrap' current
        obtain ⟨idle, w', found'⟩ := kept.running wrap' current
        refine ⟨idle, ?_⟩
        rcases eq_or_ne wrap' wrap with rfl | differ
        · exact ⟨_, Function.update_self ..⟩
        · exact ⟨w', (Function.update_of_ne differ ..).trans found'⟩
      · exact kept.recorded.mark there

/-- A wrap that libevent no longer holds is deleted and forgotten. -/
theorem delete {t' : Timers κ} (kept : Kept t) (there : t.wraps wrap = some w)
    (timerId : t'.timerId = t.timerId) (timers : t'.timers = erase t.timers w.id)
    (wraps : t'.wraps = Function.update t.wraps wrap none) (made : t'.made = t.made)
    (scheduled : t'.scheduled = t.scheduled.erase wrap) (current : t'.current = none)
    (alone : ∀ other, t.current = some other → other = wrap)
    (history : t'.history = t.history ++ [.freed wrap]) : Kept t' := by
  have listed := kept.listed wrap w there
  have keep : ∀ other, other ≠ wrap → t'.wraps other = t.wraps other := fun other differ => by
    rw [wraps, Function.update_of_ne differ]
  constructor
  · rw [timers]
    exact nodup_erase kept.keys w.id
  · intro id other member
    rw [timers, mem_erase] at member
    obtain ⟨w', found, same⟩ := kept.held id other member.1
    refine ⟨w', ?_, same⟩
    rw [keep other, found]
    rintro rfl
    rw [there] at found
    obtain rfl := Option.some.inj found
    exact member.2 same.symm
  · intro other w' found
    have differ : other ≠ wrap := by
      rintro rfl
      rw [wraps, Function.update_self] at found
      cases found
    rw [keep other differ] at found
    rw [timers, mem_erase]
    refine ⟨kept.listed other w' found, fun same => differ ?_⟩
    exact kept.wrap_eq (same ▸ kept.listed other w' found) listed
  · intro id other member
    rw [timers, mem_erase] at member
    rw [timerId]
    exact kept.small id other member.1
  · rw [scheduled]
    exact kept.once.erase wrap
  · intro other member
    rw [scheduled, kept.once.mem_erase_iff] at member
    rw [keep other member.1]
    exact kept.known other member.2
  · intro other w' found
    have differ : other ≠ wrap := by
      rintro rfl
      rw [wraps, Function.update_self] at found
      cases found
    rw [keep other differ] at found
    rw [scheduled, kept.once.mem_erase_iff]
    rcases kept.somewhere other w' found with inside | runs
    · exact Or.inl ⟨differ, inside⟩
    · exact absurd (alone other runs) differ
  · intro other runs
    rw [current] at runs
    cases runs
  · rw [wraps, made, current, history]
    exact kept.recorded.free there _ fun other _ _ differ runs => differ (alone other runs)

/-- libevent calls the handler of a wrap that it holds. -/
theorem startTimer (kept : Kept t) (idle : t.current = none) (due : wrap ∈ t.scheduled) :
    ∃ t', Reactor.startTimer t wrap = some t' ∧ Kept t' ∧ t'.timerId = t.timerId := by
  obtain ⟨w, there⟩ := kept.known wrap due
  unfold Reactor.startTimer
  rw [there, Option.map_some]
  refine ⟨_, rfl, ?_⟩
  dsimp only
  by_cases removed : w.removed = true
  · rw [if_pos removed]
    refine ⟨kept.delete there rfl rfl rfl rfl rfl idle (fun other runs => ?_) rfl, rfl⟩
    rw [idle] at runs
    cases runs
  · rw [if_neg removed]
    refine ⟨?_, rfl⟩
    constructor
    · exact kept.keys
    · exact kept.held
    · exact kept.listed
    · exact kept.small
    · exact kept.once.erase wrap
    · exact fun other member => kept.known other (List.mem_of_mem_erase member)
    · intro other w' found
      rcases eq_or_ne other wrap with rfl | differ
      · exact Or.inr rfl
      · rcases kept.somewhere other w' found with inside | runs
        · exact Or.inl ((List.mem_erase_of_ne differ).mpr inside)
        · rw [idle] at runs
          cases runs
    · intro other runs
      obtain rfl := Option.some.inj runs
      exact ⟨fun member => (kept.once.mem_erase_iff.mp member).1 rfl, w, there⟩
    · have recorded := kept.recorded
      rw [idle] at recorded
      exact recorded.call there (Bool.eq_false_iff.mpr removed)

/-- The callback of a timer returns: the timer is held again or its wrap is deleted. -/
theorem finishTimer (kept : Kept t) (runs : t.current = some wrap) :
    ∃ t', Reactor.finishTimer t = some t' ∧ Kept t' ∧ t'.current = none ∧ t'.timerId = t.timerId := by
  obtain ⟨idle, w, there⟩ := kept.running wrap runs
  unfold Reactor.finishTimer
  rw [runs, Option.bind_some, there, Option.map_some]
  refine ⟨_, rfl, ?_⟩
  dsimp only
  by_cases needRepeat : w.needRepeat = true
  · rw [if_pos needRepeat]
    refine ⟨?_, rfl, rfl⟩
    constructor
    · exact kept.keys
    · exact kept.held
    · exact kept.listed
    · exact kept.small
    · refine List.nodup_append.mpr ⟨kept.once, List.nodup_singleton _, ?_⟩
      rintro other member _ last rfl
      exact idle (List.mem_singleton.mp last ▸ member)
    · intro other member
      rcases List.mem_append.mp member with inside | last
      · exact kept.known other inside
      · rw [List.mem_singleton.mp last]
        exact ⟨w, there⟩
    · intro other w' found
      rcases kept.somewhere other w' found with inside | current
      · exact Or.inl (List.mem_append_left _ inside)
      · obtain rfl := Option.some.inj (runs.symm.trans current)
        exact Or.inl (List.mem_append_right _ List.mem_cons_self)
    · exact fun other current => absurd current (by simp)
    · have recorded := kept.recorded
      rw [runs] at recorded
      exact recorded.rest there needRepeat
  · rw [if_neg needRepeat]
    refine ⟨kept.delete there rfl rfl rfl rfl (List.erase_of_not_mem idle).symm rfl
      (fun other current => ?_) rfl, rfl, rfl⟩
    exact Option.some.inj (current.symm.trans runs)

/-- All wraps are deleted when no callback runs. -/
theorem removeAllTimers (kept : Kept t) (idle : t.current = none) :
    Kept (Reactor.removeAllTimers t) := by
  have all : ∀ wrap w, t.wraps wrap = some w → wrap ∈ t.timers.map Prod.snd := fun wrap w found =>
    List.mem_map.mpr ⟨_, kept.listed wrap w found, rfl⟩
  have none' : ∀ wrap, (if wrap ∈ t.timers.map Prod.snd then none else t.wraps wrap) = none := by
    intro wrap
    split
    · rfl
    · next absent =>
        cases found : t.wraps wrap with
        | none => rfl
        | some w => exact absurd (all wrap w found) absent
  have wraps : (Reactor.removeAllTimers t).wraps = fun wrap =>
    if wrap ∈ t.timers.map Prod.snd then none else t.wraps wrap := rfl
  constructor
  · exact List.nodup_nil
  · exact fun _ _ member => absurd member List.not_mem_nil
  · intro wrap w found
    rw [wraps] at found
    dsimp only at found
    rw [none' wrap] at found
    cases found
  · exact fun _ _ member => absurd member List.not_mem_nil
  · exact kept.once.filter _
  · intro wrap member
    obtain ⟨inside, absent⟩ := List.mem_filter.mp member
    obtain ⟨w, found⟩ := kept.known wrap inside
    exact absurd (all wrap w found) (of_decide_eq_true absent)
  · intro wrap w found
    rw [wraps] at found
    dsimp only at found
    rw [none' wrap] at found
    cases found
  · exact fun wrap runs => absurd (idle.symm.trans runs) (by simp)
  · have recorded := kept.recorded
    rw [idle] at recorded
    have distinct : (t.timers.map Prod.snd).Nodup := by
      refine List.Nodup.map_on ?_ (List.Nodup.of_map _ kept.keys)
      rintro ⟨id, wrap⟩ member ⟨id', wrap'⟩ member' same
      obtain rfl : wrap = wrap' := same
      obtain ⟨w, found, rfl⟩ := kept.held id wrap member
      obtain ⟨w', found', rfl⟩ := kept.held id' wrap member'
      rw [found] at found'
      rw [Option.some.inj found']
    have freed := recorded.freeAll distinct fun wrap member => by
      obtain ⟨⟨id, _⟩, inside, rfl⟩ := List.mem_map.mp member
      obtain ⟨w, found, _⟩ := kept.held id _ inside
      exact ⟨w, found⟩
    rw [← idle] at freed
    exact freed

end Kept

/-! ## Whole runs -/

/-- The tasks that have not been started. -/
def waiting (r : Reactor κ τ) : List τ := if r.phase = .task then r.tasks.tail else r.tasks

structure Inv (r : Reactor κ τ) : Prop where
  kept : Kept r.timers
  idle : r.phase ≠ .callback → r.timers.current = none
  busy : r.phase = .callback → ∃ wrap, r.timers.current = some wrap
  front : r.phase = .task → r.tasks ≠ []
  order : r.posted = r.settled.map Prod.fst ++ waiting r

theorem Inv.start : Inv (initial κ τ) where
  kept := by
    constructor
    · exact List.nodup_nil
    · exact fun _ _ member => absurd member List.not_mem_nil
    · exact fun _ _ found => absurd found (by simp [initial])
    · exact fun _ _ member => absurd member List.not_mem_nil
    · exact List.nodup_nil
    · exact fun _ member => absurd member List.not_mem_nil
    · exact fun _ _ found => absurd found (by simp [initial])
    · exact fun _ runs => absurd runs (by simp [initial])
    · exact Recorded.start
  idle _ := rfl
  busy runs := absurd runs (by simp [initial])
  front runs := absurd runs (by simp [initial])
  order := rfl

/-- The reactor goes on where neither a callback nor a task runs. -/
theorem Inv.moved {r : Reactor κ τ} (inv : Inv r) {phase : Phase} {timers : Timers κ}
    (noTask : r.phase ≠ .task) (quiet : phase ≠ .callback ∧ phase ≠ .task) (kept : Kept timers)
    (idle : timers.current = none) : Inv { r with phase := phase, timers := timers } where
  kept := kept
  idle _ := idle
  busy runs := absurd runs quiet.1
  front runs := absurd runs quiet.2
  order := by
    have order := inv.order
    rw [waiting, if_neg noTask] at order
    rw [waiting, if_neg quiet.2]
    exact order

/-- Each step that can happen keeps the invariant and uses nothing that was freed. -/
theorem step_spec {r : Reactor κ τ} (inv : Inv r) {label : Label κ τ} (allowed : Allowed r label) :
    ∃ r', step r label = some r' ∧ Inv r' := by
  cases label with
  | postTask task =>
      refine ⟨_, rfl, inv.kept, inv.idle, inv.busy, fun _ => by simp, ?_⟩
      have order := inv.order
      unfold waiting at order ⊢
      split at order
      · next runs =>
          rw [if_pos runs, order, List.append_assoc, List.tail_append_of_ne_nil (inv.front runs)]
      · next rests => rw [if_neg rests, order, List.append_assoc]
  | addTimer callback needRepeat =>
      exact ⟨_, rfl, inv.kept.addTimer allowed.2 callback needRepeat, inv.idle, inv.busy, inv.front,
        inv.order⟩
  | removeTimer timerId =>
      obtain ⟨answer, removed, kept, _⟩ := inv.kept.removeTimer timerId
      have same : answer.2.current = r.timers.current := by
        unfold removeTimer at removed
        split at removed
        · rw [← Option.some.inj removed]
        · obtain ⟨w, _, rfl⟩ := Option.map_eq_some_iff.mp removed
          rfl
      have stepped : step r (.removeTimer timerId) = some { r with timers := answer.2 } := by
        rw [step, removed, Option.map_some]
      refine ⟨_, stepped, kept, ?_, ?_, inv.front, inv.order⟩
      · exact fun rests => same.trans (inv.idle rests)
      · exact fun runs => (inv.busy runs).imp fun wrap => same.trans
  | removeAllEventSource =>
      have quiet : r.phase ≠ .callback ∧ r.phase ≠ .task := by
        rcases allowed with outside | events
        · simp [outside]
        · simp [events]
      refine ⟨_, rfl, inv.kept.removeAllTimers (inv.idle quiet.1), inv.idle, inv.busy,
        fun runs => absurd runs quiet.2, ?_⟩
      have order := inv.order
      unfold waiting at order ⊢
      rw [if_neg quiet.2] at order ⊢
      simpa [Function.comp_def] using order
  | handleEvents =>
      have phase : r.phase = .outside := allowed
      exact ⟨_, rfl, inv.moved (by simp [phase]) (by simp) inv.kept (inv.idle (by simp [phase]))⟩
  | timerDue wrap =>
      obtain ⟨phase, due⟩ := allowed
      have idle := inv.idle (by simp [phase])
      obtain ⟨t', started, kept, _⟩ := inv.kept.startTimer idle due
      refine ⟨_, by rw [step, started]; rfl, kept, ?_, ?_, ?_, ?_⟩
      · intro rests
        dsimp only at rests ⊢
        split at rests
        · assumption
        · exact absurd rfl rests
      · intro runs
        dsimp only at runs ⊢
        split at runs
        · cases runs
        · next busy => exact Option.ne_none_iff_exists'.mp busy
      · intro runs
        dsimp only at runs
        split at runs <;> cases runs
      · have order := inv.order
        have before : waiting r = r.tasks := if_neg (by simp [phase])
        rw [before] at order
        refine order.trans ?_
        unfold waiting
        dsimp only
        rw [if_neg]
        split <;> simp
  | timerReturns =>
      obtain ⟨wrap, runs⟩ := inv.busy allowed
      obtain ⟨t', finished, kept, idle, _⟩ := inv.kept.finishTimer runs
      have phase : r.phase = .callback := allowed
      exact ⟨_, by rw [step, finished]; rfl, inv.moved (by simp [phase]) (by simp) kept idle⟩
  | eventsDone =>
      have phase : r.phase = .events := allowed
      exact ⟨_, rfl, inv.moved (by simp [phase]) (by simp) inv.kept (inv.idle (by simp [phase]))⟩
  | taskStarts =>
      obtain ⟨phase, some'⟩ := allowed
      obtain ⟨task, tasks, split⟩ := List.exists_cons_of_ne_nil some'
      have stepped : step r .taskStarts =
          some { r with phase := .task, settled := r.settled ++ [(task, true)] } := by
        rw [step, split]
      refine ⟨_, stepped, inv.kept, fun _ => inv.idle (by simp [phase]),
        fun runs => absurd runs (by simp), fun _ => some', ?_⟩
      have order := inv.order
      simpa [waiting, phase, split] using order
  | taskReturns =>
      have phase : r.phase = .task := allowed
      obtain ⟨task, tasks, split⟩ := List.exists_cons_of_ne_nil (inv.front phase)
      have stepped : step r .taskReturns = some { r with phase := .drain, tasks := tasks } := by
        rw [step, split]
      refine ⟨_, stepped, inv.kept, fun _ => inv.idle (by simp [phase]),
        fun runs => absurd runs (by simp), fun runs => absurd runs (by simp), ?_⟩
      have order := inv.order
      simpa [waiting, phase, split] using order
  | tasksDone =>
      have phase := allowed.1
      exact ⟨_, rfl, inv.moved (by simp [phase]) (by simp) inv.kept (inv.idle (by simp [phase]))⟩

/-- Without a removal of all sources no posted task is dropped. -/
theorem step_settled {r r' : Reactor κ τ} {label : Label κ τ} (ran : ∀ e ∈ r.settled, e.2 = true)
    (keeps : label ≠ .removeAllEventSource) (stepped : step r label = some r') :
    ∀ e ∈ r'.settled, e.2 = true := by
  cases label with
  | removeAllEventSource => exact absurd rfl keeps
  | removeTimer timerId =>
      obtain ⟨_, _, rfl⟩ := Option.map_eq_some_iff.mp stepped
      exact ran
  | timerDue wrap =>
      obtain ⟨_, _, rfl⟩ := Option.map_eq_some_iff.mp stepped
      exact ran
  | timerReturns =>
      obtain ⟨_, _, rfl⟩ := Option.map_eq_some_iff.mp stepped
      exact ran
  | taskStarts =>
      simp only [step] at stepped
      split at stepped
      · cases stepped
      · obtain rfl := Option.some.inj stepped
        intro e member
        rcases List.mem_append.mp member with inside | last
        · exact ran e inside
        · rw [List.mem_singleton.mp last]
  | taskReturns =>
      simp only [step] at stepped
      split at stepped
      · cases stepped
      · obtain rfl := Option.some.inj stepped
        exact ran
  | postTask _ | addTimer _ _ | handleEvents | eventsDone | tasksDone =>
      obtain rfl := Option.some.inj stepped
      exact ran

/-- What a user of the reactor relies on. -/
structure Sound (r : Reactor κ τ) : Prop where
  removedQuiet : ∀ wrap, NeverAfter (.removed wrap) (.called wrap) r.timers.history
  oneShot : ∀ wrap id, .added wrap id false ∈ r.timers.history →
    r.timers.history.count (.called wrap) ≤ 1
  freedOnce : ∀ wrap, NeverAfter (.freed wrap) (.freed wrap) r.timers.history
  freedQuiet : ∀ wrap, NeverAfter (.freed wrap) (.called wrap) r.timers.history
  notLost : ∀ wrap < r.timers.made, .freed wrap ∉ r.timers.history →
    ∃ w, r.timers.wraps wrap = some w ∧ (w.id, wrap) ∈ r.timers.timers ∧
      (wrap ∈ r.timers.scheduled ∨ r.timers.current = some wrap)
  idsDiffer : (r.timers.timers.map Prod.fst).Nodup
  answers : ∀ id, (removeTimer r.timers id).map Prod.fst =
    some (if id ∈ r.timers.timers.map Prod.fst then 0 else 1)
  inOrder : r.posted = r.settled.map Prod.fst ++ waiting r

theorem Inv.sound {r : Reactor κ τ} (inv : Inv r) : Sound r := by
  have recorded := inv.kept.recorded
  constructor
  · exact recorded.quiet
  · intro wrap id member
    refine Nat.le_trans (recorded.single wrap id member) ?_
    split <;> omega
  · exact recorded.freedOnce
  · exact recorded.freedQuiet
  · intro wrap old notFreed
    obtain ⟨w, there⟩ := Option.ne_none_iff_exists'.mp fun absent =>
      notFreed ((recorded.gone wrap).mpr ⟨old, absent⟩)
    exact ⟨w, there, inv.kept.listed wrap w there, inv.kept.somewhere wrap w there⟩
  · exact inv.kept.keys
  · intro id
    obtain ⟨answer, removed, _, same⟩ := inv.kept.removeTimer id
    rw [removed, Option.map_some, same]
  · exact inv.order

/-- A timer that removes another one from its callback, and a task that posts a second task. -/
def oneRun : List (Label Nat Nat) :=
  [.postTask 1, .addTimer 7 false, .addTimer 8 true, .handleEvents, .timerDue 0, .removeTimer 2,
    .timerReturns, .timerDue 1, .eventsDone, .taskStarts, .postTask 2, .taskReturns, .taskStarts,
    .taskReturns, .tasksDone]

end MlsImgSearch.Blitz2.Reactor
