import Mathlib.Data.List.Find
import Mathlib.Data.List.Pairwise
import Mathlib.Data.List.Sort
import MlsImgSearch.Blitz2.StateMachine
import MlsImgSearch.Lib.SortedList

/-!
# The tables of the state machine

The constructors of `State` and `Transition` turn their arcs into a vector that is
indexed by the result; a result that is missing ends the conversion, and nobody looks
at its error. `Init` puts states and transitions into maps whose keys have eight bits,
and clears the machine whenever it fails.
-/

namespace MlsImgSearch.Blitz2.StateTable

open Lib.Run
open Lib.SortedList (Ascending)
open StateMachine (eventKey)

/-! ## Arcs -/

structure OneArc where
  result : UInt8
  state : UInt8
  deriving DecidableEq

/-- The loop of `CheckAndConvertToVec` from index `i` on: its return code, and what is in the vector
then. -/
def fillArcs : Nat → List OneArc → Int × List UInt8
  | _, [] => (0, [])
  | i, arc :: rest =>
      if arc.result ≠ UInt8.ofNat i then (-1, List.replicate (rest.length + 1) 0)
      else ((fillArcs (i + 1) rest).1, arc.state :: (fillArcs (i + 1) rest).2)

def checkAndConvertToVec (arcs : List OneArc) : Int × List UInt8 :=
  fillArcs 0 (arcs.insertionSort fun a b => a.result ≤ b.result)

/-! ## The machine -/

structure State where
  id : UInt8
  hasAction : Bool
  actionArcs : List UInt8
  deriving DecidableEq

structure Transition where
  state : UInt8
  eventType : Int
  actionArcs : List UInt8
  deriving DecidableEq

structure Machine where
  states : List State
  transitions : UInt8 → UInt8 → Option Transition
  startState : UInt8
  endState : UInt8

def Machine.empty : Machine := ⟨[], fun _ _ => none, 0, 0⟩

def geState (m : Machine) (id : UInt8) : Option State := m.states.find? fun st => st.id = id

def geTransition (m : Machine) (state : UInt8) (event : Int) : Option Transition :=
  m.transitions state (eventKey event)

def insertStates : List State → List State → Option (List State)
  | states, [] => some states
  | states, st :: rest =>
      if (states.find? fun other => other.id = st.id).isSome then none
      else insertStates (states ++ [st]) rest

/-- `none` when an assertion fails. -/
def setStates (m : Machine) (states : List State) (startState endState : UInt8) :
    Option (Int × Machine) :=
  if startState = 0 ∨ endState = 0 ∨ states = [] then none
  else if m.states ≠ [] then some (1, m)
  else
    match insertStates [] states with
    | none => some (-2, { m with states := [], startState := startState, endState := endState })
    | some inserted =>
        let m' := { m with states := inserted, startState := startState, endState := endState }
        if (geState m' endState).isNone then some (-3, m') else some (0, m')

def insertTransitions : Machine → List Transition → Option Machine
  | m, [] => some m
  | m, t :: rest =>
      if (geState m t.state).isNone then none
      else if (m.transitions t.state (eventKey t.eventType)).isSome then none
      else
        insertTransitions { m with
          transitions := fun state event =>
            if state = t.state ∧ event = eventKey t.eventType then some t
            else m.transitions state event } rest

def setTransitions (m : Machine) (transitions : List Transition) : Int × Machine :=
  match insertTransitions m transitions with
  | none => (-3, { m with transitions := fun _ _ => none })
  | some m' => (0, m')

/-- The arguments of the constructor of a state. -/
structure StateRow where
  id : UInt8
  hasAction : Bool
  arcs : List OneArc
  deriving DecidableEq

structure TransitionRow where
  state : UInt8
  eventType : Int
  arcs : List OneArc
  deriving DecidableEq

structure Table where
  states : List StateRow
  transitions : List TransitionRow
  startState : UInt8
  endState : UInt8
  deriving DecidableEq

def StateRow.build (row : StateRow) : State :=
  ⟨row.id, row.hasAction, (checkAndConvertToVec row.arcs).2⟩

def TransitionRow.build (row : TransitionRow) : Transition :=
  ⟨row.state, row.eventType, (checkAndConvertToVec row.arcs).2⟩

def init (m : Machine) (t : Table) : Option (Int × Machine) :=
  (setStates m (t.states.map StateRow.build) t.startState t.endState).map fun (rc, m') =>
    let (rc, m') := if rc ≠ 0 then (rc, m')
      else setTransitions m' (t.transitions.map TransitionRow.build)
    if rc ≠ 0 then (rc, { m' with states := [], transitions := fun _ _ => none }) else (rc, m')

/-! ## A context -/

inductive Phase where
  | idle
  /-- The action of the current state runs. -/
  | stateAction
  | transitionAction (t : Transition)
  | ended
  /-- A result was looked up outside of the vector of arcs. -/
  | undefined
  deriving DecidableEq

structure Context where
  curState : UInt8
  phase : Phase
  deriving DecidableEq

/-- `InternalGotoState` up to the action of the state. -/
def internalGotoState (m : Machine) (c : Context) (stateId : UInt8) : Context :=
  match geState m stateId with
  | none => { c with phase := .ended }
  | some st =>
      ⟨stateId, if st.hasAction then .stateAction else if stateId = m.endState then .ended else .idle⟩

def startOneContext (m : Machine) : Context :=
  internalGotoState m ⟨m.startState, .idle⟩ m.startState

/-- The return code, and the context when the action of the transition starts. -/
def processEvent (m : Machine) (c : Context) (type : Int) : Option (Int × Context) :=
  match c.phase with
  | .ended => some (1, c)
  | .idle =>
      match geTransition m c.curState type with
      | none => some (2, c)
      | some t => some (0, { c with phase := .transitionAction t })
  | _ => none

/-- `GetNexState` for the action that runs; `none` is outside of the vector. -/
def getNexState (m : Machine) (c : Context) (result : UInt8) : Option UInt8 :=
  match c.phase with
  | .stateAction => (geState m c.curState).bind fun st => st.actionArcs[result.toNat]?
  | .transitionAction t => t.actionArcs[result.toNat]?
  | _ => none

def goOn (m : Machine) (c : Context) : Option UInt8 → Context
  | none => { c with phase := .undefined }
  | some nextState =>
      if nextState = 0 then { c with phase := .idle } else internalGotoState m c nextState

/-- The running action returns. -/
def actionReturned (m : Machine) (c : Context) (result : UInt8) : Option Context :=
  match c.phase with
  | .stateAction =>
      if c.curState = m.endState then some { c with phase := .ended }
      else some (goOn m c (getNexState m c result))
  | .transitionAction _ => some (goOn m c (getNexState m c result))
  | _ => none

structure System where
  machine : Machine
  context : Context

inductive Label where
  | event (type : Int)
  | result (result : UInt8)
  | init (again : Table)
  deriving DecidableEq

def step (s : System) : Label → Option System
  | .event type =>
      (processEvent s.machine s.context type).map fun (_, c) => { s with context := c }
  | .result result =>
      (actionReturned s.machine s.context result).map fun c => { s with context := c }
  | .init again => (init s.machine again).map fun (_, m) => { s with machine := m }

/-! ## What the table says -/

/-- Ids and pairs of state and event type are distinct, and so are the results of each list of arcs. -/
structure WellFormed (t : Table) : Prop where
  ids : (t.states.map StateRow.id).Nodup
  positive : ∀ row ∈ t.states, 0 < row.id
  pairs : (t.transitions.map fun row => (row.state, row.eventType)).Nodup
  stateResults : ∀ row ∈ t.states, (row.arcs.map OneArc.result).Nodup
  transitionResults : ∀ row ∈ t.transitions, (row.arcs.map OneArc.result).Nodup

def Table.state (t : Table) (id : UInt8) : Option StateRow := t.states.find? fun row => row.id = id

def Table.transition (t : Table) (state : UInt8) (event : Int) : Option TransitionRow :=
  t.transitions.find? fun row => row.state = state ∧ row.eventType = event

def Table.processEvent (t : Table) (c : Context) (type : Int) : Option (Int × Context) :=
  match c.phase with
  | .ended => some (1, c)
  | .idle =>
      match t.transition c.curState type with
      | none => some (2, c)
      | some row => some (0, { c with phase := .transitionAction row.build })
  | _ => none

/-- The arcs of the action that runs; those of the end state do not count. -/
def Table.arcs (t : Table) (c : Context) : Option (List OneArc) :=
  match c.phase with
  | .stateAction => if c.curState = t.endState then none else (t.state c.curState).map StateRow.arcs
  | .transitionAction tr => (t.transition tr.state tr.eventType).map TransitionRow.arcs
  | _ => none

/-- `none` when there is no such state. -/
def Table.goOn (t : Table) (c : Context) (nextState : UInt8) : Option Context :=
  if nextState = 0 then some { c with phase := .idle }
  else
    (t.state nextState).map fun row =>
      ⟨nextState, if row.hasAction then .stateAction
        else if nextState = t.endState then .ended else .idle⟩

/-- A step does what the table says. -/
def Right (t : Table) (s : System) : Label → Prop
  | .event type => processEvent s.machine s.context type = t.processEvent s.context type
  | .result result =>
      ∀ arcs ∈ t.arcs s.context, ∃ nextState, getNexState s.machine s.context result = some nextState ∧
        ∀ arc ∈ arcs, arc.result = result → nextState = arc.state ∧
          (actionReturned s.machine s.context result) = t.goOn s.context arc.state
  | .init again =>
      ∀ rc m, init s.machine again = some (rc, m) → rc ≠ 0 →
        m.states = s.machine.states ∧ m.transitions = s.machine.transitions

def start (m : Machine) : System := ⟨m, startOneContext m⟩

/-- `Init` returns 0, and along the run of a context every step does what the table says. -/
def Follows (t : Table) (labels : List Label) : Prop :=
  ∃ m, init .empty t = some (0, m) ∧ Meets step (Right t) (start m) labels

/-! ## When it does -/

/-- What `Init` returns 0 for. -/
structure Accepted (t : Table) : Prop where
  start : t.startState ≠ 0
  endState : t.endState ≠ 0
  endKnown : ∃ row ∈ t.states, row.id = t.endState
  known : ∀ row ∈ t.transitions, ∃ st ∈ t.states, st.id = row.state
  lowBytes : t.transitions.Pairwise fun a b =>
    ¬ (a.state = b.state ∧ eventKey a.eventType = eventKey b.eventType)

/-- The machine that `Init` makes of an accepted table. -/
def Table.machine (t : Table) : Machine where
  states := t.states.map StateRow.build
  transitions := fun state event =>
    (t.transitions.map TransitionRow.build).find? fun tr =>
      tr.state = state ∧ eventKey tr.eventType = event
  startState := t.startState
  endState := t.endState

/-- A result is below the number of arcs. If there is an arc for it that leads to a state, the state is
listed, and there are arcs for all smaller results. -/
structure Kept (t : Table) (arcs : List OneArc) (result : UInt8) : Prop where
  inside : result.toNat < arcs.length
  dense : ∀ arc ∈ arcs, arc.result = result → arc.state ≠ 0 →
    (∃ row ∈ t.states, row.id = arc.state) ∧ ∀ k ≤ result.toNat, ∃ other ∈ arcs, other.result.toNat = k

/-- The transitions of the current state with the low byte of an event have its type, results are kept,
and there is no second `Init` that gets past the assertions. -/
def Allowed (t : Table) (s : System) : Label → Prop
  | .event type =>
      s.context.phase = .idle → ∀ row ∈ t.transitions, row.state = s.context.curState →
        eventKey row.eventType = eventKey type → row.eventType = type
  | .result result => ∀ arcs ∈ t.arcs s.context, Kept t arcs result
  | .init again => again.startState = 0 ∨ again.endState = 0 ∨ again.states = []

instance decidableKept (t : Table) (arcs : List OneArc) (result : UInt8) :
    Decidable (Kept t arcs result) :=
  decidable_of_iff (result.toNat < arcs.length ∧
      ∀ arc ∈ arcs, arc.result = result → arc.state ≠ 0 →
        (∃ row ∈ t.states, row.id = arc.state) ∧
          ∀ k ≤ result.toNat, ∃ other ∈ arcs, other.result.toNat = k)
    ⟨fun both => ⟨both.1, both.2⟩, fun kept => ⟨kept.inside, kept.dense⟩⟩

instance decidableAllowed (t : Table) (s : System) : (label : Label) → Decidable (Allowed t s label)
  | .event type =>
      inferInstanceAs (Decidable (s.context.phase = .idle → ∀ row ∈ t.transitions,
        row.state = s.context.curState → eventKey row.eventType = eventKey type →
          row.eventType = type))
  | .result result => inferInstanceAs (Decidable (∀ arcs ∈ t.arcs s.context, Kept t arcs result))
  | .init again =>
      inferInstanceAs (Decidable (again.startState = 0 ∨ again.endState = 0 ∨ again.states = []))

/-! ## The vector of arcs -/

section Arcs

variable {arcs : List OneArc} {arc : OneArc} {i k : Nat}

theorem fillArcs_length : (fillArcs i arcs).2.length = arcs.length := by
  induction arcs generalizing i with
  | nil => rfl
  | cons first rest ih =>
      unfold fillArcs
      by_cases lost : first.result ≠ UInt8.ofNat i
      · rw [if_pos lost, List.length_replicate, List.length_cons]
      · rw [if_neg lost, List.length_cons, List.length_cons, ih]

/-- Where no smaller result is missing, the vector has the state of the arc. -/
theorem fillArcs_dense (ascending : Ascending (fun arc => arc.result.toNat) arcs)
    (bounded : ∀ arc ∈ arcs, i ≤ arc.result.toNat) (member : arc ∈ arcs)
    (isResult : arc.result.toNat = i + k)
    (all : ∀ j ≤ k, ∃ other ∈ arcs, other.result.toNat = i + j) :
    (fillArcs i arcs).2[k]? = some arc.state := by
  induction arcs generalizing i k with
  | nil => cases member
  | cons first rest ih =>
      obtain ⟨above, ascending'⟩ := List.pairwise_cons.mp ascending
      have atFirst : first.result.toNat = i := by
        obtain ⟨other, inside, isFirst⟩ := all 0 (Nat.zero_le k)
        rcases List.mem_cons.mp inside with rfl | later
        · exact isFirst
        · have less := above other later
          have least := bounded first (List.mem_cons_self ..)
          dsimp only at less
          omega
      have found : ¬ first.result ≠ UInt8.ofNat i := by
        rw [← atFirst, UInt8.ofNat_toNat]
        exact fun ne => ne rfl
      unfold fillArcs
      rw [if_neg found]
      dsimp only
      cases k with
      | zero =>
          rcases List.mem_cons.mp member with rfl | later
          · rfl
          · have less := above arc later
            dsimp only at less
            omega
      | succ k =>
          have later : ∀ {other : OneArc} {j : Nat}, other ∈ first :: rest →
              other.result.toNat = i + (j + 1) → other ∈ rest := by
            intro other j inside isOther
            rcases List.mem_cons.mp inside with rfl | later
            · omega
            · exact later
          rw [List.getElem?_cons_succ]
          refine ih ascending' (fun other inside => ?_) (later member isResult) (by omega)
            fun j bound => ?_
          · have less := above other inside
            dsimp only at less
            omega
          · obtain ⟨other, inside, isOther⟩ := all (j + 1) (by omega)
            exact ⟨other, later inside isOther, by omega⟩

/-- From the first missing result on, the vector keeps its zeros. -/
theorem fillArcs_sparse (ascending : Ascending (fun arc => arc.result.toNat) arcs)
    (bounded : ∀ arc ∈ arcs, i ≤ arc.result.toNat) (inside : k < arcs.length)
    (missing : ¬ ∀ j ≤ k, ∃ other ∈ arcs, other.result.toNat = i + j) :
    (fillArcs i arcs).2[k]? = some 0 := by
  induction arcs generalizing i k with
  | nil => cases inside
  | cons first rest ih =>
      obtain ⟨above, ascending'⟩ := List.pairwise_cons.mp ascending
      unfold fillArcs
      by_cases lost : first.result ≠ UInt8.ofNat i
      · rw [if_pos lost]
        exact List.getElem?_replicate_of_lt inside
      · rw [if_neg lost]
        dsimp only
        have atFirst : first.result.toNat = i := by
          have small := bounded first (List.mem_cons_self ..)
          have byte := first.result.toNat_lt
          rw [not_not.mp lost, UInt8.toNat_ofNat']
          exact Nat.mod_eq_of_lt (by omega)
        cases k with
        | zero =>
            refine absurd (fun j bound => ⟨first, List.mem_cons_self .., ?_⟩) missing
            omega
        | succ k =>
            rw [List.getElem?_cons_succ]
            refine ih ascending' (fun other member => ?_) (Nat.lt_of_succ_lt_succ inside) fun all => ?_
            · have less := above other member
              dsimp only at less
              omega
            · refine missing fun j bound => ?_
              cases j with
              | zero => exact ⟨first, List.mem_cons_self .., atFirst⟩
              | succ j =>
                  obtain ⟨other, member, isOther⟩ := all j (by omega)
                  exact ⟨other, List.mem_cons_of_mem _ member, by omega⟩

theorem sorted_arcs (nodup : (arcs.map OneArc.result).Nodup) :
    Ascending (fun arc => arc.result.toNat) (arcs.insertionSort fun a b => a.result ≤ b.result) := by
  have total : Std.Total fun a b : OneArc => a.result ≤ b.result := ⟨fun _ _ => UInt8.le_total _ _⟩
  have trans : IsTrans OneArc fun a b => a.result ≤ b.result := ⟨fun _ _ _ => UInt8.le_trans⟩
  have perm := List.perm_insertionSort (fun a b : OneArc => a.result ≤ b.result) arcs
  have distinct : (arcs.insertionSort fun a b => a.result ≤ b.result).Pairwise
      fun a b => a.result ≠ b.result :=
    List.pairwise_map.mp ((perm.map OneArc.result).nodup_iff.mpr nodup)
  refine ((List.pairwise_insertionSort _ arcs).and distinct).imp fun both => ?_
  exact UInt8.lt_iff_toNat_lt.mp (UInt8.lt_of_le_of_ne both.1 both.2)

theorem vec_length : (checkAndConvertToVec arcs).2.length = arcs.length := by
  rw [checkAndConvertToVec, fillArcs_length, List.length_insertionSort]

theorem vec_dense (nodup : (arcs.map OneArc.result).Nodup) (member : arc ∈ arcs)
    (all : ∀ k ≤ arc.result.toNat, ∃ other ∈ arcs, other.result.toNat = k) :
    (checkAndConvertToVec arcs).2[arc.result.toNat]? = some arc.state := by
  refine fillArcs_dense (sorted_arcs nodup) (fun _ _ => Nat.zero_le _)
    ((List.mem_insertionSort _).mpr member) (Nat.zero_add _).symm fun j bound => ?_
  obtain ⟨other, inside, isOther⟩ := all j bound
  exact ⟨other, (List.mem_insertionSort _).mpr inside, by omega⟩

theorem vec_sparse (nodup : (arcs.map OneArc.result).Nodup) (inside : k < arcs.length)
    (missing : ¬ ∀ j ≤ k, ∃ other ∈ arcs, other.result.toNat = j) :
    (checkAndConvertToVec arcs).2[k]? = some 0 := by
  refine fillArcs_sparse (sorted_arcs nodup) (fun _ _ => Nat.zero_le _)
    (by rwa [List.length_insertionSort]) fun all => missing fun j bound => ?_
  obtain ⟨other, member, isOther⟩ := all j bound
  exact ⟨other, (List.mem_insertionSort _).mp member, by omega⟩

end Arcs

/-! ## What `Init` accepts -/

section Init

variable {m m' : Machine} {t : Table}

theorem insertStates_of_nodup {states more : List State}
    (nodup : ((states ++ more).map State.id).Nodup) :
    insertStates states more = some (states ++ more) := by
  induction more generalizing states with
  | nil => rw [insertStates, List.append_nil]
  | cons st rest ih =>
      have fresh : states.find? (fun other => other.id = st.id) = none := by
        refine List.find?_eq_none.mpr fun other member => ?_
        rw [List.map_append, List.map_cons] at nodup
        have apart := (List.nodup_append.mp nodup).2.2 other.id (List.mem_map_of_mem member) st.id
          (List.mem_cons_self ..)
        simpa using apart
      rw [insertStates, fresh, if_neg (by decide), ih (by rwa [List.append_assoc]), List.append_assoc]
      rfl

def SameKey (a b : Transition) : Prop :=
  a.state = b.state ∧ eventKey a.eventType = eventKey b.eventType

/-- The machine with one more transition. -/
def insertOne (m : Machine) (tr : Transition) : Machine :=
  { m with
    transitions := fun state event =>
      if state = tr.state ∧ event = eventKey tr.eventType then some tr
      else m.transitions state event }

/-- The first of some transitions with a key; otherwise that of the machine. -/
def insertAll (m : Machine) (more : List Transition) : Machine :=
  { m with
    transitions := fun state event =>
      Option.or (more.find? fun tr => tr.state = state ∧ eventKey tr.eventType = event)
        (m.transitions state event) }

theorem insertOne_free {tr other : Transition} :
    (insertOne m tr).transitions other.state (eventKey other.eventType) = none ↔
      ¬ SameKey tr other ∧ m.transitions other.state (eventKey other.eventType) = none := by
  unfold insertOne SameKey
  dsimp only
  by_cases same : other.state = tr.state ∧ eventKey other.eventType = eventKey tr.eventType
  · rw [if_pos same]
    refine ⟨fun none' => (nomatch none'), fun both => absurd ⟨same.1.symm, same.2.symm⟩ both.1⟩
  · rw [if_neg same]
    refine ⟨fun free => ⟨fun other => same ⟨other.1.symm, other.2.symm⟩, free⟩, And.right⟩

theorem insertAll_cons {tr : Transition} {rest : List Transition}
    (apart : ∀ other ∈ rest, ¬ SameKey tr other) :
    insertAll (insertOne m tr) rest = insertAll m (tr :: rest) := by
  unfold insertAll insertOne
  congr 1
  funext state event
  rw [List.find?_cons]
  dsimp only
  by_cases key : tr.state = state ∧ eventKey tr.eventType = event
  · have absent : (rest.find? fun other => other.state = state ∧ eventKey other.eventType = event) =
        none := by
      refine List.find?_eq_none.mpr fun other member isKey => apart other member ?_
      have both := of_decide_eq_true isKey
      exact ⟨key.1.trans both.1.symm, key.2.trans both.2.symm⟩
    rw [absent, decide_eq_true key, Option.none_or, if_pos ⟨key.1.symm, key.2.symm⟩]
    rfl
  · rw [decide_eq_false key, if_neg fun other => key ⟨other.1.symm, other.2.symm⟩]

/-- Transitions are inserted when their states are known and their keys are not taken. -/
theorem insertTransitions_iff {more : List Transition} :
    insertTransitions m more = some m' ↔
      (∀ tr ∈ more, (geState m tr.state).isSome ∧
        m.transitions tr.state (eventKey tr.eventType) = none) ∧
      more.Pairwise (fun a b => ¬ SameKey a b) ∧ m' = insertAll m more := by
  induction more generalizing m with
  | nil =>
      have same : insertAll m [] = m := rfl
      rw [insertTransitions, same, Option.some.injEq, eq_comm]
      exact ⟨fun isResult => ⟨fun _ member => (nomatch member), List.Pairwise.nil, isResult⟩,
        fun all => all.2.2⟩
  | cons tr rest ih =>
      have unfolded : insertTransitions m (tr :: rest) = some m' ↔
          ((geState m tr.state).isSome ∧ m.transitions tr.state (eventKey tr.eventType) = none) ∧
            insertTransitions (insertOne m tr) rest = some m' := by
        rw [insertTransitions]
        cases geState m tr.state with
        | none => exact ⟨fun none' => (nomatch none'), fun both => nomatch both.1.1⟩
        | some st =>
            cases m.transitions tr.state (eventKey tr.eventType) with
            | none => exact ⟨fun inserted => ⟨⟨rfl, rfl⟩, inserted⟩, And.right⟩
            | some other => exact ⟨fun none' => (nomatch none'), fun both => nomatch both.1.2⟩
      rw [unfolded, ih, List.forall_mem_cons, List.pairwise_cons]
      constructor
      · rintro ⟨first, all, pairwise, rfl⟩
        have apart : ∀ other ∈ rest, ¬ SameKey tr other := fun other member =>
          (insertOne_free.mp (all other member).2).1
        exact ⟨⟨first, fun other member => ⟨(all other member).1,
          (insertOne_free.mp (all other member).2).2⟩⟩, ⟨apart, pairwise⟩, insertAll_cons apart⟩
      · rintro ⟨⟨first, all⟩, ⟨apart, pairwise⟩, rfl⟩
        exact ⟨first, fun other member => ⟨(all other member).1,
          insertOne_free.mpr ⟨apart other member, (all other member).2⟩⟩, pairwise,
          (insertAll_cons apart).symm⟩

theorem geState_machine (id : UInt8) : geState t.machine id = (t.state id).map StateRow.build :=
  List.find?_map ..

theorem state_isSome {id : UInt8} : (t.state id).isSome ↔ ∃ row ∈ t.states, row.id = id := by
  rw [Table.state, List.find?_isSome]
  simp only [decide_eq_true_eq]

/-- `SetStates` on an empty machine. -/
theorem setStates_empty (wellFormed : WellFormed t) :
    setStates .empty (t.states.map StateRow.build) t.startState t.endState =
      if t.startState = 0 ∨ t.endState = 0 ∨ t.states = [] then none
      else some (if (t.state t.endState).isNone then -3 else 0,
        { t.machine with transitions := fun _ _ => none }) := by
  have ids : ((t.states.map StateRow.build).map State.id).Nodup := by
    rw [List.map_map]
    exact wellFormed.ids
  have inserted : insertStates [] (t.states.map StateRow.build) =
      some (t.states.map StateRow.build) := insertStates_of_nodup ids
  have mapped : (t.startState = 0 ∨ t.endState = 0 ∨ t.states.map StateRow.build = []) ↔
      (t.startState = 0 ∨ t.endState = 0 ∨ t.states = []) := by
    rw [List.map_eq_nil_iff]
  unfold setStates
  by_cases stops : t.startState = 0 ∨ t.endState = 0 ∨ t.states = []
  · rw [if_pos stops, if_pos (mapped.mpr stops)]
  · rw [if_neg stops, if_neg (fun other => stops (mapped.mp other)), if_neg (fun some' => some' rfl),
      inserted]
    dsimp only
    have found : geState ⟨t.states.map StateRow.build, Machine.empty.transitions, t.startState,
        t.endState⟩ t.endState = (t.state t.endState).map StateRow.build := List.find?_map ..
    rw [found, Option.isNone_map]
    cases (t.state t.endState).isNone with
    | false => rfl
    | true => rfl

theorem insertAll_machine :
    insertAll { t.machine with transitions := fun _ _ => none }
        (t.transitions.map TransitionRow.build) =
      t.machine := by
  unfold insertAll Table.machine
  congr 1
  funext state event
  exact Option.or_none

/-- `Init` on an empty machine returns 0 when it gets past the assertions, finds the end state and
inserts all transitions. -/
theorem init_empty (wellFormed : WellFormed t) :
    init .empty t = some (0, m) ↔ ¬ (t.startState = 0 ∨ t.endState = 0 ∨ t.states = []) ∧
      (t.state t.endState).isSome ∧
      insertTransitions { t.machine with transitions := fun _ _ => none }
        (t.transitions.map TransitionRow.build) = some m := by
  unfold init
  rw [setStates_empty wellFormed]
  by_cases stops : t.startState = 0 ∨ t.endState = 0 ∨ t.states = []
  · rw [if_pos stops]
    exact ⟨fun none' => (nomatch none'), fun all => absurd stops all.1⟩
  · rw [if_neg stops, Option.map_some]
    cases t.state t.endState with
    | none =>
        refine ⟨fun failed => ?_, fun all => nomatch all.2.1⟩
        exact absurd (congrArg (Option.map Prod.fst) failed) (by simp)
    | some row =>
        dsimp only
        unfold setTransitions
        cases insertTransitions { t.machine with transitions := fun _ _ => none }
            (t.transitions.map TransitionRow.build) with
        | none =>
            refine ⟨fun failed => ?_, fun all => nomatch all.2.2⟩
            exact absurd (congrArg (Option.map Prod.fst) failed) (by simp)
        | some m' =>
            refine ⟨fun accepted => ⟨stops, rfl, ?_⟩, fun all => ?_⟩
            · exact congrArg (Option.map Prod.snd) accepted
            · rw [Option.some.inj all.2.2]
              rfl

theorem init_iff (wellFormed : WellFormed t) :
    init .empty t = some (0, m) ↔ Accepted t ∧ m = t.machine := by
  rw [init_empty wellFormed, insertTransitions_iff, insertAll_machine, state_isSome]
  have known : (∀ tr ∈ t.transitions.map TransitionRow.build,
      (geState { t.machine with transitions := fun _ _ => none } tr.state).isSome ∧
        ({ t.machine with transitions := fun _ _ => none } : Machine).transitions tr.state
          (eventKey tr.eventType) = none) ↔
      ∀ row ∈ t.transitions, ∃ st ∈ t.states, st.id = row.state := by
    rw [List.forall_mem_map]
    refine forall₂_congr fun row _ => ?_
    have found : geState { t.machine with transitions := fun _ _ => none } row.build.state =
        (t.state row.state).map StateRow.build := geState_machine row.state
    rw [found, Option.isSome_map, state_isSome]
    exact and_iff_left rfl
  rw [known, List.pairwise_map]
  constructor
  · rintro ⟨goes, endKnown, listed, apart, isMachine⟩
    exact ⟨⟨fun noStart => goes (Or.inl noStart), fun noEnd => goes (Or.inr (Or.inl noEnd)), endKnown,
      listed, apart⟩, isMachine⟩
  · rintro ⟨accepted, isMachine⟩
    refine ⟨?_, accepted.endKnown, accepted.known, accepted.lowBytes, isMachine⟩
    rintro (noStart | noEnd | noStates)
    · exact accepted.start noStart
    · exact accepted.endState noEnd
    · obtain ⟨row, member, -⟩ := accepted.endKnown
      rw [noStates] at member
      cases member

/-- A machine with states always refuses, and forgets them. -/
theorem init_again {again : Table} (some' : m.states ≠ []) :
    init m again =
      if again.startState = 0 ∨ again.endState = 0 ∨ again.states = [] then none
      else some (1, { m with states := [], transitions := fun _ _ => none }) := by
  have mapped : (again.startState = 0 ∨ again.endState = 0 ∨ again.states.map StateRow.build = []) ↔
      (again.startState = 0 ∨ again.endState = 0 ∨ again.states = []) := by
    rw [List.map_eq_nil_iff]
  unfold init setStates
  by_cases stops : again.startState = 0 ∨ again.endState = 0 ∨ again.states = []
  · rw [if_pos stops, if_pos (mapped.mpr stops)]
    rfl
  · rw [if_neg stops, if_neg (fun other => stops (mapped.mp other)), if_pos some']
    rfl

end Init

/-! ## One step -/

section Steps

variable {t : Table} {s s' : System} {c : Context}

/-- The machine is that of the table, and a transition whose action runs is one of the table's. -/
structure Inv (t : Table) (s : System) : Prop where
  machine : s.machine = t.machine
  transition : ∀ tr, s.context.phase = .transitionAction tr → ∃ row ∈ t.transitions, tr = row.build

theorem Inv.states_ne_nil (inv : Inv t s) (accepted : Accepted t) : s.machine.states ≠ [] := by
  obtain ⟨row, member, -⟩ := accepted.endKnown
  rw [inv.machine]
  exact List.ne_nil_of_mem (List.mem_map_of_mem member)

/-- Transitions with the same state and event type are the same. -/
theorem same_row (wellFormed : WellFormed t) {row row' : TransitionRow} (member : row ∈ t.transitions)
    (member' : row' ∈ t.transitions) (state : row.state = row'.state)
    (event : row.eventType = row'.eventType) : row = row' :=
  List.inj_on_of_nodup_map wellFormed.pairs member member' (Prod.ext state event)

theorem transition_some {state : UInt8} {event : Int} {row : TransitionRow}
    (found : t.transition state event = some row) :
    row ∈ t.transitions ∧ row.state = state ∧ row.eventType = event := by
  unfold Table.transition at found
  exact ⟨List.mem_of_find?_eq_some found, by simpa using List.find?_some found⟩

theorem transition_row (wellFormed : WellFormed t) {row : TransitionRow}
    (member : row ∈ t.transitions) :
    t.transition row.state row.eventType = some row := by
  cases found : t.transition row.state row.eventType with
  | none => exact absurd (decide_eq_true ⟨rfl, rfl⟩) (List.find?_eq_none.mp found row member)
  | some row' =>
      obtain ⟨member', state, event⟩ := transition_some found
      rw [same_row wellFormed member' member state event]

theorem geTransition_machine (state : UInt8) (event : Int) :
    geTransition t.machine state event =
      (t.transitions.find? fun row => row.state = state ∧ eventKey row.eventType = eventKey event).map
        TransitionRow.build :=
  List.find?_map ..

/-- Events are dispatched as the table says when its transitions with the low byte have the type. -/
theorem processEvent_iff (accepted : Accepted t) (machine : s.machine = t.machine) (type : Int) :
    processEvent s.machine s.context type = t.processEvent s.context type ↔
      Allowed t s (.event type) := by
  unfold processEvent Table.processEvent Allowed
  rw [machine]
  cases isPhase : s.context.phase with
  | idle =>
      dsimp only
      rw [geTransition_machine]
      constructor
      · intro same _ row member state low
        cases found : t.transitions.find? fun row =>
            row.state = s.context.curState ∧ eventKey row.eventType = eventKey type with
        | none =>
            exact absurd (decide_eq_true ⟨state, low⟩) (List.find?_eq_none.mp found row member)
        | some row' =>
            obtain ⟨state', low'⟩ : row'.state = s.context.curState ∧
                eventKey row'.eventType = eventKey type := by
              simpa using List.find?_some found
            obtain rfl : row' = row := by
              by_contra other
              have symm : Std.Symm fun a b : TransitionRow =>
                  ¬ (a.state = b.state ∧ eventKey a.eventType = eventKey b.eventType) :=
                ⟨fun a b apart key => apart ⟨key.1.symm, key.2.symm⟩⟩
              exact accepted.lowBytes.forall (List.mem_of_find?_eq_some found) member other
                ⟨state'.trans state.symm, low'.trans low.symm⟩
            rw [found] at same
            cases found' : t.transition s.context.curState type with
            | none =>
                rw [found'] at same
                cases congrArg (Option.map Prod.fst) same
            | some row'' =>
                rw [found'] at same
                injection same with pair
                injection pair with code context
                injection context with cur phase
                injection phase with isBuild
                injection isBuild with _ sameType
                exact sameType.trans (transition_some found').2.2
      · intro allowed
        have same : (t.transitions.find? fun row => row.state = s.context.curState ∧
            eventKey row.eventType = eventKey type) = t.transition s.context.curState type := by
          refine List.find?_congr fun row member => decide_eq_decide.mpr ⟨fun key => ?_, fun key => ?_⟩
          · exact ⟨key.1, allowed rfl row member key.1 key.2⟩
          · exact ⟨key.1, congrArg eventKey key.2⟩
        rw [same]
        cases t.transition s.context.curState type with
        | none => rfl
        | some row => rfl
  | stateAction => exact ⟨fun _ idle => (nomatch idle), fun _ => rfl⟩
  | transitionAction tr => exact ⟨fun _ idle => (nomatch idle), fun _ => rfl⟩
  | ended => exact ⟨fun _ idle => (nomatch idle), fun _ => rfl⟩
  | undefined => exact ⟨fun _ idle => (nomatch idle), fun _ => rfl⟩

/-- The vector that is read has the arcs of the running action. -/
theorem getNexState_eq (wellFormed : WellFormed t) (inv : Inv t s) {arcs : List OneArc}
    (isArcs : t.arcs s.context = some arcs) (result : UInt8) :
    getNexState s.machine s.context result = (checkAndConvertToVec arcs).2[result.toNat]? ∧
      (arcs.map OneArc.result).Nodup ∧
      actionReturned s.machine s.context result =
        some (goOn s.machine s.context (getNexState s.machine s.context result)) := by
  unfold Table.arcs at isArcs
  unfold actionReturned getNexState
  rw [inv.machine]
  cases isPhase : s.context.phase with
  | stateAction =>
      rw [isPhase] at isArcs
      dsimp only at isArcs ⊢
      by_cases isEnd : s.context.curState = t.endState
      · rw [if_pos isEnd] at isArcs
        cases isArcs
      · rw [if_neg isEnd] at isArcs
        obtain ⟨row, found, rfl⟩ := Option.map_eq_some_iff.mp isArcs
        rw [if_neg (show ¬ s.context.curState = t.machine.endState from isEnd), geState_machine, found]
        exact ⟨rfl, wellFormed.stateResults row (List.mem_of_find?_eq_some found), rfl⟩
  | transitionAction tr =>
      rw [isPhase] at isArcs
      dsimp only at isArcs ⊢
      obtain ⟨row, member, rfl⟩ := inv.transition tr isPhase
      have found : t.transition row.build.state row.build.eventType = some row :=
        transition_row wellFormed member
      rw [found] at isArcs
      cases isArcs
      exact ⟨rfl, wellFormed.transitionResults row member, rfl⟩
  | idle => rw [isPhase] at isArcs; cases isArcs
  | ended => rw [isPhase] at isArcs; cases isArcs
  | undefined => rw [isPhase] at isArcs; cases isArcs

theorem goOn_eq {nextState : UInt8} :
    (nextState ≠ 0 → ∃ row ∈ t.states, row.id = nextState) ↔
      some (goOn t.machine c (some nextState)) = t.goOn c nextState := by
  unfold goOn Table.goOn
  dsimp only
  by_cases stays : nextState = 0
  · rw [if_pos stays, if_pos stays]
    exact ⟨fun _ => rfl, fun _ goes => absurd stays goes⟩
  · rw [if_neg stays, if_neg stays, internalGotoState, geState_machine, ← state_isSome]
    cases t.state nextState with
    | none => exact ⟨fun listed => (nomatch listed stays), fun same => nomatch same⟩
    | some row => exact ⟨fun _ => rfl, fun _ _ => rfl⟩

/-- Results lead where the table says when they are kept. -/
theorem result_iff (wellFormed : WellFormed t) (inv : Inv t s) (result : UInt8) :
    Right t s (.result result) ↔ Allowed t s (.result result) := by
  refine forall₂_congr fun arcs isArcs => ?_
  obtain ⟨read, nodup, returned⟩ := getNexState_eq wellFormed inv isArcs result
  rw [returned, read, inv.machine]
  constructor
  · rintro ⟨nextState, isNext, agrees⟩
    rw [isNext] at agrees
    have inside : result.toNat < arcs.length := by
      have bound := (List.getElem?_eq_some_iff.mp isNext).1
      rwa [vec_length] at bound
    refine ⟨inside, fun arc member isResult goes => ?_⟩
    obtain ⟨rfl, same⟩ := agrees arc member isResult
    refine ⟨goOn_eq.mpr same goes, ?_⟩
    by_contra missing
    rw [vec_sparse nodup inside missing] at isNext
    exact goes (Option.some.inj isNext).symm
  · intro kept
    have inside : result.toNat < (checkAndConvertToVec arcs).2.length := by
      rw [vec_length]
      exact kept.inside
    obtain ⟨nextState, isNext⟩ : ∃ nextState,
        (checkAndConvertToVec arcs).2[result.toNat]? = some nextState :=
      ⟨_, List.getElem?_eq_getElem inside⟩
    rw [isNext]
    refine ⟨nextState, rfl, fun arc member isResult => ?_⟩
    have isState : nextState = arc.state := by
      by_cases all : ∀ k ≤ result.toNat, ∃ other ∈ arcs, other.result.toNat = k
      · have dense := vec_dense nodup member (by rwa [isResult])
        rw [isResult, isNext] at dense
        exact Option.some.inj dense
      · rw [vec_sparse nodup kept.inside all] at isNext
        by_contra other
        have goes : arc.state ≠ 0 := fun stays =>
          other ((Option.some.inj isNext).symm.trans stays.symm)
        exact all (kept.dense arc member isResult goes).2
    rw [isState]
    exact ⟨rfl, goOn_eq.mp fun goes => (kept.dense arc member isResult goes).1⟩

/-- A second `Init` that gets past the assertions forgets the states. -/
theorem init_iff_stops (accepted : Accepted t) (inv : Inv t s) (again : Table) :
    Right t s (.init again) ↔ Allowed t s (.init again) := by
  have some' := inv.states_ne_nil accepted
  unfold Right Allowed
  dsimp only
  rw [init_again some']
  constructor
  · intro keeps
    by_contra goes
    rw [if_neg goes] at keeps
    exact some' (keeps 1 _ rfl (by decide)).1.symm
  · intro stops
    rw [if_pos stops]
    exact fun _ _ none' => nomatch none'

theorem right_iff (wellFormed : WellFormed t) (accepted : Accepted t) (inv : Inv t s) (label : Label) :
    Right t s label ↔ Allowed t s label := by
  cases label with
  | event type => exact processEvent_iff accepted inv.machine type
  | result result => exact result_iff wellFormed inv result
  | init again => exact init_iff_stops accepted inv again

theorem internalGotoState_phase {m : Machine} {stateId : UInt8} {tr : Transition} :
    (internalGotoState m c stateId).phase ≠ .transitionAction tr := by
  unfold internalGotoState
  cases geState m stateId with
  | none => exact nofun
  | some st =>
      dsimp only
      by_cases action : st.hasAction
      · rw [if_pos action]
        exact nofun
      · rw [if_neg action]
        by_cases isEnd : stateId = m.endState
        · rw [if_pos isEnd]
          exact nofun
        · rw [if_neg isEnd]
          exact nofun

theorem goOn_phase {m : Machine} {nextState : Option UInt8} {tr : Transition} :
    (goOn m c nextState).phase ≠ .transitionAction tr := by
  cases nextState with
  | none => exact nofun
  | some nextState =>
      unfold goOn
      dsimp only
      by_cases stays : nextState = 0
      · rw [if_pos stays]
        exact nofun
      · rw [if_neg stays]
        exact internalGotoState_phase

theorem actionReturned_phase {m : Machine} {result : UInt8} {c' : Context} {tr : Transition}
    (returned : actionReturned m c result = some c') : c'.phase ≠ .transitionAction tr := by
  unfold actionReturned at returned
  cases was : c.phase with
  | stateAction =>
      rw [was] at returned
      dsimp only at returned
      by_cases isEnd : c.curState = m.endState
      · rw [if_pos isEnd] at returned
        cases returned
        exact nofun
      · rw [if_neg isEnd] at returned
        cases returned
        exact goOn_phase
  | transitionAction tr =>
      rw [was] at returned
      cases returned
      exact goOn_phase
  | idle => rw [was] at returned; cases returned
  | ended => rw [was] at returned; cases returned
  | undefined => rw [was] at returned; cases returned

theorem step_inv (accepted : Accepted t) (inv : Inv t s) {label : Label} (allowed : Allowed t s label)
    (taken : step s label = some s') : Inv t s' := by
  cases label with
  | event type =>
      obtain ⟨⟨code, c⟩, processed, rfl⟩ := Option.map_eq_some_iff.mp taken
      refine ⟨inv.machine, fun tr isPhase => ?_⟩
      rw [(processEvent_iff accepted inv.machine type).mpr allowed, Table.processEvent] at processed
      dsimp only at isPhase
      cases was : s.context.phase with
      | idle =>
          rw [was] at processed
          dsimp only at processed
          cases found : t.transition s.context.curState type with
          | none =>
              rw [found] at processed
              cases processed
              exact absurd (was.symm.trans isPhase) nofun
          | some row =>
              rw [found] at processed
              cases processed
              injection isPhase with isBuild
              exact ⟨row, (transition_some found).1, isBuild.symm⟩
      | ended =>
          rw [was] at processed
          cases processed
          exact absurd (was.symm.trans isPhase) nofun
      | stateAction => rw [was] at processed; cases processed
      | transitionAction tr => rw [was] at processed; cases processed
      | undefined => rw [was] at processed; cases processed
  | result result =>
      obtain ⟨c, returned, rfl⟩ := Option.map_eq_some_iff.mp taken
      exact ⟨inv.machine, fun tr isPhase => absurd isPhase (actionReturned_phase returned)⟩
  | init again =>
      have stops : again.startState = 0 ∨ again.endState = 0 ∨ again.states = [] := allowed
      rw [step, init_again (inv.states_ne_nil accepted), if_pos stops] at taken
      cases taken

theorem start_inv (t : Table) : Inv t (start t.machine) :=
  ⟨rfl, fun _ isPhase => absurd isPhase internalGotoState_phase⟩

end Steps

/-- The first step of a run that follows the table is allowed. -/
theorem Follows.first_allowed {t : Table} {label : Label} {labels : List Label}
    (follows : Follows t (label :: labels)) (wellFormed : WellFormed t) :
    Allowed t (start t.machine) label := by
  obtain ⟨m, done, right, -⟩ := follows
  obtain ⟨accepted, rfl⟩ := (init_iff wellFormed).mp done
  exact (right_iff wellFormed accepted (start_inv t) label).mp right

/-- For every table and every run of a context: the machine follows the table exactly when `Init` accepts
it and every step is allowed. -/
theorem follows_iff {t : Table} (wellFormed : WellFormed t) (labels : List Label) :
    Follows t labels ↔ Accepted t ∧ Meets step (Allowed t) (start t.machine) labels := by
  have agree : Accepted t → (Meets step (Right t) (start t.machine) labels ↔
      Meets step (Allowed t) (start t.machine) labels) := fun accepted =>
    meets_congr (fun s label inv => right_iff wellFormed accepted inv label)
      (fun s label s' inv right taken =>
        step_inv accepted inv ((right_iff wellFormed accepted inv label).mp right) taken)
      (start_inv t)
  constructor
  · rintro ⟨m, done, meets⟩
    obtain ⟨accepted, rfl⟩ := (init_iff wellFormed).mp done
    exact ⟨accepted, (agree accepted).mp meets⟩
  · rintro ⟨accepted, meets⟩
    exact ⟨t.machine, (init_iff wellFormed).mpr ⟨accepted, rfl⟩, (agree accepted).mpr meets⟩

/-- Event 1 leads from state 1 to the end state 2 when its action returns 0, and state 1 stays when it
returns 1. -/
def smallTable : Table where
  states := [⟨1, false, []⟩, ⟨2, false, []⟩]
  transitions := [⟨1, 1, [⟨1, 0⟩, ⟨0, 2⟩]⟩]
  startState := 1
  endState := 2

theorem smallTable_wellFormed : WellFormed smallTable :=
  ⟨by decide, by decide, by decide, by decide, by decide⟩

theorem follows_small :
    Follows smallTable [.event 7, .event 1, .result 1, .event 1, .result 0, .event 1] :=
  (follows_iff smallTable_wellFormed _).mpr
    ⟨⟨by decide, by decide, by decide, by decide, by decide⟩, by decide⟩

/-- The table of a test of the source: the action of state 1 returns 1, which is its only arc. -/
def sparseTable : Table where
  states := [⟨1, true, [⟨1, 1⟩]⟩, ⟨2, true, [⟨2, 2⟩]⟩, ⟨3, false, []⟩]
  transitions := []
  startState := 1
  endState := 3

/-- A listed result is read outside of the vector, an event with another type runs the action of
event 1, and a second `Init` forgets the states. -/
theorem not_follows :
    (WellFormed sparseTable ∧ ¬ Follows sparseTable [.result 1]) ∧ WellFormed smallTable ∧
      ¬ Follows smallTable [.event 257] ∧ ¬ Follows smallTable [.init smallTable] := by
  have sparse : WellFormed sparseTable := ⟨by decide, by decide, by decide, by decide, by decide⟩
  have small := smallTable_wellFormed
  exact ⟨⟨sparse, fun follows => absurd (follows.first_allowed sparse) (by decide)⟩, small,
    fun follows => absurd (follows.first_allowed small) (by decide),
    fun follows => absurd (follows.first_allowed small) (by decide)⟩

end MlsImgSearch.Blitz2.StateTable
