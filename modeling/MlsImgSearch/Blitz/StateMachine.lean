import Mathlib.Data.List.Basic
import Mathlib.Logic.Function.Basic
import MlsImgSearch.Lib.Run

/-!
# State machine contexts

`StartOneContext` and `ProcessEvent` may be called from any number of threads.
Each section under a lock is one step. The actions belong to the user of the
machine: a label carries the values that the actions return in its section, so
that every behaviour of the actions is some choice of labels.
-/

namespace MlsImgSearch.Blitz.StateMachine

open MlsImgSearch.Lib.Run

/-! ## The machine -/

structure Machine where
  /-- `none` if there is no such state, else whether the state has an action. -/
  states : Int → Option Bool
  /-- Whether there is a transition for a state and an event type. -/
  transitions : Int → Int → Bool
  startState : Int
  endState : Int

structure InternalContext where
  id : BitVec 32
  curState : Int
  prevState : Int

/-- Follow the states that the actions ask for. The result is the return code, the number of
actions that ran and the context; `none` is a failed assertion or too few results. -/
def internalGotoState (m : Machine) :
    List Int → InternalContext → Int → Option (Int × Nat × InternalContext)
  | results, context, stateId =>
      match m.states stateId with
      | none => none
      | some false =>
          some (if stateId = m.endState then 1 else 0, 0,
            { context with prevState := context.curState, curState := stateId })
      | some true =>
          match results with
          | [] => none
          | nextState :: rest =>
              let entered := { context with prevState := context.curState, curState := stateId }
              if stateId = m.endState then some (1, 1, entered)
              else if 0 < nextState then
                (internalGotoState m rest entered nextState).map
                  fun (ret, ran, context') => (ret, ran + 1, context')
              else some (nextState, 1, entered)

theorem internalGotoState_id {m : Machine} {results : List Int} {context context' : InternalContext}
    {stateId ret : Int} {ran : Nat}
    (done : internalGotoState m results context stateId = some (ret, ran, context')) :
    context'.id = context.id := by
  induction results generalizing context context' stateId ret ran with
  | nil =>
      unfold internalGotoState at done
      split at done
      · cases done
      · obtain ⟨-, -, rfl⟩ := done
        rfl
      · cases done
  | cons nextState rest ih =>
      unfold internalGotoState at done
      split at done
      · cases done
      · obtain ⟨-, -, rfl⟩ := done
        rfl
      · dsimp only at done
        split at done
        · obtain ⟨-, -, rfl⟩ := done
          rfl
        · split at done
          · obtain ⟨⟨r, n, c⟩, inner, result⟩ := Option.map_eq_some_iff.mp done
            obtain ⟨-, -, rfl⟩ := result
            exact (ih inner).trans rfl
          · obtain ⟨-, -, rfl⟩ := done
            rfl

/-! ## Calls -/

/-- Where a call of `StartOneContext` or `ProcessEvent` stands. Contexts are named by the order of
their allocation. -/
inductive Call where
  | idle
  | inserting (c : Nat)
  | refused (c : Nat)
  | starting (c : Nat)
  | delivering (c : Nat) (type : Int)
  | completing (c : Nat) (res : Int)
  | erasing (c : Nat)
  | returned (ret : Int)

/-- What the user of the machine sees. -/
inductive Event where
  | action (c : Nat)
  | decided (c : Nat)
  | contextEnd (c : Nat) (res : Int)
  | returned (c : Nat)
  deriving DecidableEq

structure State where
  nextContextId : BitVec 32
  heap : Nat → InternalContext
  allocated : Nat
  contexts : BitVec 32 → Option Nat
  calls : Nat → Call
  trace : List Event

def State.initial : State :=
  ⟨0, fun _ => ⟨0, 0, 0⟩, 0, fun _ => none, fun _ => .idle, []⟩

inductive Label where
  | startOneContext (call : Nat)
  | insert (call : Nat)
  | enterStart (call : Nat) (results : List Int)
  | processEvent (call : Nat) (contextId : BitVec 32) (type : Int)
  | enterEvent (call : Nat) (results : List Int)
  | callback (call : Nat)
  | onContextEnd (call : Nat)

/-- The end of a section under the mutex of a context: with a code other than 0 the context is
finished, and the call goes on to report it. -/
def leaveSection (s : State) (call c : Nat) : Int × Nat × InternalContext → State
  | (ret, ran, context) =>
      { s with
        heap := Function.update s.heap c context
        trace := s.trace ++ List.replicate ran (.action c) ++ (if ret = 0 then [] else [.decided c])
        calls := Function.update s.calls call
          (if ret = 0 then .returned 0 else .completing c (if ret = 1 then 0 else ret)) }

/-- The part of `ProcessEvent` under the mutex, for a transition whose action returns
`nextState`. -/
def takeTransition (m : Machine) (context : InternalContext) (nextState : Int)
    (rest : List Int) : Option (Int × Nat × InternalContext) :=
  if 0 < nextState then
    (internalGotoState m rest context nextState).map fun (ret, ran, context') =>
      (ret, ran + 1, context')
  else some (nextState, 1, context)

def step (m : Machine) (s : State) : Label → Option State
  | .startOneContext call =>
      match s.calls call with
      | .idle =>
          let id := s.nextContextId + 1
          some { s with
            nextContextId := id
            heap := Function.update s.heap s.allocated ⟨id, m.startState, 0⟩
            allocated := s.allocated + 1
            calls := Function.update s.calls call (.inserting s.allocated) }
      | _ => none
  | .insert call =>
      match s.calls call with
      | .inserting c =>
          match s.contexts (s.heap c).id with
          | none => some { s with
              contexts := Function.update s.contexts (s.heap c).id (some c)
              calls := Function.update s.calls call (.starting c) }
          | some _ => some { s with
              trace := s.trace ++ [.decided c]
              calls := Function.update s.calls call (.refused c) }
      | _ => none
  | .enterStart call results =>
      match s.calls call with
      | .starting c =>
          (internalGotoState m results (s.heap c) m.startState).map (leaveSection s call c)
      | _ => none
  | .processEvent call contextId type =>
      match s.calls call with
      | .idle =>
          match s.contexts contextId with
          | none => some { s with calls := Function.update s.calls call (.returned 1) }
          | some c => some { s with calls := Function.update s.calls call (.delivering c type) }
      | _ => none
  | .enterEvent call results =>
      match s.calls call with
      | .delivering c type =>
          if m.transitions (s.heap c).curState type then
            match results with
            | [] => none
            | nextState :: rest =>
                (takeTransition m (s.heap c) nextState rest).map (leaveSection s call c)
          else some { s with calls := Function.update s.calls call (.returned 2) }
      | _ => none
  | .callback call =>
      match s.calls call with
      | .completing c res => some { s with
          trace := s.trace ++ [.contextEnd c res]
          calls := Function.update s.calls call (.erasing c) }
      | .refused c => some { s with
          trace := s.trace ++ [.contextEnd c (-2), .returned c]
          calls := Function.update s.calls call (.returned (-2)) }
      | _ => none
  | .onContextEnd call =>
      match s.calls call with
      | .erasing c => some { s with
          contexts := Function.update s.contexts (s.heap c).id none
          trace := s.trace ++ [.returned c]
          calls := Function.update s.calls call (.returned 0) }
      | _ => none

/-! ## What is wanted -/

def isEndOf (c : Nat) : Event → Bool
  | .contextEnd c' _ => c' = c
  | _ => false

/-- `fn_on_context_end` is invoked at most once for each context. -/
def EndsOnce (s : State) : Prop := ∀ c, s.trace.countP (isEndOf c) ≤ 1

/-- No action of a context runs after its completion has been decided. -/
def NoLateAction (trace : List Event) : Prop :=
  ∀ c before after, trace = before ++ .decided c :: after → .action c ∉ after

/-- A context whose completing call returned is not in the map. -/
def AbsentAfterReturn (s : State) : Prop :=
  ∀ c, .returned c ∈ s.trace → ∀ id, s.contexts id ≠ some c

/-- The context for which a label enters the mutex and goes on to run an action. -/
def entering (m : Machine) (s : State) : Label → Option Nat
  | .enterStart call _ =>
      match s.calls call with
      | .starting c => some c
      | _ => none
  | .enterEvent call _ =>
      match s.calls call with
      | .delivering c type => if m.transitions (s.heap c).curState type then some c else none
      | _ => none
  | _ => none

/-- The mutex of a context is not entered for an action once its completion has been decided. -/
def Clean (m : Machine) (s : State) (label : Label) : Prop :=
  ∀ c ∈ entering m s label, .decided c ∉ s.trace

instance decidableClean (m : Machine) (s : State) (label : Label) : Decidable (Clean m s label) :=
  inferInstanceAs (Decidable (∀ c ∈ entering m s label, .decided c ∉ s.trace))

end MlsImgSearch.Blitz.StateMachine
