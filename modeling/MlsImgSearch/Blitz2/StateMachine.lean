import Mathlib.Data.List.Nodup
import Mathlib.Logic.Function.Basic
import MlsImgSearch.Lib.Run

/-!
# Re-entrant state machine contexts

Actions and end callbacks belong to the user of the machine. While one of them
runs, the machine has suspended its own code: the stack holds one frame for each
running action or callback. The code that runs on top of the stack may call the
machine again, or return to the frame below it.
-/

namespace MlsImgSearch.Blitz2.StateMachine

open Lib.Run

/-! ## The machine -/

/-- Whether a state has an action, and the next state for each result of the action. -/
structure StateDef where
  hasAction : Bool
  arcs : UInt8 → UInt8

/-- What `Init` accepts. Transitions are found by the low byte of an event type. -/
structure Table where
  states : UInt8 → Option StateDef
  transitions : UInt8 → UInt8 → Option (UInt8 → UInt8)
  startState : UInt8
  endState : UInt8
  start : startState ≠ 0
  endKnown : endState ≠ 0 ∧ (states endState).isSome
  known : ∀ state event, (transitions state event).isSome → (states state).isSome

structure InternalContext where
  id : BitVec 32
  curState : UInt8

/-- User code that runs, and what called it. Contexts are named by the order of their allocation. -/
inductive Frame where
  | stateAction (c : Nat) (state : UInt8)
  | transitionAction (c : Nat) (state event : UInt8)
  /-- `inLoop` says that `DeleteAllContext` called it. -/
  | endCallback (c : Nat) (inLoop : Bool)
  /-- The callback of a context whose id is taken. -/
  | refused (c : Nat)
  deriving DecidableEq

/-- The starts of actions and callbacks, and the removals from `contexts_`. -/
inductive Note where
  | action (c : Nat)
  | ended (c : Nat)
  | removed (c : Nat)
  deriving DecidableEq

def Frame.context : Frame → Nat
  | .stateAction c _ => c
  | .transitionAction c _ _ => c
  | .endCallback c _ => c
  | .refused c => c

def Frame.isAction : Frame → Bool
  | .stateAction _ _ => true
  | .transitionAction _ _ _ => true
  | _ => false

def Note.context : Note → Nat
  | .action c => c
  | .ended c => c
  | .removed c => c

/-- `undefined` says that a deleted context or an erased iterator was used. -/
structure State where
  nextContextId : BitVec 32
  allocated : Nat
  heap : Nat → Option InternalContext
  contexts : List (BitVec 32 × Nat)
  stack : List Frame
  trace : List Note
  undefined : Bool

def State.initial : State := ⟨0, 0, fun _ => none, [], [], [], false⟩

def State.broken (s : State) : State := { s with undefined := true }

def findContext (s : State) (id : BitVec 32) : Option Nat :=
  (s.contexts.find? fun entry => entry.1 = id).map Prod.snd

def eventKey (type : Int) : UInt8 := .ofBitVec (BitVec.ofInt 8 type)

/-- `context->fn_on_context_end(context->context)` starts. -/
def endContext (s : State) (c : Nat) (inLoop : Bool) : State :=
  match s.heap c with
  | none => s.broken
  | some _ => { s with stack := .endCallback c inLoop :: s.stack, trace := s.trace ++ [.ended c] }

/-- `InternalGotoState` up to the action of the state, and what its callers do when it returns
without one. -/
def gotoState (t : Table) (s : State) (c : Nat) (stateId : UInt8) : State :=
  match t.states stateId with
  | none => endContext s c false
  | some stateDef =>
      match s.heap c with
      | none => s.broken
      | some context =>
          let s := { s with
            heap := Function.update s.heap c (some { context with curState := stateId }) }
          if stateDef.hasAction then
            { s with stack := .stateAction c stateId :: s.stack, trace := s.trace ++ [.action c] }
          else if stateId = t.endState then endContext s c false
          else s

/-- The arc of a result; 0 keeps the state. -/
def follow (t : Table) (s : State) (c : Nat) (nextState : UInt8) : State :=
  if nextState = 0 then s else gotoState t s c nextState

/-- `OnContextEnd`. In the loop of `DeleteAllContext` the iterator is erased with it. -/
def onContextEnd (s : State) (c : Nat) (inLoop : Bool) : State :=
  match s.heap c with
  | none => s.broken
  | some context =>
      { s with
        heap := Function.update s.heap c none
        contexts := s.contexts.filter fun entry => entry.1 ≠ context.id
        trace := s.trace ++ [.removed c]
        undefined := inLoop }

/-- The machine goes on after a frame that has left the stack. -/
def resume (t : Table) (s : State) (frame : Frame) (result : UInt8) : State :=
  match frame with
  | .stateAction c state =>
      if state = t.endState then endContext s c false
      else
        match t.states state with
        | none => s
        | some stateDef => follow t s c (stateDef.arcs result)
  | .transitionAction c state event =>
      match t.transitions state event with
      | none => s
      | some arcs => follow t s c (arcs result)
  | .endCallback c inLoop => onContextEnd s c inLoop
  | .refused _ => s

def startOneContext (t : Table) (s : State) : State :=
  let id := s.nextContextId + 1
  let c := s.allocated
  let s := { s with
    nextContextId := id
    allocated := c + 1
    heap := Function.update s.heap c (some ⟨id, t.startState⟩) }
  match findContext s id with
  | some _ => { s with stack := .refused c :: s.stack, trace := s.trace ++ [.ended c] }
  | none => gotoState t { s with contexts := (id, c) :: s.contexts } c t.startState

def processEvent (t : Table) (s : State) (contextId : BitVec 32) (type : Int) : State :=
  match findContext s contextId with
  | none => s
  | some c =>
      match s.heap c with
      | none => s.broken
      | some context =>
          match t.transitions context.curState (eventKey type) with
          | none => s
          | some _ =>
              { s with
                stack := .transitionAction c context.curState (eventKey type) :: s.stack
                trace := s.trace ++ [.action c] }

/-- `first` is the context at `contexts_.begin()`; the order of the map is not specified. -/
def deleteAllContext (s : State) (first : Nat) : Option State :=
  if s.contexts = [] then some s
  else if first ∈ s.contexts.map Prod.snd then some (endContext s first true)
  else none

/-- What the running code does: it calls the machine, or it returns. -/
inductive Label where
  | startOneContext
  | processEvent (contextId : BitVec 32) (type : Int)
  | deleteAllContext (first : Nat)
  | ret (result : UInt8)

/-- Nothing is said about what follows undefined behaviour. `DeleteAllContext` is called at the top
level only. -/
def step (t : Table) (s : State) (label : Label) : Option State :=
  if s.undefined then none
  else
    match label with
    | .startOneContext => some (startOneContext t s)
    | .processEvent contextId type => some (processEvent t s contextId type)
    | .deleteAllContext first => if s.stack = [] then deleteAllContext s first else none
    | .ret result =>
        match s.stack with
        | [] => none
        | frame :: rest => some (resume t { s with stack := rest } frame result)

/-! ## What is wanted -/

structure Correct (s : State) : Prop where
  /-- Between top-level calls, the callbacks are those of the removed contexts. -/
  once : s.stack = [] → ∀ c, (.removed c ∈ s.trace → s.trace.count (.ended c) = 1) ∧
    (c ∈ s.contexts.map Prod.snd → .ended c ∉ s.trace)
  /-- Nothing of a context starts after its end callback has started. -/
  quiet : ∀ c before after, s.trace = before ++ .ended c :: after →
    .action c ∉ after ∧ .ended c ∉ after
  /-- Nor does an action still run then. -/
  still : ∀ c, .ended c ∈ s.trace → ∀ frame ∈ s.stack, frame.context = c → frame.isAction = false
  safe : s.undefined = false

/-! ## When it holds -/

/-- `InternalGotoState` ends the context at once in this state. -/
def completes (t : Table) (stateId : UInt8) : Bool :=
  match t.states stateId with
  | none => true
  | some stateDef => stateId = t.endState && !stateDef.hasAction

/-- The context whose end callback starts when a frame returns. -/
def ending (t : Table) (frame : Frame) (result : UInt8) : Option Nat :=
  match frame with
  | .stateAction c state =>
      if state = t.endState then some c
      else
        match t.states state with
        | none => none
        | some stateDef =>
            if stateDef.arcs result ≠ 0 ∧ completes t (stateDef.arcs result) then some c else none
  | .transitionAction c state event =>
      match t.transitions state event with
      | none => none
      | some arcs => if arcs result ≠ 0 ∧ completes t (arcs result) then some c else none
  | _ => none

/-- No context is ended while another frame of it is on the stack, no event finds a transition of a
context whose end callback runs, and `DeleteAllContext` finds nothing to delete. -/
def Allowed (t : Table) (s : State) : Label → Prop
  | .startOneContext => True
  | .processEvent contextId type =>
      ∀ c ∈ findContext s contextId, .ended c ∈ s.trace →
        ∀ context ∈ s.heap c, t.transitions context.curState (eventKey type) = none
  | .deleteAllContext _ => s.contexts = []
  | .ret result =>
      match s.stack with
      | [] => True
      | frame :: rest => ∀ c ∈ ending t frame result, ∀ other ∈ rest, other.context ≠ c

instance decidableAllowed (t : Table) (s : State) : (label : Label) → Decidable (Allowed t s label)
  | .startOneContext => isTrue trivial
  | .processEvent contextId type =>
      inferInstanceAs (Decidable (∀ c ∈ findContext s contextId, .ended c ∈ s.trace →
        ∀ context ∈ s.heap c, t.transitions context.curState (eventKey type) = none))
  | .deleteAllContext _ => inferInstanceAs (Decidable (s.contexts = []))
  | .ret result =>
      match top : s.stack with
      | [] => isTrue (by simp [Allowed, top])
      | frame :: rest =>
          decidable_of_iff (∀ c ∈ ending t frame result, ∀ other ∈ rest, other.context ≠ c)
            (by simp [Allowed, top])

/-! ## The life of a context -/

/-- What a state says about one context. -/
structure View where
  heap : Option InternalContext
  entries : List (BitVec 32 × Nat)
  frames : List Frame
  notes : List Note
  allocated : Bool

def view (s : State) (c : Nat) : View :=
  { heap := s.heap c
    entries := s.contexts.filter fun entry => entry.2 = c
    frames := s.stack.filter fun frame => frame.context = c
    notes := s.trace.filter fun note => note.context = c
    allocated := c < s.allocated }

/-- A context runs actions, then its end callback, and is removed when that returns. -/
inductive Phase (c : Nat) : View → Prop where
  | fresh (heap : Option InternalContext) : Phase c ⟨heap, [], [], [], false⟩
  | running (context : InternalContext) (frames : List Frame) (k : Nat)
      (actions : ∀ frame ∈ frames, frame.isAction) :
      Phase c ⟨some context, [(context.id, c)], frames, List.replicate k (.action c), true⟩
  | ending (context : InternalContext) (k : Nat) :
      Phase c ⟨some context, [(context.id, c)], [.endCallback c false],
        List.replicate k (.action c) ++ [.ended c], true⟩
  | removed (k : Nat) :
      Phase c ⟨none, [], [], List.replicate k (.action c) ++ [.ended c, .removed c], true⟩
  | refused (context : InternalContext) (frames : List Frame)
      (only : ∀ frame ∈ frames, frame = .refused c) :
      Phase c ⟨some context, [], frames, [.ended c], true⟩

structure Inv (s : State) : Prop where
  phases : ∀ c, Phase c (view s c)
  keys : (s.contexts.map Prod.fst).Nodup
  safe : s.undefined = false

theorem inv_initial : Inv .initial :=
  ⟨fun _ => .fresh none, List.nodup_nil, rfl⟩

section Correct

variable {s : State} {c : Nat}

theorem mem_notes {note : Note} (same : note.context = c) :
    note ∈ s.trace ↔ note ∈ (view s c).notes := by
  rw [view, List.mem_filter, decide_eq_true same, and_iff_left rfl]

theorem mem_frames {frame : Frame} (same : frame.context = c) :
    frame ∈ s.stack ↔ frame ∈ (view s c).frames := by
  rw [view, List.mem_filter, decide_eq_true same, and_iff_left rfl]

/-- What follows the first end callback in the notes of a context. -/
theorem after_ended {k : Nat} {rest before after : List Note} (fresh : .ended c ∉ rest)
    (split : List.replicate k (.action c) ++ .ended c :: rest = before ++ .ended c :: after) :
    after = rest := by
  induction before generalizing k with
  | nil =>
      cases k with
      | zero => exact (List.cons.inj split).2.symm
      | succ k => exact Note.noConfusion (List.cons.inj split).1
  | cons note before ih =>
      cases k with
      | zero =>
          have inside : Note.ended c ∈ rest := by
            rw [(List.cons.inj split).2]
            exact List.mem_append_right _ List.mem_cons_self
          exact absurd inside fresh
      | succ k => exact ih (List.cons.inj split).2

/-- The notes of a context whose end callback has started. -/
theorem Phase.ended_notes {v : View} (phase : Phase c v) (ended : .ended c ∈ v.notes) :
    ∃ k rest, v.notes = List.replicate k (.action c) ++ .ended c :: rest ∧
      (rest = [] ∨ rest = [.removed c]) ∧ ∀ frame ∈ v.frames, frame.isAction = false := by
  cases phase with
  | fresh => cases ended
  | running context frames k actions =>
      exact Note.noConfusion (List.eq_of_mem_replicate ended)
  | ending context k =>
      refine ⟨k, [], rfl, Or.inl rfl, fun frame member => ?_⟩
      rw [List.mem_singleton.mp member]
      rfl
  | removed k => exact ⟨k, [.removed c], rfl, Or.inr rfl, fun _ member => nomatch member⟩
  | refused context frames only =>
      refine ⟨0, [], rfl, Or.inl rfl, fun frame member => ?_⟩
      rw [only frame member]
      rfl

/-- A removed context had its end callback before. -/
theorem Phase.removed_notes {v : View} (phase : Phase c v) (removed : .removed c ∈ v.notes) :
    ∃ k, v.notes = List.replicate k (.action c) ++ [.ended c, .removed c] := by
  cases phase with
  | fresh => cases removed
  | running context frames k actions =>
      exact Note.noConfusion (List.eq_of_mem_replicate removed)
  | ending context k =>
      rcases List.mem_append.mp removed with action | ended
      · exact Note.noConfusion (List.eq_of_mem_replicate action)
      · exact Note.noConfusion (List.mem_singleton.mp ended)
  | removed k => exact ⟨k, rfl⟩
  | refused context frames only => exact Note.noConfusion (List.mem_singleton.mp removed)

/-- A context in the map, with nothing running, has not ended. -/
theorem Phase.not_ended {v : View} (phase : Phase c v) (entry : v.entries ≠ [])
    (idle : v.frames = []) : .ended c ∉ v.notes := by
  cases phase with
  | fresh => exact absurd rfl entry
  | running context frames k actions =>
      intro ended
      exact Note.noConfusion (List.eq_of_mem_replicate ended)
  | ending context k => exact absurd idle (List.cons_ne_nil _ _)
  | removed k => exact absurd rfl entry
  | refused context frames only => exact absurd rfl entry

theorem Inv.correct (inv : Inv s) : Correct s where
  once := by
    intro idle c
    constructor
    · intro removed
      obtain ⟨k, notes⟩ := (inv.phases c).removed_notes ((mem_notes rfl).mp removed)
      have count : (view s c).notes.count (.ended c) = s.trace.count (.ended c) :=
        List.count_filter (decide_eq_true rfl)
      rw [← count, notes, List.count_append, List.count_replicate]
      simp
    · intro member ended
      refine (inv.phases c).not_ended ?_ ?_ ((mem_notes rfl).mp ended)
      · obtain ⟨entry, inside, isContext⟩ := List.mem_map.mp member
        exact List.ne_nil_of_mem (List.mem_filter.mpr ⟨inside, decide_eq_true isContext⟩)
      · rw [view, idle]
        rfl
  quiet := by
    intro c before after split
    have ended : .ended c ∈ s.trace := by
      rw [split]
      exact List.mem_append_right _ List.mem_cons_self
    obtain ⟨k, rest, notes, isRest, -⟩ := (inv.phases c).ended_notes ((mem_notes rfl).mp ended)
    have filtered : (view s c).notes = before.filter (fun note => note.context = c) ++
        .ended c :: after.filter (fun note => note.context = c) := by
      have kept : (Note.ended c :: after).filter (fun note => note.context = c) =
          .ended c :: after.filter (fun note => note.context = c) :=
        List.filter_cons_of_pos (decide_eq_true rfl)
      rw [← kept, ← List.filter_append, ← split]
      rfl
    rw [notes] at filtered
    have isAfter : after.filter (fun note => note.context = c) = rest := by
      refine after_ended ?_ filtered
      rcases isRest with rfl | rfl <;> simp
    have notIn : ∀ note : Note, note.context = c → note ∉ rest → note ∉ after := by
      intro note same other inside
      refine other ?_
      rw [← isAfter]
      exact List.mem_filter.mpr ⟨inside, decide_eq_true same⟩
    refine ⟨notIn (.action c) rfl ?_, notIn (.ended c) rfl ?_⟩ <;>
    · rcases isRest with rfl | rfl <;> simp
  still := by
    intro c ended frame member same
    obtain ⟨-, -, -, -, frames⟩ := (inv.phases c).ended_notes ((mem_notes rfl).mp ended)
    exact frames frame ((mem_frames same).mp member)
  safe := inv.safe

end Correct

/-! ## Steps -/

section Steps

variable {t : Table} {s : State} {c : Nat} {context : InternalContext} {frames : List Frame} {k : Nat}

/-- All other contexts are where they were. -/
def Others (s s' : State) (c : Nat) : Prop := ∀ c', c' ≠ c → view s' c' = view s c'

theorem Inv.of_others {s' : State} (inv : ∀ c', c' ≠ c → Phase c' (view s c')) (others : Others s s' c)
    (phase : Phase c (view s' c)) (keys : (s'.contexts.map Prod.fst).Nodup)
    (safe : s'.undefined = false) : Inv s' := by
  refine ⟨fun c' => ?_, keys, safe⟩
  by_cases same : c' = c
  · rw [same]
    exact phase
  · rw [others c' same]
    exact inv c' same

theorem notes_append_ne {note : Note} (other : note.context ≠ c) (trace : List Note) :
    (trace ++ [note]).filter (fun note => note.context = c) =
      trace.filter (fun note => note.context = c) := by
  simp [List.filter_append, other]

theorem notes_append_eq {note : Note} (same : note.context = c) (trace : List Note) :
    (trace ++ [note]).filter (fun note => note.context = c) =
      trace.filter (fun note => note.context = c) ++ [note] := by
  simp [List.filter_append, same]

/-- A frame and a note of a context. -/
theorem others_push {frame : Frame} {note : Note} (isFrame : frame.context = c)
    (isNote : note.context = c) :
    Others s { s with stack := frame :: s.stack, trace := s.trace ++ [note] } c := by
  intro c' other
  have notFrame : frame.context ≠ c' := isFrame.trans_ne other.symm
  have notNote : note.context ≠ c' := isNote.trans_ne other.symm
  have frames' : (frame :: s.stack).filter (fun frame => frame.context = c') =
      s.stack.filter (fun frame => frame.context = c') := by
    simp [notFrame]
  unfold view
  dsimp only
  rw [frames', notes_append_ne notNote]

theorem view_push {frame : Frame} {note : Note} (isFrame : frame.context = c)
    (isNote : note.context = c) :
    view { s with stack := frame :: s.stack, trace := s.trace ++ [note] } c =
      ⟨(view s c).heap, (view s c).entries, frame :: (view s c).frames, (view s c).notes ++ [note],
        (view s c).allocated⟩ := by
  have frames' : (frame :: s.stack).filter (fun frame => frame.context = c) =
      frame :: s.stack.filter (fun frame => frame.context = c) :=
    List.filter_cons_of_pos (decide_eq_true isFrame)
  unfold view
  dsimp only
  rw [frames', notes_append_eq isNote]

/-- The end callback of a context starts while nothing else of it runs. -/
theorem endContext_inv (inv : Inv s)
    (running : view s c = ⟨some context, [(context.id, c)], [], List.replicate k (.action c), true⟩) :
    Inv (endContext s c false) := by
  have heap : s.heap c = some context := congrArg View.heap running
  rw [endContext, heap]
  refine Inv.of_others (c := c) (fun c' _ => inv.phases c') (others_push rfl rfl) ?_ inv.keys inv.safe
  rw [view_push (c := c) rfl rfl, running]
  exact .ending context k

/-- A context changes its state. -/
theorem others_update (value : Option InternalContext) :
    Others s { s with heap := Function.update s.heap c value } c := by
  intro c' other
  unfold view
  dsimp only
  rw [Function.update_of_ne other]

theorem view_update (value : Option InternalContext) :
    view { s with heap := Function.update s.heap c value } c =
      ⟨value, (view s c).entries, (view s c).frames, (view s c).notes, (view s c).allocated⟩ := by
  unfold view
  dsimp only
  rw [Function.update_self]

theorem update_inv (inv : Inv s)
    (running : view s c = ⟨some context, [(context.id, c)], frames, List.replicate k (.action c), true⟩)
    (actions : ∀ frame ∈ frames, frame.isAction) (state : UInt8) :
    Inv { s with heap := Function.update s.heap c (some { context with curState := state }) } := by
  refine Inv.of_others (fun c' _ => inv.phases c') (others_update _) ?_ inv.keys inv.safe
  rw [view_update, running]
  exact .running { context with curState := state } frames k actions

/-- An action of a running context starts. -/
theorem action_inv {frame : Frame} (inv : Inv s)
    (running : view s c = ⟨some context, [(context.id, c)], frames, List.replicate k (.action c), true⟩)
    (actions : ∀ frame ∈ frames, frame.isAction) (isFrame : frame.context = c)
    (isAction : frame.isAction) :
    Inv { s with stack := frame :: s.stack, trace := s.trace ++ [.action c] } := by
  refine Inv.of_others (fun c' _ => inv.phases c') (others_push isFrame rfl) ?_ inv.keys inv.safe
  rw [view_push isFrame rfl, running]
  dsimp only
  rw [← List.replicate_succ']
  exact .running context (frame :: frames) (k + 1)
    (List.forall_mem_cons.mpr ⟨isAction, actions⟩)

/-- A running context enters a state. -/
theorem gotoState_inv {stateId : UInt8} (inv : Inv s)
    (running : view s c = ⟨some context, [(context.id, c)], frames, List.replicate k (.action c), true⟩)
    (actions : ∀ frame ∈ frames, frame.isAction) (alone : completes t stateId → frames = []) :
    Inv (gotoState t s c stateId) := by
  have heap : s.heap c = some context := congrArg View.heap running
  unfold gotoState
  unfold completes at alone
  cases found : t.states stateId with
  | none =>
      rw [found] at alone
      obtain rfl := alone rfl
      exact endContext_inv inv running
  | some stateDef =>
      rw [found] at alone
      rw [heap]
      dsimp only
      have entered := update_inv inv running actions stateId
      have running' : view { s with
          heap := Function.update s.heap c (some { context with curState := stateId }) } c =
          ⟨some { context with curState := stateId }, [(context.id, c)], frames,
            List.replicate k (.action c), true⟩ := by
        rw [view_update, running]
      by_cases hasAction : stateDef.hasAction
      · rw [if_pos hasAction]
        exact action_inv entered running' actions rfl rfl
      · rw [if_neg hasAction]
        by_cases isEnd : stateId = t.endState
        · rw [if_pos isEnd]
          have idle : frames = [] := alone (by simp [isEnd, hasAction])
          rw [idle] at running'
          exact endContext_inv entered running'
        · rw [if_neg isEnd]
          exact entered

theorem follow_inv {nextState : UInt8} (inv : Inv s)
    (running : view s c = ⟨some context, [(context.id, c)], frames, List.replicate k (.action c), true⟩)
    (actions : ∀ frame ∈ frames, frame.isAction)
    (alone : nextState ≠ 0 ∧ completes t nextState → frames = []) :
    Inv (follow t s c nextState) := by
  unfold follow
  split
  · exact inv
  · next other => exact gotoState_inv inv running actions fun ends => alone ⟨other, ends⟩

/-- The end callback of a context has returned. -/
theorem onContextEnd_inv (inv : ∀ c', c' ≠ c → Phase c' (view s c'))
    (keys : (s.contexts.map Prod.fst).Nodup)
    (ending : view s c = ⟨some context, [(context.id, c)], [],
      List.replicate k (.action c) ++ [.ended c], true⟩) : Inv (onContextEnd s c false) := by
  have heap : s.heap c = some context := congrArg View.heap ending
  have entries : s.contexts.filter (fun entry => entry.2 = c) = [(context.id, c)] :=
    congrArg View.entries ending
  have entry : (context.id, c) ∈ s.contexts := by
    have member : (context.id, c) ∈ s.contexts.filter (fun entry => entry.2 = c) := by
      rw [entries]
      exact List.mem_singleton_self _
    exact (List.mem_filter.mp member).1
  -- an id belongs to one context
  have sameId : ∀ other ∈ s.contexts, other.1 = context.id → other.2 = c := by
    intro other member isId
    have pair : other = (context.id, c) :=
      List.inj_on_of_nodup_map keys member entry isId
    rw [pair]
  rw [onContextEnd, heap]
  refine Inv.of_others (c := c) inv ?_ ?_ ?_ rfl
  · intro c' other
    have kept : (s.contexts.filter fun entry => entry.1 ≠ context.id).filter
        (fun entry => entry.2 = c') = s.contexts.filter (fun entry => entry.2 = c') := by
      rw [List.filter_filter]
      refine List.filter_congr fun entry member => ?_
      by_cases isOther : entry.2 = c'
      · have notId : entry.1 ≠ context.id := fun isId =>
          other (isOther.symm.trans (sameId entry member isId))
        simp [isOther, notId]
      · simp [isOther]
    have notNote : (Note.removed c).context ≠ c' := other.symm
    unfold view
    dsimp only
    rw [kept, notes_append_ne notNote, Function.update_of_ne other]
  · have gone : (s.contexts.filter fun entry => entry.1 ≠ context.id).filter
        (fun entry => entry.2 = c) = [] := by
      rw [List.filter_comm, entries]
      simp
    have notes' : (s.trace ++ [Note.removed c]).filter (fun note => note.context = c) =
        List.replicate k (.action c) ++ [.ended c, .removed c] := by
      have before : s.trace.filter (fun note => note.context = c) = _ := congrArg View.notes ending
      have isNote : (Note.removed c).context = c := rfl
      rw [notes_append_eq isNote, before, List.append_assoc]
      rfl
    have frames' : s.stack.filter (fun frame => frame.context = c) = [] :=
      congrArg View.frames ending
    have allocated : decide (c < s.allocated) = true := congrArg View.allocated ending
    unfold view
    dsimp only
    rw [gone, notes', frames', allocated, Function.update_self]
    exact .removed k
  · exact keys.sublist (List.filter_sublist.map _)

/-- A context that was not allocated before. -/
theorem Inv.fresh_view (inv : Inv s) :
    ∃ heap, view s s.allocated = ⟨heap, [], [], [], false⟩ := by
  have phase := inv.phases s.allocated
  have allocated : (view s s.allocated).allocated = false := decide_eq_false (Nat.lt_irrefl _)
  generalize view s s.allocated = v at phase allocated
  cases phase with
  | fresh heap => exact ⟨heap, rfl⟩
  | running => cases allocated
  | ending => cases allocated
  | removed => cases allocated
  | refused => cases allocated

theorem startOneContext_inv (inv : Inv s) : Inv (startOneContext t s) := by
  obtain ⟨heap, fresh⟩ := inv.fresh_view
  obtain ⟨s₁, isNext⟩ : ∃ s₁ : State, s₁ = { s with
    nextContextId := s.nextContextId + 1
    allocated := s.allocated + 1
    heap := Function.update s.heap s.allocated (some ⟨s.nextContextId + 1, t.startState⟩) } :=
    ⟨_, rfl⟩
  have others : Others s s₁ s.allocated := by
    intro c' other
    have same : decide (c' < s.allocated + 1) = decide (c' < s.allocated) := by
      refine decide_eq_decide.mpr ⟨fun less => ?_, fun less => Nat.lt_succ_of_lt less⟩
      exact Nat.lt_of_le_of_ne (Nat.le_of_lt_succ less) other
    rw [isNext]
    unfold view
    dsimp only
    rw [same, Function.update_of_ne other]
  have born : view s₁ s.allocated =
      ⟨some ⟨s.nextContextId + 1, t.startState⟩, [], [], [], true⟩ := by
    have entries : s.contexts.filter (fun entry => entry.2 = s.allocated) = [] :=
      congrArg View.entries fresh
    have frames' : s.stack.filter (fun frame => frame.context = s.allocated) = [] :=
      congrArg View.frames fresh
    have notes' : s.trace.filter (fun note => note.context = s.allocated) = [] :=
      congrArg View.notes fresh
    have less : decide (s.allocated < s.allocated + 1) = true := decide_eq_true (Nat.lt_succ_self _)
    rw [isNext]
    unfold view
    dsimp only
    rw [entries, frames', notes', less, Function.update_self]
  have phases : ∀ c', c' ≠ s.allocated → Phase c' (view s₁ c') := by
    intro c' other
    rw [others c' other]
    exact inv.phases c'
  have keys : (s₁.contexts.map Prod.fst).Nodup := by
    rw [isNext]
    exact inv.keys
  have safe : s₁.undefined = false := by
    rw [isNext]
    exact inv.safe
  have started : startOneContext t s =
      match findContext s₁ (s.nextContextId + 1) with
      | some _ => { s₁ with
          stack := .refused s.allocated :: s₁.stack, trace := s₁.trace ++ [.ended s.allocated] }
      | none => gotoState t { s₁ with
          contexts := (s.nextContextId + 1, s.allocated) :: s₁.contexts } s.allocated t.startState := by
    rw [isNext]
    rfl
  rw [started]
  cases found : findContext s₁ (s.nextContextId + 1) with
  | some taken =>
      dsimp only
      refine Inv.of_others (c := s.allocated) phases (others_push rfl rfl) ?_ keys safe
      rw [view_push (c := s.allocated) rfl rfl, born]
      refine .refused _ _ fun frame member => ?_
      rw [List.mem_singleton.mp member]
  | none =>
      dsimp only
      have unused : s.nextContextId + 1 ∉ s₁.contexts.map Prod.fst := by
        intro member
        obtain ⟨entry, inside, isId⟩ := List.mem_map.mp member
        have none' := List.find?_eq_none.mp (Option.map_eq_none_iff.mp found) entry inside
        exact none' (decide_eq_true isId)
      have inserted : Inv { s₁ with
          contexts := (s.nextContextId + 1, s.allocated) :: s₁.contexts } ∧
          view { s₁ with contexts := (s.nextContextId + 1, s.allocated) :: s₁.contexts } s.allocated =
            ⟨some ⟨s.nextContextId + 1, t.startState⟩, [(s.nextContextId + 1, s.allocated)], [],
              List.replicate 0 (.action s.allocated), true⟩ := by
        have viewed : view { s₁ with
            contexts := (s.nextContextId + 1, s.allocated) :: s₁.contexts } s.allocated =
            ⟨(view s₁ s.allocated).heap, (s.nextContextId + 1, s.allocated) ::
              (view s₁ s.allocated).entries, (view s₁ s.allocated).frames,
              (view s₁ s.allocated).notes, (view s₁ s.allocated).allocated⟩ := by
          unfold view
          dsimp only
          rw [List.filter_cons_of_pos (by simp)]
        rw [born] at viewed
        refine ⟨Inv.of_others (c := s.allocated) phases ?_ ?_ ?_ safe, viewed⟩
        · intro c' other
          unfold view
          dsimp only
          rw [List.filter_cons_of_neg (by simpa using other.symm)]
        · rw [viewed]
          exact .running _ [] 0 fun _ member => nomatch member
        · exact List.nodup_cons.mpr ⟨unused, keys⟩
      exact gotoState_inv inserted.1 inserted.2 (fun _ member => nomatch member) fun _ => rfl

/-- A context that is found is running or ending. -/
theorem Inv.found (inv : Inv s) {id : BitVec 32} (found : findContext s id = some c) :
    (∃ context frames k, view s c = ⟨some context, [(context.id, c)], frames,
        List.replicate k (.action c), true⟩ ∧ ∀ frame ∈ frames, frame.isAction) ∨
      .ended c ∈ s.trace ∧ ∃ context, s.heap c = some context := by
  obtain ⟨entry, first, isContext⟩ := Option.map_eq_some_iff.mp found
  have member : entry ∈ (view s c).entries :=
    List.mem_filter.mpr ⟨List.mem_of_find?_eq_some first, decide_eq_true isContext⟩
  have phase := inv.phases c
  have heap : (view s c).heap = s.heap c := rfl
  have ended : .ended c ∈ s.trace ↔ .ended c ∈ (view s c).notes := mem_notes rfl
  rw [ended, ← heap]
  generalize view s c = v at phase member
  cases phase with
  | fresh => cases member
  | running context frames k actions => exact Or.inl ⟨context, frames, k, rfl, actions⟩
  | ending context k =>
      exact Or.inr ⟨List.mem_append_right _ (List.mem_singleton_self _), context, rfl⟩
  | removed => cases member
  | refused => cases member

theorem processEvent_inv {contextId : BitVec 32} {type : Int} (inv : Inv s)
    (allowed : Allowed t s (.processEvent contextId type)) :
    Inv (processEvent t s contextId type) := by
  unfold processEvent
  cases found : findContext s contextId with
  | none => exact inv
  | some c =>
      dsimp only
      rcases inv.found found with ⟨context, frames, k, running, actions⟩ | ⟨ended, context, heap⟩
      · have heap : s.heap c = some context := congrArg View.heap running
        rw [heap]
        dsimp only
        split
        · exact inv
        · exact action_inv inv running actions rfl rfl
      · rw [heap]
        dsimp only
        rw [allowed c found ended context heap]
        exact inv

/-- The frame on top of the stack leaves it. -/
theorem pop_view {frame : Frame} {rest : List Frame} (stack : s.stack = frame :: rest)
    (isFrame : frame.context = c) :
    Others s { s with stack := rest } c ∧
      view s c =
        ⟨(view { s with stack := rest } c).heap, (view { s with stack := rest } c).entries,
          frame :: (view { s with stack := rest } c).frames,
          (view { s with stack := rest } c).notes,
          (view { s with stack := rest } c).allocated⟩ := by
  constructor
  · intro c' other
    have notFrame : frame.context ≠ c' := isFrame.trans_ne other.symm
    have same : s.stack.filter (fun frame => frame.context = c') =
        rest.filter (fun frame => frame.context = c') := by
      rw [stack, List.filter_cons_of_neg (by simpa using notFrame)]
    unfold view
    dsimp only
    rw [same]
  · have same : s.stack.filter (fun other => other.context = c) =
        frame :: rest.filter (fun other => other.context = c) := by
      rw [stack, List.filter_cons_of_pos (by simpa using isFrame)]
    unfold view
    dsimp only
    rw [same]

/-- Below an action of a context its other actions wait. -/
theorem pop_action {frame : Frame} {rest : List Frame} (inv : Inv s) (stack : s.stack = frame :: rest)
    (isFrame : frame.context = c) (isAction : frame.isAction) :
    Inv { s with stack := rest } ∧ ∃ context frames k,
      view { s with stack := rest } c = ⟨some context, [(context.id, c)], frames,
        List.replicate k (.action c), true⟩ ∧ (∀ frame ∈ frames, frame.isAction) ∧
      ((∀ other ∈ rest, other.context ≠ c) → frames = []) := by
  obtain ⟨others, top⟩ := pop_view stack isFrame
  obtain ⟨context, frames, k, below, actions⟩ : ∃ context frames k,
      view { s with stack := rest } c = ⟨some context, [(context.id, c)], frames,
        List.replicate k (.action c), true⟩ ∧ ∀ frame ∈ frames, frame.isAction := by
    have phase := inv.phases c
    rw [top] at phase
    generalize view { s with stack := rest } c = v at phase
    obtain ⟨heap, entries, frames, notes, allocated⟩ := v
    cases phase with
    | running context frames' k actions =>
        exact ⟨context, frames, k, rfl, fun f member => actions f (List.mem_cons_of_mem _ member)⟩
    | ending => cases isAction
    | refused context frames' only =>
        rw [only frame List.mem_cons_self] at isAction
        cases isAction
  refine ⟨Inv.of_others (c := c) (fun c' _ => inv.phases c') others ?_ inv.keys inv.safe,
    context, frames, k, below, actions, fun alone => ?_⟩
  · rw [below]
    exact .running context frames k actions
  · have isFrames : rest.filter (fun other => other.context = c) = frames :=
      congrArg View.frames below
    rw [← isFrames]
    exact List.filter_eq_nil_iff.mpr fun other member => by simpa using alone other member

theorem resume_inv {frame : Frame} {rest : List Frame} {result : UInt8} (inv : Inv s)
    (stack : s.stack = frame :: rest)
    (alone : ∀ c ∈ ending t frame result, ∀ other ∈ rest, other.context ≠ c) :
    Inv (resume t { s with stack := rest } frame result) := by
  cases frame with
  | stateAction c state =>
      obtain ⟨inv', context, frames, k, running, actions, idle⟩ := pop_action inv stack rfl rfl
      unfold resume
      unfold ending at alone
      dsimp only at alone ⊢
      by_cases isEnd : state = t.endState
      · rw [if_pos isEnd] at alone ⊢
        obtain rfl := idle (alone c rfl)
        exact endContext_inv inv' running
      · rw [if_neg isEnd] at alone ⊢
        cases found : t.states state with
        | none => exact inv'
        | some stateDef =>
            rw [found] at alone
            dsimp only at alone ⊢
            refine follow_inv inv' running actions fun ends => idle ?_
            rw [if_pos ends] at alone
            exact alone c rfl
  | transitionAction c state event =>
      obtain ⟨inv', context, frames, k, running, actions, idle⟩ := pop_action inv stack rfl rfl
      unfold resume
      unfold ending at alone
      dsimp only at alone ⊢
      cases found : t.transitions state event with
      | none => exact inv'
      | some arcs =>
          rw [found] at alone
          dsimp only at alone ⊢
          refine follow_inv inv' running actions fun ends => idle ?_
          rw [if_pos ends] at alone
          exact alone c rfl
  | endCallback c inLoop =>
      have isFrame : (Frame.endCallback c inLoop).context = c := rfl
      obtain ⟨others, top⟩ := pop_view stack isFrame
      have phase := inv.phases c
      rw [top] at phase
      have phases : ∀ c', c' ≠ c → Phase c' (view { s with stack := rest } c') := by
        intro c' other
        rw [others c' other]
        exact inv.phases c'
      obtain ⟨context, k, ended, rfl⟩ : ∃ context k, view { s with stack := rest } c =
          ⟨some context, [(context.id, c)], [], List.replicate k (.action c) ++ [.ended c], true⟩ ∧
          inLoop = false := by
        generalize view { s with stack := rest } c = v at phase
        obtain ⟨heap, entries, frames, notes, allocated⟩ := v
        cases phase with
        | running context frames' k actions =>
            exact absurd (actions _ List.mem_cons_self) Bool.false_ne_true
        | ending context k => exact ⟨context, k, rfl, rfl⟩
        | refused context frames' only => cases only _ List.mem_cons_self
      exact onContextEnd_inv phases inv.keys ended
  | refused c =>
      have isFrame : (Frame.refused c).context = c := rfl
      obtain ⟨others, top⟩ := pop_view stack isFrame
      refine Inv.of_others (c := c) (fun c' _ => inv.phases c') others ?_ inv.keys inv.safe
      have phase := inv.phases c
      rw [top] at phase
      show Phase c (view { s with stack := rest } c)
      generalize view { s with stack := rest } c = v at phase
      obtain ⟨heap, entries, frames, notes, allocated⟩ := v
      cases phase with
      | running context frames' k actions =>
          exact absurd (actions _ List.mem_cons_self) Bool.false_ne_true
      | refused context frames' only =>
          exact .refused context frames fun f member => only f (List.mem_cons_of_mem _ member)

theorem step_inv {label : Label} {s' : State} (inv : Inv s) (allowed : Allowed t s label)
    (taken : step t s label = some s') : Inv s' := by
  unfold step at taken
  rw [if_neg (Bool.eq_false_iff.mp inv.safe)] at taken
  cases label with
  | startOneContext =>
      obtain rfl := Option.some.inj taken
      exact startOneContext_inv inv
  | processEvent contextId type =>
      obtain rfl := Option.some.inj taken
      exact processEvent_inv inv allowed
  | deleteAllContext first =>
      dsimp only at taken
      split at taken
      · have empty : s.contexts = [] := allowed
        rw [deleteAllContext, if_pos empty] at taken
        obtain rfl := Option.some.inj taken
        exact inv
      · cases taken
  | ret result =>
      dsimp only at taken
      unfold Allowed at allowed
      dsimp only at allowed
      split at taken
      · cases taken
      · next frame rest stack =>
          rw [stack] at allowed
          obtain rfl := Option.some.inj taken
          exact resume_inv inv stack allowed

end Steps

/-- In every run whose steps are allowed, each removed context has had its end callback once, nothing
of a context runs after its end callback has started, and nothing deleted is used. -/
theorem correct_of_allowed {t : Table} {labels : List Label} {s : State}
    (allowed : Meets (step t) (Allowed t) .initial labels)
    (ran : exec (step t) .initial labels = some s) : Correct s :=
  (exec_invariant (fun _ _ _ inv allowed taken => step_inv inv allowed taken) inv_initial allowed
    ran).correct

/-- Event 1 leads from state 1 to the end state 2 when its action returns 0. -/
def smallTable : Table where
  states := fun state => if state = 1 ∨ state = 2 then some ⟨false, fun _ => 0⟩ else none
  transitions := fun state event =>
    if state = 1 ∧ event = 1 then some fun result => if result = 0 then 2 else 0 else none
  startState := 1
  endState := 2
  start := by decide
  endKnown := ⟨by decide, rfl⟩
  known := by
    intro state event some'
    by_cases both : state = 1 ∧ event = 1
    · rw [if_pos (Or.inl both.1)]
      rfl
    · rw [if_neg both] at some'
      cases some'

/-- An action starts another context before its own one ends. -/
theorem correct_of_allowed_nested :
    ∃ s, exec (step smallTable) .initial
        [.startOneContext, .processEvent 1 1, .startOneContext, .ret 0, .ret 0] = some s ∧
      s.trace = [.action 0, .ended 0, .removed 0] ∧ Correct s := by
  have allowed : Meets (step smallTable) (Allowed smallTable) .initial
      [.startOneContext, .processEvent 1 1, .startOneContext, .ret 0, .ret 0] := by
    decide
  exact ⟨_, rfl, rfl, correct_of_allowed allowed rfl⟩

/-- An action ends its own context by a nested event, and `DeleteAllContext` finds a context. -/
theorem runs_not_correct :
    (∃ s, exec (step smallTable) .initial
        [.startOneContext, .processEvent 1 1, .processEvent 1 1, .ret 0, .ret 0, .ret 0] = some s ∧
      ¬ Correct s) ∧
    ∃ s, exec (step smallTable) .initial [.startOneContext, .deleteAllContext 0, .ret 0] = some s ∧
      ¬ Correct s :=
  ⟨⟨_, rfl, fun correct => absurd correct.safe (by decide)⟩,
    ⟨_, rfl, fun correct => absurd correct.safe (by decide)⟩⟩

end MlsImgSearch.Blitz2.StateMachine
