import MlsImgSearch.Blitz.StateMachine

/-!
# Completion of state machine contexts

A context passes through phases. The call that decides its completion owns the
context from then on: it alone reports the end and erases the context. This
needs that no other call enters the mutex for an action meanwhile, which the
code does not prevent.
-/

namespace MlsImgSearch.Blitz.ContextCompletion

open MlsImgSearch.Lib.Run
open MlsImgSearch.Blitz.StateMachine

/-! ## Phases -/

inductive Phase where
  | unborn
  | fresh (call : Nat)
  | refused (call : Nat)
  | live
  | completing (call : Nat)
  | erasing (call : Nat)
  | gone
  deriving DecidableEq

namespace Phase

def decided : Phase → Bool
  | .unborn | .fresh _ | .live => false
  | .refused _ | .completing _ | .erasing _ | .gone => true

def ends : Phase → Nat
  | .unborn | .fresh _ | .refused _ | .live | .completing _ => 0
  | .erasing _ | .gone => 1

def present : Phase → Bool
  | .unborn | .fresh _ | .refused _ | .gone => false
  | .live | .completing _ | .erasing _ => true

/-- Whether other calls can hold a pointer to the context. -/
def shared : Phase → Bool
  | .unborn | .fresh _ | .refused _ => false
  | .live | .completing _ | .erasing _ | .gone => true

def owner : Phase → Option Nat
  | .unborn | .live | .gone => none
  | .fresh call | .refused call | .completing call | .erasing call => some call

end Phase

/-- What trace and map say about a context in each phase. -/
structure Fits (s : State) (c : Nat) (p : Phase) : Prop where
  decided : .decided c ∈ s.trace ↔ p.decided = true
  ends : s.trace.countP (isEndOf c) = p.ends
  present : p.present = true → s.contexts (s.heap c).id = some c
  absent : p.present = false → ∀ id, s.contexts id ≠ some c

/-- A call stands where the phase of its context says. -/
def Agrees (phase : Nat → Phase) (call : Nat) : Call → Prop
  | .idle | .returned _ => True
  | .inserting c => phase c = .fresh call
  | .refused c => phase c = .refused call
  | .starting c | .delivering c _ => (phase c).shared = true
  | .completing c _ => phase c = .completing call
  | .erasing c => phase c = .erasing call

structure Inv (s : State) (phase : Nat → Phase) : Prop where
  fits : ∀ c, Fits s c (phase c)
  agrees : ∀ call, Agrees phase call (s.calls call)
  unborn : ∀ c, s.allocated ≤ c → phase c = .unborn
  ids : ∀ id c, s.contexts id = some c → (s.heap c).id = id
  returned : ∀ c, .returned c ∈ s.trace → phase c = .gone
  order : NoLateAction s.trace

theorem Inv.initial : Inv State.initial fun _ => .unborn where
  fits c := ⟨⟨fun member => (by cases member), fun bad => Bool.noConfusion bad⟩, rfl,
    fun bad => Bool.noConfusion bad, fun _ _ eq => nomatch eq⟩
  agrees _ := trivial
  unborn _ _ := rfl
  ids _ _ eq := by cases eq
  returned _ member := by cases member
  order _ before _ eq := by
    cases before with
    | nil => cases eq
    | cons _ _ => cases eq

variable {s : State} {phase : Nat → Phase}

/-- Changing the phase of one context leaves alone the calls that do not own it. -/
theorem Agrees.update {c k : Nat} {p : Phase} {position : Call} (agrees : Agrees phase k position)
    (notOwner : (phase c).owner ≠ some k) (stays : (phase c).shared = true → p.shared = true) :
    Agrees (Function.update phase c p) k position := by
  have other : ∀ c' q, phase c' = q → q.owner = some k → Function.update phase c p c' = q := by
    intro c' q isPhase owned
    rw [Function.update_of_ne]
    · exact isPhase
    · rintro rfl
      exact notOwner (isPhase ▸ owned)
  have shared : ∀ c', (phase c').shared = true → (Function.update phase c p c').shared = true := by
    intro c' isShared
    by_cases same : c' = c
    · subst same
      rw [Function.update_self]
      exact stays isShared
    · rw [Function.update_of_ne same]
      exact isShared
  cases position with
  | idle => trivial
  | returned _ => trivial
  | inserting c' => exact other c' _ agrees rfl
  | refused c' => exact other c' _ agrees rfl
  | starting c' => exact shared c' agrees
  | delivering c' _ => exact shared c' agrees
  | completing c' _ => exact other c' _ agrees rfl
  | erasing c' => exact other c' _ agrees rfl

/-- The calls after one of them moved on and the phase of a context changed with it. -/
theorem agrees_update {call c : Nat} {p : Phase} {position : Call}
    (agrees : ∀ k, Agrees phase k (s.calls k))
    (own : Agrees (Function.update phase c p) call position)
    (notOwner : ∀ k, k ≠ call → (phase c).owner ≠ some k)
    (stays : (phase c).shared = true → p.shared = true) (k : Nat) :
    Agrees (Function.update phase c p) k (Function.update s.calls call position k) := by
  by_cases here : k = call
  · subst here
    rw [Function.update_self]
    exact own
  · rw [Function.update_of_ne here]
    exact (agrees k).update (notOwner k here) stays

/-! ## Traces -/

/-- What one step adds to the trace concerns the context `c` alone. -/
def Concerns (c : Nat) : Event → Prop
  | .action c' | .decided c' | .contextEnd c' _ | .returned c' => c' = c

theorem decided_append_other {c other : Nat} {trace new : List Event}
    (concerns : ∀ e ∈ new, Concerns c e) (differs : other ≠ c) :
    .decided other ∈ trace ++ new ↔ .decided other ∈ trace := by
  rw [List.mem_append]
  exact or_iff_left fun member => differs (concerns _ member)

theorem countP_append_other {c other : Nat} {trace new : List Event}
    (concerns : ∀ e ∈ new, Concerns c e) (differs : other ≠ c) :
    (trace ++ new).countP (isEndOf other) = trace.countP (isEndOf other) := by
  have none' : new.countP (isEndOf other) = 0 := by
    rw [List.countP_eq_zero]
    intro e member isEnd
    cases e with
    | contextEnd c' _ => exact differs ((of_decide_eq_true isEnd).symm.trans (concerns _ member))
    | action _ => cases isEnd
    | decided _ => cases isEnd
    | returned _ => cases isEnd
  rw [List.countP_append, none', Nat.add_zero]

/-- New actions of a context keep the order if its completion is not decided yet. -/
theorem noLateAction_append {c : Nat} {trace actions rest : List Event}
    (order : NoLateAction trace) (undecided : actions ≠ [] → .decided c ∉ trace)
    (isAction : ∀ e ∈ actions, e = .action c) (noAction : ∀ e ∈ rest, ∀ c', e ≠ .action c') :
    NoLateAction (trace ++ actions ++ rest) := by
  intro c' before after split late
  have mem_rest : ∀ l, Event.action c' ∈ l → l <:+ rest → False := fun l member suffix =>
    noAction _ (suffix.subset member) c' rfl
  rcases List.append_eq_append_iff.mp split with ⟨mid, isBefore, isRest⟩ | ⟨mid, isFront, isAfter⟩
  · -- the decision lies in the part without actions
    exact mem_rest after late ⟨mid ++ [.decided c'], by simp [isRest]⟩
  · cases mid with
    | nil =>
        simp only [List.nil_append] at isAfter
        exact mem_rest after late ⟨[.decided c'], by simp [← isAfter]⟩
    | cons first mid =>
        simp only [List.cons_append, List.cons.injEq] at isAfter
        obtain ⟨rfl, rfl⟩ := isAfter
        rcases List.append_eq_append_iff.mp isFront with ⟨gap, isBefore, isActions⟩ | ⟨gap, isTrace, isMid⟩
        · have inActions : Event.decided c' ∈ actions := by rw [isActions]; simp
          exact Event.noConfusion (isAction _ inActions)
        · cases gap with
          | nil =>
              simp only [List.nil_append] at isMid
              have inActions : Event.decided c' ∈ actions := by rw [← isMid]; simp
              exact Event.noConfusion (isAction _ inActions)
          | cons g gap =>
              simp only [List.cons_append, List.cons.injEq] at isMid
              obtain ⟨rfl, rfl⟩ := isMid
              rcases List.mem_append.mp late with inMid | inRest
              · rcases List.mem_append.mp inMid with inGap | inActions
                · exact order c' before gap isTrace inGap
                · have same : c' = c := Event.action.inj (isAction _ inActions)
                  subst same
                  refine undecided (List.ne_nil_of_mem inActions) ?_
                  rw [isTrace]
                  simp
              · exact noAction _ inRest c' rfl

theorem noLateAction_append_quiet {trace new : List Event} (order : NoLateAction trace)
    (noAction : ∀ e ∈ new, ∀ c', e ≠ .action c') : NoLateAction (trace ++ new) := by
  have longer : NoLateAction (trace ++ [] ++ new) :=
    noLateAction_append order (fun some' => absurd rfl some')
      (fun e member => (nomatch member : e = .action 0)) noAction
  rwa [List.append_nil] at longer

/-! ## One step -/

/-- The part of a step that is the same for all labels that concern an existing context. -/
theorem Inv.advance {s' : State} {c call : Nat} {p : Phase} {position : Call} {new : List Event}
    (inv : Inv s phase)
    (calls : s'.calls = Function.update s.calls call position)
    (trace : s'.trace = s.trace ++ new)
    (heapIds : ∀ c', (s'.heap c').id = (s.heap c').id)
    (allocated : s'.allocated = s.allocated)
    (others : ∀ id c', c' ≠ c → (s'.contexts id = some c' ↔ s.contexts id = some c'))
    (ownId : ∀ id, s'.contexts id = some c → (s.heap c).id = id)
    (concerns : ∀ e ∈ new, Concerns c e)
    (fits : Fits s' c p)
    (order : NoLateAction s'.trace)
    (ends : .returned c ∈ s'.trace → p = .gone)
    (born : phase c ≠ .unborn)
    (own : Agrees (Function.update phase c p) call position)
    (notOwner : ∀ k, k ≠ call → (phase c).owner ≠ some k)
    (stays : (phase c).shared = true → p.shared = true) :
    Inv s' (Function.update phase c p) where
  fits c' := by
    by_cases same : c' = c
    · subst same
      rw [Function.update_self]
      exact fits
    · have old := inv.fits c'
      rw [Function.update_of_ne same]
      refine ⟨?_, ?_, fun isPresent => ?_, fun isAbsent id => ?_⟩
      · rw [trace, decided_append_other concerns same]
        exact old.decided
      · rw [trace, countP_append_other concerns same]
        exact old.ends
      · rw [heapIds, others _ _ same]
        exact old.present isPresent
      · rw [Ne, others _ _ same]
        exact old.absent isAbsent id
  agrees k := by
    rw [calls]
    exact agrees_update inv.agrees own notOwner stays k
  unborn c' beyond := by
    rw [allocated] at beyond
    have isUnborn := inv.unborn c' beyond
    rw [Function.update_of_ne]
    · exact isUnborn
    · rintro rfl
      exact born isUnborn
  ids id c' isContext := by
    rw [heapIds]
    by_cases same : c' = c
    · subst same
      exact ownId id isContext
    · exact inv.ids id c' ((others id c' same).mp isContext)
  returned c' member := by
    by_cases same : c' = c
    · subst same
      rw [Function.update_self]
      exact ends member
    · rw [Function.update_of_ne same]
      rw [trace] at member
      rcases List.mem_append.mp member with old | now
      · exact inv.returned c' old
      · exact absurd (concerns _ now) same
  order := order

theorem not_returned_of_ne_gone (inv : Inv s phase) {c : Nat} (notGone : phase c ≠ .gone) :
    .returned c ∉ s.trace := fun member => notGone (inv.returned c member)

theorem startOneContext_inv (inv : Inv s phase) {call : Nat} (free : s.calls call = .idle)
    (m : Machine) :
    Inv { s with
        nextContextId := s.nextContextId + 1
        heap := Function.update s.heap s.allocated ⟨s.nextContextId + 1, m.startState, 0⟩
        allocated := s.allocated + 1
        calls := Function.update s.calls call (.inserting s.allocated) }
      (Function.update phase s.allocated (.fresh call)) := by
  have unborn : phase s.allocated = .unborn := inv.unborn _ (Nat.le_refl _)
  have fitsHere := inv.fits s.allocated
  rw [unborn] at fitsHere
  have notThere : ∀ id c, s.contexts id = some c → c ≠ s.allocated := by
    rintro id c isContext rfl
    exact fitsHere.absent rfl id isContext
  refine ⟨fun c => ?_, fun k => ?_, fun c beyond => ?_, fun id c isContext => ?_,
    fun c member => ?_, inv.order⟩
  · by_cases same : c = s.allocated
    · subst same
      rw [Function.update_self]
      exact ⟨fitsHere.decided, fitsHere.ends, fun bad => Bool.noConfusion bad, fitsHere.absent⟩
    · have old := inv.fits c
      rw [Function.update_of_ne same]
      refine ⟨old.decided, old.ends, fun isPresent => ?_, old.absent⟩
      dsimp only
      rw [Function.update_of_ne same]
      exact old.present isPresent
  · refine agrees_update inv.agrees ?_ (fun k' _ => ?_) (fun bad => ?_) k
    · exact Function.update_self ..
    · rw [unborn]
      exact fun bad => nomatch bad
    · rw [unborn] at bad
      exact Bool.noConfusion bad
  · have notHere : c ≠ s.allocated := by
      dsimp only at beyond
      omega
    rw [Function.update_of_ne notHere]
    exact inv.unborn c (Nat.le_of_succ_le beyond)
  · dsimp only
    rw [Function.update_of_ne (notThere id c isContext)]
    exact inv.ids id c isContext
  · have isGone := inv.returned c member
    rw [Function.update_of_ne]
    · exact isGone
    · rintro rfl
      rw [unborn] at isGone
      cases isGone

theorem Inv.agrees_at (inv : Inv s phase) {call : Nat} {position : Call}
    (at' : s.calls call = position) : Agrees phase call position := at' ▸ inv.agrees call

theorem insert_inv (inv : Inv s phase) {call c : Nat} (at' : s.calls call = .inserting c)
    (free : s.contexts (s.heap c).id = none) :
    Inv { s with
        contexts := Function.update s.contexts (s.heap c).id (some c)
        calls := Function.update s.calls call (.starting c) }
      (Function.update phase c .live) := by
  have isFresh : phase c = .fresh call := inv.agrees_at at'
  have fitsHere := inv.fits c
  rw [isFresh] at fitsHere
  have notGone : phase c ≠ .gone := by
    rw [isFresh]
    exact Phase.noConfusion
  refine inv.advance rfl (List.append_nil _).symm (fun _ => rfl) rfl (fun id c' differs => ?_)
    (fun id isContext => ?_) (fun e member => by cases member) ?_ inv.order
    (fun member => absurd member (not_returned_of_ne_gone inv notGone)) ?_ ?_ (fun k differs => ?_) ?_
  · dsimp only
    by_cases same : id = (s.heap c).id
    · subst same
      rw [Function.update_self, free]
      exact ⟨fun eq => absurd (Option.some.inj eq).symm differs, fun eq => nomatch eq⟩
    · rw [Function.update_of_ne same]
  · dsimp only at isContext
    by_cases same : id = (s.heap c).id
    · exact same.symm
    · rw [Function.update_of_ne same] at isContext
      exact inv.ids id c isContext
  · exact ⟨fitsHere.decided, fitsHere.ends, fun _ => Function.update_self ..,
      fun bad => Bool.noConfusion bad⟩
  · rw [isFresh]
    exact Phase.noConfusion
  · show (Function.update phase c .live c).shared = true
    rw [Function.update_self]
    rfl
  · rw [isFresh]
    exact fun eq => differs (Option.some.inj eq).symm
  · exact fun _ => rfl

/-- A phase that is owned by the call that changes it. -/
theorem notOwner_of_owner {p : Phase} {call : Nat} (owned : p.owner = some call) (k : Nat)
    (differs : k ≠ call) : p.owner ≠ some k := by
  rw [owned]
  exact fun eq => differs (Option.some.inj eq).symm

theorem refuse_inv (inv : Inv s phase) {call c : Nat} (at' : s.calls call = .inserting c) :
    Inv { s with
        trace := s.trace ++ [.decided c]
        calls := Function.update s.calls call (.refused c) }
      (Function.update phase c (.refused call)) := by
  have isFresh : phase c = .fresh call := inv.agrees_at at'
  have fitsHere := inv.fits c
  rw [isFresh] at fitsHere
  refine inv.advance rfl rfl (fun _ => rfl) rfl (fun _ _ _ => Iff.rfl)
    (fun id => inv.ids id c) (fun e member => ?_) ?_ ?_ (fun member => ?_) ?_ ?_ ?_ ?_
  · rw [List.mem_singleton.mp member]
    exact rfl
  · refine ⟨⟨fun _ => rfl, fun _ => by simp⟩, ?_, fun bad => Bool.noConfusion bad, fitsHere.absent⟩
    rw [List.countP_append, fitsHere.ends]
    rfl
  · refine noLateAction_append_quiet inv.order fun e member c' isAction => ?_
    rw [List.mem_singleton.mp member] at isAction
    cases isAction
  · rcases List.mem_append.mp member with old | now
    · have isGone := inv.returned c old
      rw [isFresh] at isGone
      cases isGone
    · cases List.mem_singleton.mp now
  · rw [isFresh]
    exact Phase.noConfusion
  · exact Function.update_self ..
  · rw [isFresh]
    exact notOwner_of_owner rfl
  · rw [isFresh]
    exact fun bad => Bool.noConfusion bad

theorem callback_refused_inv (inv : Inv s phase) {call c : Nat} (at' : s.calls call = .refused c) :
    Inv { s with
        trace := s.trace ++ [.contextEnd c (-2), .returned c]
        calls := Function.update s.calls call (.returned (-2)) }
      (Function.update phase c .gone) := by
  have isRefused : phase c = .refused call := inv.agrees_at at'
  have fitsHere := inv.fits c
  rw [isRefused] at fitsHere
  refine inv.advance rfl rfl (fun _ => rfl) rfl (fun _ _ _ => Iff.rfl)
    (fun id => inv.ids id c) (fun e member => ?_) ?_ ?_ (fun _ => rfl) ?_ trivial ?_ (fun _ => rfl)
  · rcases List.mem_pair.mp member with rfl | rfl <;> exact rfl
  · refine ⟨⟨fun _ => rfl, fun _ => List.mem_append_left _ (fitsHere.decided.mpr rfl)⟩, ?_,
      fun bad => Bool.noConfusion bad, fitsHere.absent⟩
    rw [List.countP_append, fitsHere.ends]
    simp [isEndOf, Phase.ends]
  · refine noLateAction_append_quiet inv.order fun e member c' isAction => ?_
    rcases List.mem_pair.mp member with rfl | rfl <;> cases isAction
  · rw [isRefused]
    exact Phase.noConfusion
  · rw [isRefused]
    exact notOwner_of_owner rfl

theorem callback_inv (inv : Inv s phase) {call c : Nat} {res : Int}
    (at' : s.calls call = .completing c res) :
    Inv { s with
        trace := s.trace ++ [.contextEnd c res]
        calls := Function.update s.calls call (.erasing c) }
      (Function.update phase c (.erasing call)) := by
  have isCompleting : phase c = .completing call := inv.agrees_at at'
  have fitsHere := inv.fits c
  rw [isCompleting] at fitsHere
  refine inv.advance rfl rfl (fun _ => rfl) rfl (fun _ _ _ => Iff.rfl)
    (fun id => inv.ids id c) (fun e member => ?_) ?_ ?_ (fun member => ?_) ?_ ?_ ?_ (fun _ => rfl)
  · rw [List.mem_singleton.mp member]
    exact rfl
  · refine ⟨⟨fun _ => rfl, fun _ => List.mem_append_left _ (fitsHere.decided.mpr rfl)⟩, ?_,
      fun _ => fitsHere.present rfl, fun bad => Bool.noConfusion bad⟩
    rw [List.countP_append, fitsHere.ends]
    simp [isEndOf, Phase.ends]
  · refine noLateAction_append_quiet inv.order fun e member c' isAction => ?_
    rw [List.mem_singleton.mp member] at isAction
    cases isAction
  · rcases List.mem_append.mp member with old | now
    · have isGone := inv.returned c old
      rw [isCompleting] at isGone
      cases isGone
    · cases List.mem_singleton.mp now
  · rw [isCompleting]
    exact Phase.noConfusion
  · exact Function.update_self ..
  · rw [isCompleting]
    exact notOwner_of_owner rfl

theorem onContextEnd_inv (inv : Inv s phase) {call c : Nat} (at' : s.calls call = .erasing c) :
    Inv { s with
        contexts := Function.update s.contexts (s.heap c).id none
        trace := s.trace ++ [.returned c]
        calls := Function.update s.calls call (.returned 0) }
      (Function.update phase c .gone) := by
  have isErasing : phase c = .erasing call := inv.agrees_at at'
  have fitsHere := inv.fits c
  rw [isErasing] at fitsHere
  have here := fitsHere.present rfl
  refine inv.advance rfl rfl (fun _ => rfl) rfl (fun id c' differs => ?_) (fun id isContext => ?_)
    (fun e member => ?_) ?_ ?_ (fun _ => rfl) ?_ trivial ?_ (fun _ => rfl)
  · dsimp only
    by_cases same : id = (s.heap c).id
    · subst same
      rw [Function.update_self, here]
      exact ⟨fun eq => (nomatch eq), fun eq => absurd (Option.some.inj eq).symm differs⟩
    · rw [Function.update_of_ne same]
  · dsimp only at isContext
    by_cases same : id = (s.heap c).id
    · exact same.symm
    · rw [Function.update_of_ne same] at isContext
      exact inv.ids id c isContext
  · rw [List.mem_singleton.mp member]
    exact rfl
  · refine ⟨⟨fun _ => rfl, fun _ => List.mem_append_left _ (fitsHere.decided.mpr rfl)⟩, ?_,
      fun bad => Bool.noConfusion bad, fun _ id isContext => ?_⟩
    · rw [List.countP_append, fitsHere.ends]
      simp [isEndOf, Phase.ends]
    · dsimp only at isContext
      by_cases same : id = (s.heap c).id
      · subst same
        rw [Function.update_self] at isContext
        cases isContext
      · rw [Function.update_of_ne same] at isContext
        exact same (inv.ids id c isContext).symm
  · refine noLateAction_append_quiet inv.order fun e member c' isAction => ?_
    rw [List.mem_singleton.mp member] at isAction
    cases isAction
  · rw [isErasing]
    exact Phase.noConfusion
  · rw [isErasing]
    exact notOwner_of_owner rfl

/-- A call that moves on without touching a context. -/
theorem reposition_inv (inv : Inv s phase) {call : Nat} {position : Call}
    (agrees : Agrees phase call position) :
    Inv { s with calls := Function.update s.calls call position } phase := by
  refine ⟨fun c => ⟨(inv.fits c).decided, (inv.fits c).ends, (inv.fits c).present,
    (inv.fits c).absent⟩, fun k => ?_, inv.unborn, inv.ids, inv.returned, inv.order⟩
  dsimp only
  by_cases here : k = call
  · subst here
    rw [Function.update_self]
    exact agrees
  · rw [Function.update_of_ne here]
    exact inv.agrees k

theorem live_of_shared (inv : Inv s phase) {c : Nat} (shared : (phase c).shared = true)
    (undecided : .decided c ∉ s.trace) : phase c = .live := by
  have notDecided : ¬ (phase c).decided = true := fun decided =>
    undecided ((inv.fits c).decided.mpr decided)
  cases isPhase : phase c with
  | live => rfl
  | unborn => rw [isPhase] at shared; cases shared
  | fresh _ => rw [isPhase] at shared; cases shared
  | refused _ => rw [isPhase] at shared; cases shared
  | completing _ => rw [isPhase] at notDecided; exact absurd rfl notDecided
  | erasing _ => rw [isPhase] at notDecided; exact absurd rfl notDecided
  | gone => rw [isPhase] at notDecided; exact absurd rfl notDecided

/-- The phase of a live context after a section that returned `ret`. -/
def after (call : Nat) (ret : Int) : Phase := if ret = 0 then .live else .completing call

theorem leaveSection_inv (inv : Inv s phase) {call c ran : Nat} {ret : Int}
    {context : InternalContext} (live : phase c = .live) (sameId : context.id = (s.heap c).id) :
    Inv (leaveSection s call c (ret, ran, context)) (Function.update phase c (after call ret)) := by
  have fitsHere := inv.fits c
  rw [live] at fitsHere
  have undecided : .decided c ∉ s.trace := fun member => Bool.noConfusion (fitsHere.decided.mp member)
  have heapIds : ∀ c', (Function.update s.heap c context c').id = (s.heap c').id := by
    intro c'
    by_cases same : c' = c
    · subst same
      rw [Function.update_self]
      exact sameId
    · rw [Function.update_of_ne same]
  have decision : ∀ e ∈ (if ret = 0 then [] else [Event.decided c]), e = .decided c := by
    intro e member
    split at member
    · cases member
    · exact List.mem_singleton.mp member
  refine inv.advance rfl (List.append_assoc ..) heapIds rfl (fun _ _ _ => Iff.rfl)
    (fun id => inv.ids id c) (fun e member => ?_) ?_ ?_ (fun member => ?_) ?_ ?_ ?_ ?_
  · rcases List.mem_append.mp member with isAction | isDecision
    · rw [List.eq_of_mem_replicate isAction]
      exact rfl
    · rw [decision e isDecision]
      exact rfl
  · have noEnd : (List.replicate ran (Event.action c) ++
        (if ret = 0 then [] else [Event.decided c])).countP (isEndOf c) = 0 := by
      rw [List.countP_eq_zero]
      intro e member isEnd
      rcases List.mem_append.mp member with isAction | isDecision
      · rw [List.eq_of_mem_replicate isAction] at isEnd
        cases isEnd
      · rw [decision e isDecision] at isEnd
        cases isEnd
    have ends : (after call ret).ends = 0 := by
      unfold after
      split <;> rfl
    have present : (after call ret).present = true := by
      unfold after
      split <;> rfl
    refine ⟨?_, ?_, fun _ => ?_, fun absent => ?_⟩
    · simp only [leaveSection, after, List.mem_append]
      by_cases zero : ret = 0
      · rw [if_pos zero, if_pos zero]
        simp [undecided, Phase.decided]
      · rw [if_neg zero, if_neg zero]
        simp [Phase.decided]
    · rw [leaveSection, List.append_assoc, List.countP_append, noEnd, fitsHere.ends, ends]
      rfl
    · dsimp only [leaveSection]
      rw [heapIds]
      exact fitsHere.present rfl
    · rw [present] at absent
      cases absent
  · refine noLateAction_append inv.order (fun _ => undecided)
      (fun e member => List.eq_of_mem_replicate member) fun e member c' isAction => ?_
    rw [decision e member] at isAction
    cases isAction
  · rcases List.mem_append.mp member with front | isDecision
    · rcases List.mem_append.mp front with old | isAction
      · have isGone := inv.returned c old
        rw [live] at isGone
        cases isGone
      · cases List.eq_of_mem_replicate isAction
    · cases decision _ isDecision
  · rw [live]
    exact Phase.noConfusion
  · unfold after
    split
    · trivial
    · exact Function.update_self ..
  · rw [live]
    exact fun k _ eq => nomatch eq
  · intro _
    unfold after
    split <;> rfl

theorem takeTransition_id {m : Machine} {context context' : InternalContext} {nextState ret : Int}
    {rest : List Int} {ran : Nat}
    (done : takeTransition m context nextState rest = some (ret, ran, context')) :
    context'.id = context.id := by
  unfold takeTransition at done
  split at done
  · obtain ⟨⟨r, n, c⟩, inner, result⟩ := Option.map_eq_some_iff.mp done
    obtain ⟨-, -, rfl⟩ := result
    exact internalGotoState_id inner
  · obtain ⟨-, -, rfl⟩ := done
    rfl

variable {m : Machine}

theorem step_inv {s' : State} {label : Label} (inv : ∃ phase, Inv s phase) (clean : Clean m s label)
    (done : step m s label = some s') : ∃ phase, Inv s' phase := by
  obtain ⟨phase, inv⟩ := inv
  cases label with
  | startOneContext call =>
      cases at' : s.calls call with
      | idle =>
          simp only [step, at'] at done
          obtain rfl := Option.some.inj done
          exact ⟨_, startOneContext_inv inv at' m⟩
      | _ => simp only [step, at', reduceCtorEq] at done
  | insert call =>
      cases at' : s.calls call with
      | inserting c =>
          simp only [step, at'] at done
          cases entry : s.contexts (s.heap c).id with
          | none =>
              rw [entry] at done
              obtain rfl := Option.some.inj done
              exact ⟨_, insert_inv inv at' entry⟩
          | some other =>
              rw [entry] at done
              obtain rfl := Option.some.inj done
              exact ⟨_, refuse_inv inv at'⟩
      | _ => simp only [step, at', reduceCtorEq] at done
  | enterStart call results =>
      cases at' : s.calls call with
      | starting c =>
          simp only [step, at'] at done
          obtain ⟨⟨ret, ran, context⟩, went, rfl⟩ := Option.map_eq_some_iff.mp done
          have shared := inv.agrees call
          rw [at'] at shared
          have undecided := clean c (by simp [entering, at'])
          exact ⟨_, leaveSection_inv inv (live_of_shared inv shared undecided)
            (internalGotoState_id went)⟩
      | _ => simp only [step, at', reduceCtorEq] at done
  | processEvent call contextId type =>
      cases at' : s.calls call with
      | idle =>
          simp only [step, at'] at done
          cases entry : s.contexts contextId with
          | none =>
              rw [entry] at done
              obtain rfl := Option.some.inj done
              exact ⟨phase, reposition_inv inv trivial⟩
          | some c =>
              rw [entry] at done
              obtain rfl := Option.some.inj done
              refine ⟨phase, reposition_inv inv ?_⟩
              -- a context in the map is past the phases in which its creator owns it
              have found := (inv.fits c).absent
              cases isPhase : phase c with
              | unborn | fresh _ | refused _ =>
                  rw [isPhase] at found
                  exact absurd entry (found rfl contextId)
              | live | completing _ | erasing _ | gone =>
                  show (phase c).shared = true
                  rw [isPhase]
                  rfl
      | _ => simp only [step, at', reduceCtorEq] at done
  | enterEvent call results =>
      cases at' : s.calls call with
      | delivering c type =>
          simp only [step, at'] at done
          split at done
          · next found =>
              cases results with
              | nil => cases done
              | cons nextState rest =>
                  obtain ⟨⟨ret, ran, context⟩, went, rfl⟩ := Option.map_eq_some_iff.mp done
                  have shared := inv.agrees call
                  rw [at'] at shared
                  have undecided := clean c (by simp [entering, at', found])
                  exact ⟨_, leaveSection_inv inv (live_of_shared inv shared undecided)
                    (takeTransition_id went)⟩
          · obtain rfl := Option.some.inj done
            exact ⟨phase, reposition_inv inv trivial⟩
      | _ => simp only [step, at', reduceCtorEq] at done
  | callback call =>
      cases at' : s.calls call with
      | completing c res =>
          simp only [step, at'] at done
          obtain rfl := Option.some.inj done
          exact ⟨_, callback_inv inv at'⟩
      | refused c =>
          simp only [step, at'] at done
          obtain rfl := Option.some.inj done
          exact ⟨_, callback_refused_inv inv at'⟩
      | _ => simp only [step, at', reduceCtorEq] at done
  | onContextEnd call =>
      cases at' : s.calls call with
      | erasing c =>
          simp only [step, at'] at done
          obtain rfl := Option.some.inj done
          exact ⟨_, onContextEnd_inv inv at'⟩
      | _ => simp only [step, at', reduceCtorEq] at done

theorem Inv.endsOnce (inv : Inv s phase) : EndsOnce s := by
  intro c
  rw [(inv.fits c).ends]
  cases phase c <;> simp [Phase.ends]

theorem Inv.absentAfterReturn (inv : Inv s phase) : AbsentAfterReturn s := by
  intro c member
  have isGone := inv.returned c member
  have fits := inv.fits c
  rw [isGone] at fits
  exact fits.absent rfl

/-- One state without an action, and one event that leads from it to the end. -/
def twoStates : Machine where
  states id := if id = 1 ∨ id = 2 then some false else none
  transitions state type := state = 1 ∧ type = 7
  startState := 1
  endState := 2

/-- Two threads deliver the event; the second gets the mutex when the context has ended, and
state 2 has no transition. -/
def lateEventRun : List Label :=
  [.startOneContext 0, .insert 0, .enterStart 0 [], .processEvent 1 1 7, .processEvent 2 1 7,
    .enterEvent 1 [2], .enterEvent 2 [], .callback 1, .onContextEnd 1]

/-- The action of the event fails. The context stays in state 1, so that the second thread finds
the transition again. -/
def failingActionRun : List Label :=
  [.startOneContext 0, .insert 0, .enterStart 0 [], .processEvent 1 1 7, .processEvent 2 1 7,
    .enterEvent 1 [-1], .enterEvent 2 [-1], .callback 1, .callback 2]

end MlsImgSearch.Blitz.ContextCompletion
