import Mathlib.Data.List.AList
import Mathlib.Data.List.TakeWhile
import MlsImgSearch.Blitz.ConsistHashRing

/-!
# Setup that fails half way

`StateMachine::Init` fills two maps from a table, and `ConsistHashSelector::AddItem`
enters the virtual nodes of a service one by one. Both can fail after they have
entered something. `Init` empties the maps on some of its error paths and not on
others; `AddItem` takes nothing back.
-/

namespace MlsImgSearch.Blitz.FailedSetup

open Lib.SortedList Lib.Run ServiceSelector ConsistHashRing

/-! ## The state machine -/

section Model

variable {β γ : Type}

structure State (β : Type) where
  id : Int
  action : β

structure Transition (γ : Type) where
  state : Int
  eventType : Int
  action : γ

/-- The arguments of `Init`. -/
structure Table (β γ : Type) where
  states : List (State β)
  transitions : List (Transition γ)
  startState : Int
  endState : Int

structure Machine (β γ : Type) where
  states : AList (fun _ : Int => State β) := ∅
  transitions : AList (fun _ : Int => AList fun _ : Int => Transition γ) := ∅
  startState : Int := -1
  endState : Int := -1

/-- The loop over the states, up to its end or to the first error. -/
def insertStates : List (State β) → AList (fun _ : Int => State β) →
    Int × AList fun _ : Int => State β
  | [], states => (0, states)
  | s :: rest, states =>
      if s.id ≤ 0 then (-1, states)
      else if s.id ∈ states then (-2, states)
      else insertStates rest (states.insert s.id s)

/-- The loop over the transitions, up to its end or to the first error. -/
def insertTransitions (states : AList fun _ : Int => State β) :
    List (Transition γ) → AList (fun _ : Int => AList fun _ : Int => Transition γ) →
      Int × AList fun _ : Int => AList fun _ : Int => Transition γ
  | [], transitions => (0, transitions)
  | t :: rest, transitions =>
      if t.state ∉ states then (-3, transitions)
      else
        let events := (transitions.lookup t.state).getD ∅
        if t.eventType ∈ events then (-3, transitions.insert t.state events)
        else
          insertTransitions states rest
            (transitions.insert t.state (events.insert t.eventType t))

/-- `none` is a failed assertion. -/
def init (m : Machine β γ) (t : Table β γ) : Option (Int × Machine β γ) :=
  if 0 < t.startState ∧ 0 < t.endState ∧ t.states ≠ [] then
    if ¬ m.states.entries.isEmpty then some (1, m)
    else
      let m := { m with startState := t.startState, endState := t.endState }
      let inserted := insertStates t.states m.states
      if inserted.1 = -1 then some (-1, { m with states := inserted.2 })
      else if inserted.1 ≠ 0 then some (inserted.1, { m with states := ∅ })
      else if t.endState ∉ inserted.2 then some (-3, { m with states := inserted.2 })
      else
        let linked := insertTransitions inserted.2 t.transitions m.transitions
        if linked.1 ≠ 0 then some (linked.1, { m with states := ∅, transitions := ∅ })
        else some (0, { m with states := inserted.2, transitions := linked.2 })
  else none

end Model

/-! ## The contract -/

section Contract

variable {α β γ : Type}

/-- A table that describes a machine. -/
structure Valid (t : Table β γ) : Prop where
  start : 0 < t.startState
  final : 0 < t.endState
  positive : ∀ s ∈ t.states, 0 < s.id
  distinct : (t.states.map State.id).Nodup
  finalKnown : t.endState ∈ t.states.map State.id
  statesKnown : ∀ u ∈ t.transitions, u.state ∈ t.states.map State.id
  eventsDistinct : (t.transitions.map fun u => (u.state, u.eventType)).Nodup

/-- When `Init` of a new machine fails, its maps are empty, and a valid table can be used later. -/
def InitTraceless (t : Table β γ) : Prop :=
  ∀ ret m', init {} t = some (ret, m') → ret < 0 →
    m'.states = ∅ ∧ m'.transitions = ∅ ∧
      ∀ t' : Table β γ, Valid t' → ∃ m'', init m' t' = some (0, m'')

/-- The states before the first one with a bad id. -/
def goodStates (list : List (State β)) : List (State β) := list.takeWhile fun s => 0 < s.id

/-- The states before the first bad id have an id twice, or there are none, or there is no bad id and
the end state is among them. -/
def Untorn (t : Table β γ) : Prop :=
  0 < t.startState → 0 < t.endState → ((goodStates t.states).map State.id).Nodup →
    goodStates t.states = [] ∨
      goodStates t.states = t.states ∧ t.endState ∈ t.states.map State.id

/-- A selector whose available nodes are sorted by hash, as their declaration says. -/
structure SortedSelector (α : Type) where
  selector : ConsistHashSelector α
  ascending : Ascending ListNode.hash selector.availItems

/-- When `AddItem` fails, the services, the available nodes and the answer to every key are what they
were. -/
def AddTraceless [Inhabited α] (hash : List Char → Hash) (s : ConsistHashSelector α)
    (call : AddCall α) : Prop :=
  ∀ code s', addItem hash call s = (.failed code, s') →
    s'.items = s.items ∧ s'.availItems = s.availItems ∧
      ∀ key, select hash key s' = select hash key s

/-- The call cannot leave a part of a service behind, or its id is in use and it fails at once. -/
def Whole (hash : List Char → Hash) (s : ConsistHashSelector α) (call : AddCall α) : Prop :=
  CleanAdd hash s call ∨ (s.items (s.nextId + 1)).isSome

end Contract

/-! ## `Init` -/

section Init

variable {β γ : Type} {t : Table β γ}

theorem goodStates_bad {s : State β} (bad : s.id ≤ 0) (rest : List (State β)) :
    goodStates (s :: rest) = [] := List.takeWhile_cons_of_neg (by simpa using bad)

theorem goodStates_good {s : State β} (good : ¬ s.id ≤ 0) (rest : List (State β)) :
    goodStates (s :: rest) = s :: goodStates rest :=
  List.takeWhile_cons_of_pos (by simpa using good)

/-- The ids before the first bad one are new to the map and to each other. -/
def Fresh (list : List (State β)) (states : AList fun _ : Int => State β) : Prop :=
  ((goodStates list).map State.id).Nodup ∧ ∀ s ∈ goodStates list, s.id ∉ states

theorem fresh_cons {s : State β} (good : ¬ s.id ≤ 0) (rest : List (State β))
    (states : AList fun _ : Int => State β) :
    Fresh (s :: rest) states ↔ s.id ∉ states ∧ Fresh rest (states.insert s.id s) := by
  unfold Fresh
  rw [goodStates_good good, List.map_cons, List.nodup_cons, List.forall_mem_cons]
  constructor
  · rintro ⟨⟨notLater, nodup⟩, first, others⟩
    refine ⟨first, nodup, fun u member inserted => ?_⟩
    rcases (AList.mem_insert _).mp inserted with same | old
    · exact notLater (same ▸ List.mem_map_of_mem member)
    · exact others u member old
  · rintro ⟨first, nodup, others⟩
    refine ⟨⟨fun member => ?_, nodup⟩, first, fun u member old => ?_⟩
    · obtain ⟨u, isGood, same⟩ := List.mem_map.mp member
      exact others u isGood ((AList.mem_insert _).mpr (Or.inl same))
    · exact others u member ((AList.mem_insert _).mpr (Or.inr old))

theorem insertStates_clash {list : List (State β)} {states : AList fun _ : Int => State β}
    (clash : ¬ Fresh list states) : (insertStates list states).1 = -2 := by
  induction list generalizing states with
  | nil => exact absurd ⟨List.nodup_nil, fun _ member => absurd member List.not_mem_nil⟩ clash
  | cons s rest ih =>
      rw [insertStates]
      by_cases bad : s.id ≤ 0
      · refine absurd ?_ clash
        unfold Fresh
        rw [goodStates_bad bad]
        exact ⟨List.nodup_nil, fun _ member => absurd member List.not_mem_nil⟩
      · rw [if_neg bad]
        by_cases present : s.id ∈ states
        · rw [if_pos present]
        · rw [if_neg present]
          exact ih fun fresh => clash ((fresh_cons bad rest states).mpr ⟨present, fresh⟩)

/-- New ids are entered up to the first bad one. -/
theorem insertStates_fresh {list : List (State β)} {states : AList fun _ : Int => State β}
    (fresh : Fresh list states) :
    (goodStates list = list → (insertStates list states).1 = 0) ∧
      (goodStates list ≠ list → (insertStates list states).1 = -1) ∧
      ∀ id, id ∈ (insertStates list states).2 ↔
        id ∈ states ∨ id ∈ (goodStates list).map State.id := by
  induction list generalizing states with
  | nil =>
      refine ⟨fun _ => rfl, fun wrong => absurd rfl wrong, fun id => ⟨Or.inl, ?_⟩⟩
      rintro (old | new)
      · exact old
      · exact absurd new List.not_mem_nil
  | cons s rest ih =>
      rw [insertStates]
      by_cases bad : s.id ≤ 0
      · rw [if_pos bad, goodStates_bad bad]
        refine ⟨fun wrong => absurd wrong.symm (List.cons_ne_nil _ _), fun _ => rfl,
          fun id => ⟨Or.inl, ?_⟩⟩
        rintro (old | new)
        · exact old
        · exact absurd new List.not_mem_nil
      · obtain ⟨absent, later⟩ := (fresh_cons bad rest states).mp fresh
        obtain ⟨all, some', keys⟩ := ih later
        rw [if_neg bad, if_neg absent, goodStates_good bad]
        refine ⟨fun same => all (List.cons.inj same).2,
          fun differ => some' fun same => differ (congrArg (s :: ·) same), fun id => ?_⟩
        rw [keys id, AList.mem_insert, List.map_cons, List.mem_cons, or_assoc, or_left_comm]

/-- Known states and new events are all entered. -/
theorem insertTransitions_valid {states : AList fun _ : Int => State β} {list : List (Transition γ)}
    (transitions : AList fun _ : Int => AList fun _ : Int => Transition γ)
    (known : ∀ u ∈ list, u.state ∈ states)
    (distinct : (list.map fun u => (u.state, u.eventType)).Nodup)
    (fresh : ∀ u ∈ list, u.eventType ∉ (transitions.lookup u.state).getD ∅) :
    (insertTransitions states list transitions).1 = 0 := by
  induction list generalizing transitions with
  | nil => rfl
  | cons u rest ih =>
      obtain ⟨firstKnown, othersKnown⟩ := List.forall_mem_cons.mp known
      obtain ⟨firstFresh, othersFresh⟩ := List.forall_mem_cons.mp fresh
      obtain ⟨notLater, later⟩ := List.nodup_cons.mp distinct
      rw [insertTransitions, if_neg (not_not.mpr firstKnown)]
      dsimp only
      rw [if_neg firstFresh]
      refine ih _ othersKnown later fun v member => ?_
      by_cases same : v.state = u.state
      · rw [same, AList.lookup_insert, Option.getD_some, AList.mem_insert]
        rintro (sameEvent | old)
        · refine notLater (List.mem_map.mpr ⟨v, member, ?_⟩)
          rw [same, sameEvent]
        · exact othersFresh v member (same ▸ old)
      · rw [AList.lookup_insert_ne same]
        exact othersFresh v member

theorem fresh_empty (list : List (State β)) :
    Fresh list ∅ ↔ ((goodStates list).map State.id).Nodup :=
  ⟨fun fresh => fresh.1, fun nodup => ⟨nodup, fun s _ => AList.notMem_empty s.id⟩⟩

/-- A machine with empty maps accepts a valid table. -/
theorem init_valid {m : Machine β γ} (noStates : m.states = ∅) (noTransitions : m.transitions = ∅)
    (valid : Valid t) : ∃ m', init m t = some (0, m') := by
  have all : goodStates t.states = t.states :=
    List.takeWhile_eq_self_iff.mpr fun s member => decide_eq_true (valid.positive s member)
  have fresh : Fresh t.states ∅ := (fresh_empty _).mpr (by rw [all]; exact valid.distinct)
  obtain ⟨entered, -, keys⟩ := insertStates_fresh fresh
  have some' : t.states ≠ [] := by
    rintro empty
    have wrong := valid.finalKnown
    rw [empty] at wrong
    exact absurd wrong List.not_mem_nil
  have known : ∀ id ∈ t.states.map State.id, id ∈ (insertStates t.states ∅).2 := by
    intro id member
    rw [keys id, all]
    exact Or.inr member
  have linked : (insertTransitions (insertStates t.states ∅).2 t.transitions ∅).1 = 0 :=
    insertTransitions_valid ∅ (fun u member => known _ (valid.statesKnown u member))
      valid.eventsDistinct fun u _ => AList.notMem_empty u.eventType
  unfold init
  dsimp only
  rw [if_pos ⟨valid.start, valid.final, some'⟩, noStates, noTransitions, if_neg (by simp)]
  rw [entered all, if_neg (by decide), if_neg (by decide),
    if_neg (not_not.mpr (known _ valid.finalKnown)), linked, if_neg (by decide)]
  exact ⟨_, rfl⟩

/-- `Init` of a new machine, by the states before the first bad id. -/
theorem init_new (start : 0 < t.startState) (final : 0 < t.endState) (some' : t.states ≠ []) :
    init {} t =
      if (insertStates t.states ∅).1 = -1 then
        some (-1, ⟨(insertStates t.states ∅).2, ∅, t.startState, t.endState⟩)
      else if (insertStates t.states ∅).1 ≠ 0 then
        some ((insertStates t.states ∅).1, ⟨∅, ∅, t.startState, t.endState⟩)
      else if t.endState ∉ (insertStates t.states ∅).2 then
        some (-3, ⟨(insertStates t.states ∅).2, ∅, t.startState, t.endState⟩)
      else if (insertTransitions (insertStates t.states ∅).2 t.transitions ∅).1 ≠ 0 then
        some ((insertTransitions (insertStates t.states ∅).2 t.transitions ∅).1,
          ⟨∅, ∅, t.startState, t.endState⟩)
      else
        some (0, ⟨(insertStates t.states ∅).2,
          (insertTransitions (insertStates t.states ∅).2 t.transitions ∅).2, t.startState,
          t.endState⟩) := by
  unfold init
  rw [if_pos ⟨start, final, some'⟩, if_neg (by simp)]

/-- Some state is left when the first id is good. -/
theorem insertStates_ne_empty (fresh : Fresh t.states ∅) (some' : goodStates t.states ≠ []) :
    (insertStates t.states ∅).2 ≠ ∅ := by
  intro empty
  obtain ⟨s, member⟩ := List.exists_mem_of_ne_nil _ some'
  have entered := ((insertStates_fresh fresh).2.2 s.id).mpr (Or.inr (List.mem_map_of_mem member))
  rw [empty] at entered
  exact absurd entered (AList.notMem_empty s.id)

theorem insertStates_empty (fresh : Fresh t.states ∅) (none' : goodStates t.states = []) :
    (insertStates t.states ∅).2 = ∅ := by
  have noKey : ∀ id, id ∉ (insertStates t.states ∅).2 := by
    intro id member
    rcases ((insertStates_fresh fresh).2.2 id).mp member with old | new
    · exact AList.notMem_empty id old
    · rw [none'] at new
      exact absurd new List.not_mem_nil
  refine AList.ext (List.eq_nil_iff_forall_not_mem.mpr fun entry member => ?_)
  exact noKey entry.1 (AList.mem_keys.mpr (List.mem_map_of_mem member))

theorem untorn_of_initTraceless (traceless : InitTraceless t) : Untorn t := by
  intro start final nodup
  have fresh := (fresh_empty t.states).mpr nodup
  by_contra torn
  obtain ⟨someGood, notWhole⟩ := not_or.mp torn
  have some' : t.states ≠ [] := by
    rintro empty
    exact someGood (by rw [empty]; rfl)
  have left := insertStates_ne_empty fresh someGood
  by_cases all : goodStates t.states = t.states
  · have absent : t.endState ∉ (insertStates t.states ∅).2 := fun entered => notWhole ⟨all, by
      rcases ((insertStates_fresh fresh).2.2 _).mp entered with old | new
      · exact absurd old (AList.notMem_empty _)
      · exact all ▸ new⟩
    have failed := init_new start final some'
    rw [(insertStates_fresh fresh).1 all, if_neg (by decide), if_neg (by decide),
      if_pos absent] at failed
    exact left (traceless _ _ failed (by decide)).1
  · have failed := init_new start final some'
    rw [(insertStates_fresh fresh).2.1 all, if_pos rfl] at failed
    exact left (traceless _ _ failed (by decide)).1

theorem initTraceless_of_untorn (untorn : Untorn t) : InitTraceless t := by
  intro ret m' failed negative
  suffices empty : m'.states = ∅ ∧ m'.transitions = ∅ from
    ⟨empty.1, empty.2, fun t' valid => init_valid empty.1 empty.2 valid⟩
  by_cases asserted : 0 < t.startState ∧ 0 < t.endState ∧ t.states ≠ []
  · obtain ⟨start, final, some'⟩ := asserted
    rw [init_new start final some'] at failed
    split at failed
    · next early =>
        obtain ⟨-, rfl⟩ := Prod.mk.inj (Option.some.inj failed)
        have fresh : Fresh t.states ∅ := by
          by_contra clash
          rw [insertStates_clash clash] at early
          exact absurd early (by decide)
        rcases untorn start final fresh.1 with none' | ⟨all, -⟩
        · exact ⟨insertStates_empty fresh none', rfl⟩
        · rw [(insertStates_fresh fresh).1 all] at early
          exact absurd early (by decide)
    · split at failed
      · obtain ⟨-, rfl⟩ := Prod.mk.inj (Option.some.inj failed)
        exact ⟨rfl, rfl⟩
      · next notBad entered =>
          split at failed
          · next absent =>
              have fresh : Fresh t.states ∅ := by
                by_contra clash
                rw [insertStates_clash clash] at entered
                exact absurd (not_not.mp entered) (by decide)
              have all : goodStates t.states = t.states := by
                by_contra some''
                exact notBad ((insertStates_fresh fresh).2.1 some'')
              rcases untorn start final fresh.1 with none' | ⟨-, known⟩
              · exact absurd (all.symm.trans none') some'
              · refine absurd (((insertStates_fresh fresh).2.2 _).mpr (Or.inr ?_)) absent
                rwa [all]
          · split at failed
            · obtain ⟨-, rfl⟩ := Prod.mk.inj (Option.some.inj failed)
              exact ⟨rfl, rfl⟩
            · obtain ⟨rfl, -⟩ := Prod.mk.inj (Option.some.inj failed)
              exact absurd negative (by decide)
  · exact nomatch (if_neg asserted).symm.trans failed

end Init

/-! ## `AddItem` -/

section AddItem

variable {α : Type} {hash : List Char → Hash} {s s' : ConsistHashSelector α} {call : AddCall α}

theorem addVirtualNodes_keeps (hash : List Char → Hash) (call : AddCall α) (id : BitVec 32) (todo i : Nat)
    (s : ConsistHashSelector α) (asc : Ascending ListNode.hash s.availItems) :
    s.availItems.length ≤ (addVirtualNodes hash call id todo i s).2.availItems.length ∧
      (addVirtualNodes hash call id todo i s).2.errorItems = s.errorItems ∧
      Ascending ListNode.hash (addVirtualNodes hash call id todo i s).2.availItems := by
  induction todo generalizing i s with
  | zero => exact ⟨Nat.le_refl _, rfl, asc⟩
  | succ todo ih =>
      unfold addVirtualNodes
      dsimp only
      split
      · exact ⟨Nat.le_refl _, rfl, asc⟩
      · next missed =>
          have longer : s.availItems.length ≤ (insertToVector s.availItems
              (binarySearchVector compareNodeHash ⟨hash (call.virtualKey i), call.node⟩
                s.availItems).1 ⟨hash (call.virtualKey i), call.node⟩).length := by
            rw [(insertToVector_perm _ _ _).length_eq, List.length_append]
            exact Nat.le_add_right _ _
          have inserted (items : BitVec 32 → Option (List (MapNode α))) :=
            ih (i + 1) { s with
              items := items
              availItems := insertToVector s.availItems
                (binarySearchVector compareNodeHash ⟨hash (call.virtualKey i), call.node⟩
                  s.availItems).1 ⟨hash (call.virtualKey i), call.node⟩ }
              (insertToVector_ascending asc missed)
          split
          · split
            · exact ⟨Nat.le_refl _, rfl, asc⟩
            · obtain ⟨length, errors, asc'⟩ := inserted _
              exact ⟨Nat.le_trans longer length, errors, asc'⟩
          · obtain ⟨length, errors, asc'⟩ := inserted _
            exact ⟨Nat.le_trans longer length, errors, asc'⟩

/-- A collision of the first virtual node, or an id in use, ends the loop before it changes anything. -/
theorem addVirtualNodes_at_once (call : AddCall α) (asc : Ascending ListNode.hash s.availItems)
    {id : BitVec 32} (todo : Nat)
    (early : (∃ e ∈ s.availItems, e.hash = hash (call.virtualKey 0)) ∨
      (s.items id).isSome) :
    ∃ code ≠ 0, addVirtualNodes hash call id (todo + 1) 0 s = (code, s) := by
  unfold addVirtualNodes
  dsimp only
  by_cases found : (binarySearchVector compareNodeHash
      (⟨hash (call.virtualKey 0), call.node⟩ : ListNode α) s.availItems).2 = true
  · rw [if_pos found]
    exact ⟨1, by decide, rfl⟩
  · rw [if_neg found, if_pos rfl]
    rcases early with collides | used
    · exact absurd ((binarySearchVector_found asc).mpr collides) found
    · obtain ⟨nodes, isNodes⟩ := Option.isSome_iff_exists.mp used
      rw [isNodes]
      exact ⟨-2, by decide, rfl⟩

/-- Otherwise the first virtual node is entered, and stays. -/
theorem addVirtualNodes_longer (asc : Ascending ListNode.hash s.availItems) (id : BitVec 32)
    (todo : Nat) (fresh : ¬ ∃ e ∈ s.availItems, e.hash = hash (call.virtualKey 0))
    (free : s.items id = none) :
    s.availItems.length <
      (addVirtualNodes hash call id (todo + 1) 0 s).2.availItems.length := by
  have missed : ¬ (binarySearchVector compareNodeHash
      (⟨hash (call.virtualKey 0), call.node⟩ : ListNode α) s.availItems).2 = true :=
    fun found => fresh ((binarySearchVector_found asc).mp found)
  unfold addVirtualNodes
  dsimp only
  rw [if_neg missed, if_pos rfl, free]
  refine Nat.lt_of_lt_of_le ?_
    (addVirtualNodes_keeps hash call id todo 1 _ (insertToVector_ascending asc missed)).1
  dsimp only
  rw [(insertToVector_perm _ _ _).length_eq, List.length_append]
  exact Nat.lt_succ_self _

/-- A loop that returns 0 met only new hashes. -/
theorem inserted_fresh {id : BitVec 32} {node : SelectNode α} {hashes : List Hash}
    (inserted : Inserted s s' id node hashes) :
    hashes.Nodup ∧ ∀ h ∈ hashes, ∀ e ∈ s.availItems, e.hash ≠ h := by
  have nodup := (inserted.entries.map ListNode.hash).nodup_iff.mp (nodup_hashes inserted.ascending)
  rw [List.map_append, List.nodup_append] at nodup
  have hashesOf : (entriesOf node hashes).map ListNode.hash = hashes := by
    unfold entriesOf
    rw [List.map_map]
    exact List.map_id _
  rw [hashesOf] at nodup
  exact ⟨nodup.2.1, fun h member e isEntry =>
    nodup.2.2 e.hash (List.mem_map_of_mem isEntry) h member⟩

/-- What a failed call did. -/
theorem addItem_failed {code : Int} (failed : addItem hash call s = (.failed code, s')) :
    ¬ call.addr.length < 6 ∧ code ≠ 0 ∧
      addVirtualNodes hash call (s.nextId + 1) call.virtualCount.toNat 0
        { s with nextId := s.nextId + 1 } = (code, s') := by
  unfold addItem at failed
  dsimp only at failed
  split at failed
  · exact nomatch (Prod.mk.inj failed).1
  · next long =>
      refine ⟨long, ?_⟩
      split at failed
      · exact nomatch (Prod.mk.inj failed).1
      · next ret last nonzero done =>
          obtain ⟨isCode, rfl⟩ := Prod.mk.inj failed
          obtain rfl := AddOutcome.failed.inj isCode
          exact ⟨nonzero, done⟩

theorem addItem_of_loop {code : Int} (long : ¬ call.addr.length < 6) (nonzero : code ≠ 0)
    (done : addVirtualNodes hash call (s.nextId + 1) call.virtualCount.toNat 0
      { s with nextId := s.nextId + 1 } = (code, s')) :
    addItem hash call s = (.failed code, s') := by
  unfold addItem
  dsimp only
  rw [if_neg long, done]
  split
  · next zero => exact absurd (Prod.mk.inj zero).1 nonzero
  · next ret last _ same =>
      obtain ⟨rfl, rfl⟩ := Prod.mk.inj same
      rfl

theorem addTraceless_of_whole [Inhabited α] (asc : Ascending ListNode.hash s.availItems)
    (whole : Whole hash s call) : AddTraceless hash s call := by
  intro code s' failed
  obtain ⟨long, nonzero, done⟩ := addItem_failed failed
  -- a failed call of this kind fails at its first virtual node
  suffices unchanged : s' = { s with nextId := s.nextId + 1 } by
    rw [unchanged]
    exact ⟨rfl, rfl, fun _ => rfl⟩
  cases count : call.virtualCount.toNat with
  | zero =>
      rw [count] at done
      exact absurd (Prod.mk.inj done).1.symm nonzero
  | succ todo =>
      rw [count] at done
      by_cases early : (∃ e ∈ s.availItems, e.hash = hash (call.virtualKey 0)) ∨
          (s.items (s.nextId + 1)).isSome
      · obtain ⟨code', -, atOnce⟩ := addVirtualNodes_at_once call
          (s := { s with nextId := s.nextId + 1 }) asc todo early
        exact (Prod.mk.inj (done.symm.trans atOnce)).2
      · obtain ⟨noCollision, free⟩ := not_or.mp early
        rcases whole with (short | noNodes | collides | ⟨distinct, fresh⟩) | used
        · exact absurd short long
        · rw [Int.toNat_of_nonpos noNodes] at count
          exact nomatch count
        · exact absurd collides noCollision
        · rw [count] at distinct fresh
          have works := addVirtualNodes_succeeds hash call (s.nextId + 1) (todo + 1) 0
            { s with nextId := s.nextId + 1 } asc
            (fun _ => Option.not_isSome_iff_eq_none.mp free) distinct fresh
          rw [done] at works
          exact absurd works nonzero
        · exact absurd used free

theorem whole_of_addTraceless [Inhabited α] (asc : Ascending ListNode.hash s.availItems)
    (traceless : AddTraceless hash s call) : Whole hash s call := by
  by_contra torn
  obtain ⟨notClean, free⟩ := not_or.mp torn
  obtain ⟨long, someNodes, noCollision, clash⟩ : ¬ call.addr.length < 6 ∧
      ¬ call.virtualCount ≤ 0 ∧ (¬ ∃ e ∈ s.availItems, e.hash = hash (call.virtualKey 0)) ∧
      ¬ ((call.hashesFrom hash 0 call.virtualCount.toNat).Nodup ∧
        ∀ h ∈ call.hashesFrom hash 0 call.virtualCount.toNat, ∀ e ∈ s.availItems, e.hash ≠ h) := by
    unfold CleanAdd at notClean
    rwa [not_or, not_or, not_or] at notClean
  obtain ⟨todo, count⟩ := Nat.exists_eq_succ_of_ne_zero
    (show call.virtualCount.toNat ≠ 0 by omega)
  have longer := addVirtualNodes_longer (s := { s with nextId := s.nextId + 1 }) asc
    (s.nextId + 1) todo noCollision (Option.not_isSome_iff_eq_none.mp free)
  rw [← Nat.succ_eq_add_one, ← count] at longer
  generalize done : addVirtualNodes hash call (s.nextId + 1) call.virtualCount.toNat 0
    { s with nextId := s.nextId + 1 } = result at longer
  obtain ⟨code, s'⟩ := result
  by_cases zero : code = 0
  · rw [zero] at done
    have entered := addVirtualNodes_inserted hash call _ _ _
      { s with nextId := s.nextId + 1 } _ asc done
    have fresh := inserted_fresh entered
    exact clash fresh
  · have unchanged := (traceless code s' (addItem_of_loop long zero done)).2.1
    dsimp only at longer
    rw [unchanged] at longer
    exact absurd longer (Nat.lt_irrefl _)

theorem ascending_addItem (hash : List Char → Hash) (call : AddCall α)
    (asc : Ascending ListNode.hash s.availItems) :
    Ascending ListNode.hash (addItem hash call s).2.availItems := by
  unfold addItem
  dsimp only
  split
  · exact asc
  · have kept := (addVirtualNodes_keeps hash call (s.nextId + 1) call.virtualCount.toNat 0
      { s with nextId := s.nextId + 1 } asc).2.2
    split
    · next done =>
        rw [done] at kept
        exact kept
    · next done =>
        rw [done] at kept
        exact kept

theorem ascending_removeVirtualNodes {nodes : List (MapNode α)}
    (asc : Ascending ListNode.hash s.availItems) (removed : removeVirtualNodes nodes s = some s') :
    Ascending ListNode.hash s'.availItems := by
  induction nodes generalizing s with
  | nil => exact Option.some.inj removed ▸ asc
  | cons node nodes ih =>
      unfold removeVirtualNodes at removed
      dsimp only at removed
      split at removed
      · split at removed
        · exact ih (asc.sublist (List.eraseIdx_sublist _ _)) removed
        · cases removed
      · split at removed
        · exact ih (by exact asc) removed
        · cases removed

theorem ascending_step {t t' : Tracked α} {entered : Call α}
    (asc : Ascending ListNode.hash t.selector.availItems)
    (taken : step hash t entered = some t') :
    Ascending ListNode.hash t'.selector.availItems := by
  cases entered with
  | addItem call =>
      have kept := ascending_addItem hash call asc
      unfold step at taken
      dsimp only at taken
      generalize addItem hash call t.selector = result at kept taken
      obtain ⟨outcome, s'⟩ := result
      cases outcome <;> exact Option.some.inj taken ▸ kept
  | removeItem serviceId =>
      obtain ⟨⟨code, s'⟩, removed, rfl⟩ := Option.map_eq_some_iff.mp taken
      unfold removeItem at removed
      split at removed
      · obtain ⟨-, rfl⟩ := Prod.mk.inj (Option.some.inj removed)
        exact asc
      · obtain ⟨mid, erased, result⟩ := Option.map_eq_some_iff.mp removed
        obtain ⟨-, rfl⟩ := Prod.mk.inj result
        have kept := ascending_removeVirtualNodes asc erased
        exact kept

/-- Every state that a run of the selector reaches is sorted. -/
theorem ascending_of_run {t : Tracked α} {calls : List (Call α)}
    (ran : exec (step hash) (Tracked.initial α) calls = some t) :
    Ascending ListNode.hash t.selector.availItems := by
  have any : Meets (step hash) (fun _ _ => True) (Tracked.initial α) calls :=
    meets_of_forall fun _ _ => trivial
  exact exec_invariant (fun _ _ _ before _ taken => ascending_step before taken)
    (show Ascending ListNode.hash (Tracked.initial α).selector.availItems from List.Pairwise.nil)
    any ran

end AddItem

/-- A service with two virtual nodes. -/
def twoNodes : AddCall Nat where
  userData := 7
  weight := 1
  addr := ['t', 'c', 'p', ':', '/', '/', 'a']
  virtualCount := 2

/-- The second state has the id 0. -/
def badSecond : Table Unit Unit where
  states := [⟨1, ()⟩, ⟨0, ()⟩]
  transitions := []
  startState := 1
  endState := 1

end MlsImgSearch.Blitz.FailedSetup
