import Mathlib.Algebra.BigOperators.Group.List.Basic
import Mathlib.Data.List.Rotate
import MlsImgSearch.Blitz2.ServicePool

/-!
# Weights of the nodes of the pool's selector

`Select` keeps to the node at the cursor while its mark is good and it was used less
often than its weight says, and goes on to the next node with a good mark then. A
search around the ring that comes back to the cursor counts as a search without a
result: a node that is the only one with a good mark does not get a second turn, and
the node after it is returned.
-/

namespace MlsImgSearch.Blitz2.SelectorWeights

open ServicePool

def updateAllMark (s : RandomSelector) (markDelta : Int) : RandomSelector :=
  (List.range s.nodes.length).foldl (fun s id => updateMark s id markDelta) s

inductive Call where
  | addItem (item : Nat) (weight : Int)
  | updateMark (id : Int) (markDelta : Int)
  | updateAllMark (markDelta : Int)
  | select
  deriving DecidableEq

def step (s : RandomSelector) : Call → RandomSelector
  | .addItem item weight => addItem s item weight
  | .updateMark id markDelta => updateMark s id markDelta
  | .updateAllMark markDelta => updateAllMark s markDelta
  | .select => (select s).elim s Prod.snd

def run (calls : List Call) : RandomSelector := calls.foldl step .initial

/-- The ids that a number of `Select` calls return; the id of the returned node is the cursor that the
call leaves. `none` when there is no node. -/
def selects : Nat → RandomSelector → Option (List Nat × RandomSelector)
  | 0, s => some ([], s)
  | n + 1, s =>
      (select s).bind fun (_, s') =>
        (selects n s').map fun (ids, last) => (s'.selectIdx :: ids, last)

def available (s : RandomSelector) (id : Nat) : Bool :=
  s.nodes[id]?.any fun node => decide (0 < node.mark)

/-- The ids of the nodes with a good mark. -/
def availableIds (s : RandomSelector) : List Nat := (List.range s.nodes.length).filter (available s)

def weightOf (s : RandomSelector) (id : Nat) : Int := s.nodes[id]?.elim 0 (·.weight)

def totalWeight (s : RandomSelector) : Int := ((availableIds s).map (weightOf s)).sum

/-- As many calls as the weights add up to return available nodes, each as often as its weight. -/
def Fair (s : RandomSelector) : Prop :=
  ∃ ids s', selects (totalWeight s).toNat s = some (ids, s') ∧
    (∀ id ∈ ids, id ∈ availableIds s) ∧ ∀ id ∈ availableIds s, (ids.count id : Int) = weightOf s id

/-- The node at the cursor was used already, is the only one with a good mark, and there are others. -/
structure Alone (s : RandomSelector) : Prop where
  only : availableIds s = [s.selectIdx]
  used : 0 < s.curnodeUsedCount
  others : 2 ≤ s.nodes.length

/-! ## Turns -/

section Turns

variable {α : Type} {weight : α → Nat} {todo : List α}

/-- Every element as often as its weight, one after the other. -/
def turns (weight : α → Nat) (todo : List α) : List α :=
  todo.flatMap fun x => List.replicate (weight x) x

theorem mem_of_mem_turns {x : α} (member : x ∈ turns weight todo) : x ∈ todo := by
  obtain ⟨y, inside, isCopy⟩ := List.mem_flatMap.mp member
  rwa [List.eq_of_mem_replicate isCopy]

theorem length_turns : (turns weight todo).length = (todo.map weight).sum := by
  rw [turns, List.length_flatMap]
  exact congrArg List.sum (List.map_congr_left fun _ _ => List.length_replicate ..)

theorem count_turns [DecidableEq α] (nodup : todo.Nodup) {x : α} (member : x ∈ todo) :
    (turns weight todo).count x = weight x := by
  induction todo with
  | nil => cases member
  | cons y todo ih =>
      obtain ⟨fresh, nodup'⟩ := List.nodup_cons.mp nodup
      rw [turns, List.flatMap_cons, List.count_append]
      change _ + (turns weight todo).count x = _
      rcases List.mem_cons.mp member with rfl | inside
      · rw [List.count_replicate_self,
          List.count_eq_zero.mpr fun again => fresh (mem_of_mem_turns again), Nat.add_zero]
      · have ne : y ≠ x := fun same => fresh (same ▸ inside)
        rw [List.count_replicate, if_neg (by simpa using ne), Nat.zero_add, ih nodup' inside]

end Turns

/-! ## The ring of nodes -/

section Ring

variable {s : RandomSelector}

/-- The positions after the cursor, around the ring; the cursor's is the last one. -/
def ring (s : RandomSelector) : List Nat := (List.range s.nodes.length).rotate (s.selectIdx + 1)

/-- The nodes with a good mark in the order in which they are looked at. -/
def queue (s : RandomSelector) : List Nat := (ring s).filter (available s)

theorem selectIdx_lt (nonempty : s.nodes.length ≠ 0) : s.selectIdx < s.nodes.length := by
  have valid := s.valid
  omega

theorem ring_eq (nonempty : s.nodes.length ≠ 0) :
    ring s = ((List.range (s.nodes.length - 1)).map fun k =>
      (s.selectIdx + 1 + k) % s.nodes.length) ++ [s.selectIdx] := by
  have inside := selectIdx_lt nonempty
  unfold ring
  apply List.ext_getElem
  · rw [List.length_rotate, List.length_append, List.length_map, List.length_range,
      List.length_range, List.length_singleton]
    omega
  · intro k bound _
    rw [List.length_rotate, List.length_range] at bound
    rw [List.getElem_rotate, List.getElem_range, List.length_range]
    by_cases isLast : k = s.nodes.length - 1
    · subst isLast
      rw [List.getElem_append_right (by simp), List.getElem_singleton,
        show s.nodes.length - 1 + (s.selectIdx + 1) = s.selectIdx + s.nodes.length by omega,
        Nat.add_mod_right, Nat.mod_eq_of_lt inside]
    · rw [List.getElem_append_left (by simp; omega), List.getElem_map, List.getElem_range,
        Nat.add_comm]

theorem available_congr {s' : RandomSelector} (same : s'.nodes = s.nodes) :
    available s' = available s := by
  funext id
  rw [available, same]
  rfl

theorem weightOf_congr {s' : RandomSelector} (same : s'.nodes = s.nodes) :
    weightOf s' = weightOf s := by
  funext id
  rw [weightOf, same]
  rfl

theorem queue_congr {s' : RandomSelector} (same : s'.nodes = s.nodes)
    (cursor : s'.selectIdx = s.selectIdx) : queue s' = queue s := by
  rw [queue, queue, available_congr same, ring, ring, same, cursor]

theorem queue_perm : (queue s).Perm (availableIds s) := (List.rotate_perm _ _).filter _

theorem queue_nodup : (queue s).Nodup :=
  ((List.nodup_rotate.mpr List.nodup_range).filter _)

theorem available_of_mem {id : Nat} (member : id ∈ queue s) : available s id :=
  (List.mem_filter.mp member).2

/-- The search ends at the first node of the queue, unless that is the one at the cursor. -/
theorem nextIdx_eq {q : Nat} {rest : List Nat} (nonempty : s.nodes.length ≠ 0)
    (isQueue : queue s = q :: rest) (ne : q ≠ s.selectIdx) : nextIdx s = q := by
  rw [queue, ring_eq nonempty, List.filter_append] at isQueue
  unfold nextIdx markedIdx
  rw [← List.head?_filter]
  cases behind : ((List.range (s.nodes.length - 1)).map fun k =>
      (s.selectIdx + 1 + k) % s.nodes.length).filter (available s) with
  | cons p front =>
      rw [behind] at isQueue
      obtain ⟨rfl, -⟩ := List.cons.inj isQueue
      exact congrArg (fun found => Option.getD (List.head? found) _) behind
  | nil =>
      rw [behind] at isQueue
      have member : q ∈ [s.selectIdx].filter (available s) := by
        rw [List.nil_append] at isQueue
        rw [isQueue]
        exact List.mem_cons_self ..
      exact absurd (List.mem_singleton.mp (List.mem_filter.mp member).1) ne

/-- When nothing else is in the queue, the next node is returned whatever its mark. -/
theorem nextIdx_alone (nonempty : s.nodes.length ≠ 0) (isQueue : queue s = [s.selectIdx]) :
    nextIdx s = (s.selectIdx + 1) % s.nodes.length := by
  have good : available s s.selectIdx :=
    available_of_mem (isQueue ▸ List.mem_singleton.mpr rfl)
  rw [queue, ring_eq nonempty, List.filter_append, List.filter_singleton, good, cond_true] at isQueue
  have behind := List.append_left_eq_self.mp isQueue
  unfold nextIdx markedIdx
  rw [← List.head?_filter]
  exact congrArg (fun found => Option.getD (List.head? found) _) behind

/-- The node that the cursor goes to is the last one to be looked at from there. -/
theorem queue_next {s' : RandomSelector} {q : Nat} {rest : List Nat} (same : s'.nodes = s.nodes)
    (cursor : s'.selectIdx = q) (isQueue : queue s = q :: rest) : queue s' = rest ++ [q] := by
  obtain ⟨pre, post, isRing, unavailable, good, isRest⟩ := List.filter_eq_cons_iff.mp isQueue
  have isNext : (pre.length + (s.selectIdx + 1)) % s.nodes.length = q := by
    have found : ((List.range s.nodes.length).rotate (s.selectIdx + 1))[pre.length]? = some q := by
      rw [← ring, isRing, List.getElem?_append_right (Nat.le_refl _), Nat.sub_self]
      rfl
    obtain ⟨bound, isFound⟩ := List.getElem?_eq_some_iff.mp found
    rw [← isFound, List.getElem_rotate, List.getElem_range, List.length_range]
  have isRing' : ring s' = post ++ (pre ++ [q]) := by
    calc ring s' = (List.range s.nodes.length).rotate (q + 1) := by rw [ring, same, cursor]
      _ = (List.range s.nodes.length).rotate (s.selectIdx + 1 + (pre ++ [q]).length) := by
          rw [← List.rotate_mod, ← List.rotate_mod _ (s.selectIdx + 1 + _), List.length_range,
            ← isNext, Nat.mod_add_mod, List.length_append, List.length_singleton]
          congr 2
          omega
      _ = (ring s).rotate (pre ++ [q]).length := by rw [ring, List.rotate_rotate]
      _ = post ++ (pre ++ [q]) := by
          rw [isRing, List.append_cons, List.rotate_append_length_eq]
  rw [queue, isRing', available_congr same, List.filter_append, List.filter_append, isRest,
    List.filter_eq_nil_iff.mpr unavailable, List.filter_cons, if_pos good]
  rfl

/-- The node at the cursor has had its turn. -/
def Spent (s : RandomSelector) : Prop :=
  ∀ node, s.nodes[s.selectIdx]? = some node → 0 < node.mark → node.weight ≤ s.curnodeUsedCount

end Ring

/-! ## Selecting -/

section Selecting

variable {s s' : RandomSelector} {node : SelectNode} {q : Nat} {rest : List Nat}

theorem selects_add {last : RandomSelector} {m n : Nat} {ids ids' : List Nat}
    (first : selects m s = some (ids, s')) (second : selects n s' = some (ids', last)) :
    selects (m + n) s = some (ids ++ ids', last) := by
  induction m generalizing s ids with
  | zero =>
      cases first
      rwa [Nat.zero_add]
  | succ m ih =>
      obtain ⟨⟨node, mid⟩, picked, later⟩ := Option.bind_eq_some_iff.mp first
      obtain ⟨⟨ids'', mid'⟩, ran, isResult⟩ := Option.map_eq_some_iff.mp later
      cases isResult
      rw [Nat.succ_add, selects, picked, Option.bind_some]
      dsimp only
      rw [ih ran]
      rfl

theorem selects_length {n : Nat} {ids : List Nat} (ran : selects n s = some (ids, s')) :
    ids.length = n := by
  induction n generalizing s ids with
  | zero =>
      cases ran
      rfl
  | succ n ih =>
      obtain ⟨⟨node, mid⟩, -, later⟩ := Option.bind_eq_some_iff.mp ran
      obtain ⟨⟨ids', mid'⟩, ran', isResult⟩ := Option.map_eq_some_iff.mp later
      cases isResult
      exact congrArg (· + 1) (ih ran')

/-- The calls after a number of calls. -/
theorem selects_rest {last : RandomSelector} {m n : Nat} {ids ids' : List Nat}
    (first : selects m s = some (ids, s')) (all : selects (m + n) s = some (ids', last)) :
    ∃ tail, selects n s' = some (tail, last) ∧ ids' = ids ++ tail := by
  induction m generalizing s ids ids' with
  | zero =>
      cases first
      rw [Nat.zero_add] at all
      exact ⟨ids', all, rfl⟩
  | succ m ih =>
      obtain ⟨⟨node, mid⟩, picked, later⟩ := Option.bind_eq_some_iff.mp first
      obtain ⟨⟨ids'', mid'⟩, ran, isResult⟩ := Option.map_eq_some_iff.mp later
      cases isResult
      rw [Nat.succ_add, selects, picked, Option.bind_some] at all
      obtain ⟨⟨ids'', mid'⟩, ran', isResult⟩ := Option.map_eq_some_iff.mp all
      cases isResult
      obtain ⟨tail, ranTail, rfl⟩ := ih ran ran'
      exact ⟨tail, ranTail, rfl⟩

theorem select_stay (isNode : s.nodes[s.selectIdx]? = some node) (good : 0 < node.mark)
    (again : (s.curnodeUsedCount : Int) < node.weight) :
    select s = some (node, { s with curnodeUsedCount := s.curnodeUsedCount + 1 }) := by
  obtain ⟨inside, rfl⟩ := List.getElem?_eq_some_iff.mp isNode
  unfold select
  rw [dif_neg (by omega)]
  dsimp only
  exact if_pos ⟨good, again⟩

theorem select_move (spent : Spent s) (nonempty : s.nodes.length ≠ 0) :
    ∃ node s', select s = some (node, s') ∧ s'.nodes = s.nodes ∧ s'.selectIdx = nextIdx s ∧
      s'.curnodeUsedCount = 1 := by
  unfold select
  rw [dif_neg nonempty]
  dsimp only
  rw [if_neg]
  · exact ⟨_, _, rfl, rfl, rfl, rfl⟩
  · rintro ⟨good, again⟩
    exact Int.not_lt.mpr (spent _ (List.getElem?_eq_getElem (selectIdx_lt nonempty)) good) again

/-- The node at the cursor is returned until its weight is reached. -/
theorem selects_stay (isNode : s.nodes[s.selectIdx]? = some node) (good : 0 < node.mark) (k : Nat)
    (room : (s.curnodeUsedCount + k : Int) ≤ node.weight ∨ k = 0) :
    ∃ s', selects k s = some (List.replicate k s.selectIdx, s') ∧ s'.nodes = s.nodes ∧
      s'.selectIdx = s.selectIdx ∧ s'.curnodeUsedCount = s.curnodeUsedCount + k := by
  induction k generalizing s with
  | zero => exact ⟨s, rfl, rfl, rfl, rfl⟩
  | succ k ih =>
      have picked := select_stay isNode good (by omega)
      obtain ⟨s', ran, nodes, cursor, used⟩ :=
        ih (s := { s with curnodeUsedCount := s.curnodeUsedCount + 1 }) isNode
          (Or.inl (by push_cast; omega))
      refine ⟨s', ?_, nodes, cursor, by rw [used]; dsimp only; omega⟩
      rw [selects, picked, Option.bind_some]
      dsimp only
      rw [ran]
      rfl

/-- The turn of the next node. -/
theorem selects_turn (spent : Spent s) (isQueue : queue s = q :: rest) (ne : q ≠ s.selectIdx) {k : Nat}
    (some' : 0 < k) (room : (k : Int) ≤ weightOf s q) :
    ∃ s', selects k s = some (List.replicate k q, s') ∧ s'.nodes = s.nodes ∧ s'.selectIdx = q ∧
      s'.curnodeUsedCount = k := by
  have good : available s q := available_of_mem (isQueue ▸ List.mem_cons_self ..)
  unfold available at good
  cases isNode : s.nodes[q]? with
  | none =>
      rw [isNode] at good
      cases good
  | some node =>
      have isWeight : weightOf s q = node.weight := by
        rw [weightOf, isNode]
        rfl
      rw [isNode] at good
      have nonempty : s.nodes.length ≠ 0 := by
        have inside := (List.getElem?_eq_some_iff.mp isNode).1
        omega
      obtain ⟨first, mid, picked, nodes, cursor, used⟩ := select_move spent nonempty
      rw [nextIdx_eq nonempty isQueue ne] at cursor
      obtain ⟨n, rfl⟩ := Nat.exists_eq_succ_of_ne_zero (Nat.ne_of_gt some')
      obtain ⟨s', ran, nodes', cursor', used'⟩ :=
        selects_stay (s := mid) (by rw [nodes, cursor]; exact isNode) (of_decide_eq_true good) n
          (Or.inl (by rw [used]; push_cast at room ⊢; omega))
      refine ⟨s', ?_, nodes'.trans nodes, cursor'.trans cursor, by omega⟩
      rw [selects, picked, Option.bind_some]
      dsimp only
      rw [ran, cursor]
      rfl

end Selecting

/-! ## Rounds -/

section Rounds

variable {s : RandomSelector} {todo more : List Nat}

def turnsOf (s : RandomSelector) (id : Nat) : Nat := (weightOf s id).toNat

theorem turnsOf_congr {s' : RandomSelector} (same : s'.nodes = s.nodes) :
    turnsOf s' = turnsOf s := by
  funext id
  rw [turnsOf, weightOf_congr same]
  rfl

/-- The turns of the nodes at the front of the queue. -/
theorem selects_round (spent : Spent s) (isQueue : queue s = todo ++ more)
    (nodup : (s.selectIdx :: todo).Nodup) (positive : ∀ id ∈ todo, 1 ≤ weightOf s id) :
    ∃ s', selects (turns (turnsOf s) todo).length s = some (turns (turnsOf s) todo, s') ∧
      s'.nodes = s.nodes ∧ Spent s' ∧ queue s' = more ++ todo ∧
      (s'.selectIdx ∈ todo ∨ todo = [] ∧ s' = s) := by
  induction todo generalizing s more with
  | nil => exact ⟨s, rfl, rfl, spent, by simpa using isQueue, Or.inr ⟨rfl, rfl⟩⟩
  | cons q todo ih =>
      obtain ⟨fresh, nodup'⟩ := List.nodup_cons.mp nodup
      have ne : q ≠ s.selectIdx := fun same => fresh (same ▸ List.mem_cons_self ..)
      obtain ⟨least, others⟩ := List.forall_mem_cons.mp positive
      have isTurns : (turnsOf s q : Int) = weightOf s q := Int.toNat_of_nonneg (by omega)
      obtain ⟨mid, ran, nodes, cursor, used⟩ := selects_turn spent isQueue ne
        (show 0 < turnsOf s q by omega) (Int.le_of_eq isTurns)
      have sameWeight : weightOf mid = weightOf s := weightOf_congr nodes
      have spent' : Spent mid := by
        intro node isNode good
        rw [nodes, cursor] at isNode
        have isWeight : weightOf s q = node.weight := by
          rw [weightOf, isNode]
          rfl
        omega
      obtain ⟨s', ran', nodes', last, isQueue', isLast⟩ := ih spent'
        (show queue mid = todo ++ (more ++ [q]) by
          rw [queue_next nodes cursor isQueue]
          exact List.append_assoc ..)
        (by rwa [cursor])
        (by rwa [sameWeight])
      rw [turnsOf_congr nodes] at ran'
      refine ⟨s', ?_, nodes'.trans nodes, last, by rw [isQueue', List.append_assoc]; rfl, Or.inl ?_⟩
      · have all := selects_add ran ran'
        rw [turns, List.flatMap_cons, List.length_append, List.length_replicate]
        exact all
      · rcases isLast with inside | ⟨-, rfl⟩
        · exact List.mem_cons_of_mem _ inside
        · rw [cursor]
          exact List.mem_cons_self ..

/-- The weights of the available nodes add up to the turns in the queue. -/
theorem totalWeight_eq (positive : ∀ id ∈ availableIds s, 1 ≤ weightOf s id) :
    (totalWeight s).toNat = (turns (turnsOf s) (queue s)).length := by
  have exact' : ∀ ids : List Nat, (∀ id ∈ ids, 1 ≤ weightOf s id) →
      (ids.map (weightOf s)).sum = ((ids.map (turnsOf s)).sum : Nat) := by
    intro ids all
    induction ids with
    | nil => rfl
    | cons id ids ih =>
        obtain ⟨least, others⟩ := List.forall_mem_cons.mp all
        rw [List.map_cons, List.map_cons, List.sum_cons, List.sum_cons, ih others, Int.natCast_add,
          turnsOf, Int.toNat_of_nonneg (by omega)]
  rw [totalWeight, exact' _ positive, Int.toNat_natCast, length_turns]
  exact ((queue_perm.map (turnsOf s)).sum_eq).symm

end Rounds

/-! ## Fairness -/

section Fairness

variable {s : RandomSelector}

theorem node_of_available {id : Nat} (good : available s id) :
    ∃ node, s.nodes[id]? = some node ∧ 0 < node.mark ∧ weightOf s id = node.weight := by
  unfold available at good
  unfold weightOf
  cases isNode : s.nodes[id]? with
  | none =>
      rw [isNode] at good
      cases good
  | some node =>
      rw [isNode] at good
      exact ⟨node, rfl, of_decide_eq_true good, rfl⟩

theorem available_of_node {node : SelectNode} {id : Nat} (isNode : s.nodes[id]? = some node)
    (good : 0 < node.mark) : available s id := by
  rw [available, isNode]
  exact decide_eq_true good

theorem length_ne_zero {id : Nat} (member : id ∈ availableIds s) : s.nodes.length ≠ 0 := by
  have inside := List.mem_range.mp (List.mem_filter.mp member).1
  omega

/-- An available node at the cursor is the last one of the queue. -/
theorem queue_cursor (good : available s s.selectIdx) (nonempty : s.nodes.length ≠ 0) :
    ∃ todo, queue s = todo ++ [s.selectIdx] := by
  rw [queue, ring_eq nonempty, List.filter_append]
  exact ⟨_, congrArg _ (by rw [List.filter_cons, if_pos good, List.filter_nil])⟩

/-- What the calls return decides fairness. -/
theorem fair_of_turns {n : Nat} {ids : List Nat} {s' : RandomSelector}
    (positive : ∀ id ∈ availableIds s, 1 ≤ weightOf s id) (ran : selects n s = some (ids, s'))
    (perm : ids.Perm (turns (turnsOf s) (queue s))) : Fair s := by
  have count : (totalWeight s).toNat = n := by
    rw [totalWeight_eq positive, ← perm.length_eq, selects_length ran]
  refine ⟨ids, s', by rw [count]; exact ran, ?_, ?_⟩
  · intro id member
    exact queue_perm.mem_iff.mp (mem_of_mem_turns (perm.mem_iff.mp member))
  · intro id member
    have least := positive id member
    rw [perm.count_eq, count_turns queue_nodup (queue_perm.mem_iff.mpr member), turnsOf,
      Int.toNat_of_nonneg (by omega)]

/-- A single node is returned every time. -/
theorem selects_single (single : s.nodes.length = 1) (n : Nat) :
    ∃ s', selects n s = some (List.replicate n 0, s') := by
  induction n generalizing s with
  | zero => exact ⟨s, rfl⟩
  | succ n ih =>
      obtain ⟨node, mid, picked, same⟩ :
          ∃ node mid, select s = some (node, mid) ∧ mid.nodes = s.nodes := by
        unfold select
        rw [dif_neg (by omega)]
        dsimp only
        by_cases again : 0 < (s.nodes.get ⟨s.selectIdx, selectIdx_lt (by omega)⟩).mark ∧
            (s.curnodeUsedCount : Int) < (s.nodes.get ⟨s.selectIdx, selectIdx_lt (by omega)⟩).weight
        · rw [if_pos again]
          exact ⟨_, _, rfl, rfl⟩
        · rw [if_neg again]
          exact ⟨_, _, rfl, rfl⟩
      obtain ⟨s', ran⟩ := ih (s := mid) (by rwa [same])
      have first : mid.selectIdx = 0 := by
        have valid := mid.valid
        rw [same, single] at valid
        omega
      refine ⟨s', ?_⟩
      rw [selects, picked, Option.bind_some]
      dsimp only
      rw [ran, first]
      rfl

theorem fair_of_single (single : s.nodes.length = 1)
    (positive : ∀ id ∈ availableIds s, 1 ≤ weightOf s id) : Fair s := by
  have all : ∀ id ∈ turns (turnsOf s) (queue s), id = 0 := by
    intro id member
    have inside := List.mem_filter.mp (queue_perm.mem_iff.mp (mem_of_mem_turns member))
    rw [single] at inside
    exact Nat.lt_one_iff.mp (List.mem_range.mp inside.1)
  obtain ⟨s', ran⟩ := selects_single single (turns (turnsOf s) (queue s)).length
  rw [← List.eq_replicate_of_mem all] at ran
  exact fair_of_turns positive ran (List.Perm.refl _)

/-- With the cursor elsewhere, every available node gets its turn. -/
theorem fair_of_away (away : ¬ available s s.selectIdx)
    (positive : ∀ id ∈ availableIds s, 1 ≤ weightOf s id) : Fair s := by
  have spent : Spent s := fun node isNode good => absurd (available_of_node isNode good) away
  have fresh : s.selectIdx ∉ queue s := fun member => away (available_of_mem member)
  obtain ⟨s', ran, -⟩ := selects_round spent
    (show queue s = queue s ++ [] from (List.append_nil _).symm)
    (List.nodup_cons.mpr ⟨fresh, queue_nodup⟩)
    fun id member => positive id (queue_perm.mem_iff.mp member)
  exact fair_of_turns positive ran (List.Perm.refl _)

/-- The rest of the turn of the node at the cursor. -/
theorem selects_spend (good : available s s.selectIdx) :
    ∃ s', selects (turnsOf s s.selectIdx - s.curnodeUsedCount) s =
        some (List.replicate (turnsOf s s.selectIdx - s.curnodeUsedCount) s.selectIdx, s') ∧
      s'.nodes = s.nodes ∧ s'.selectIdx = s.selectIdx ∧ Spent s' := by
  obtain ⟨node, isNode, goodMark, isWeight⟩ := node_of_available good
  obtain ⟨s', ran, nodes, cursor, used⟩ := selects_stay isNode goodMark
    (turnsOf s s.selectIdx - s.curnodeUsedCount) (by unfold turnsOf; omega)
  refine ⟨s', ran, nodes, cursor, fun node' isNode' _ => ?_⟩
  rw [nodes, cursor, isNode] at isNode'
  obtain rfl := Option.some.inj isNode'
  unfold turnsOf at used
  omega

/-- The rest of the turn of the node at the cursor, the turns of the others, and the turn of that node
as far as it was used before. -/
theorem fair_of_turn (good : available s s.selectIdx) {todo : List Nat}
    (isQueue : queue s = todo ++ [s.selectIdx]) (more : todo ≠ [] ∨ s.curnodeUsedCount = 0)
    (positive : ∀ id ∈ availableIds s, 1 ≤ weightOf s id) : Fair s := by
  have nodup : (s.selectIdx :: todo).Nodup := by
    have nodup := queue_nodup (s := s)
    rw [isQueue] at nodup
    exact (List.perm_append_singleton s.selectIdx todo).nodup_iff.mp nodup
  have positive' : ∀ id ∈ todo ++ [s.selectIdx], 1 ≤ weightOf s id := fun id member =>
    positive id (queue_perm.mem_iff.mp (isQueue ▸ member))
  obtain ⟨mid, spend, nodes, cursor, spent⟩ := selects_spend good
  obtain ⟨mid', round, nodes', spent', isQueue', isLast⟩ := selects_round spent
    (show queue mid = todo ++ [s.selectIdx] by rw [queue_congr nodes cursor, isQueue])
    (by rwa [cursor]) (by
      rw [weightOf_congr nodes]
      exact fun id member => positive' id (List.mem_append_left _ member))
  rw [turnsOf_congr nodes] at round
  have first := selects_add spend round
  have isTurns : turns (turnsOf s) (queue s) =
      turns (turnsOf s) todo ++ List.replicate (turnsOf s s.selectIdx) s.selectIdx := by
    rw [isQueue, turns, List.flatMap_append, List.flatMap_singleton]
    rfl
  have least := positive' s.selectIdx (by simp)
  by_cases fresh : s.curnodeUsedCount = 0
  · rw [fresh, Nat.sub_zero] at first
    refine fair_of_turns positive first ?_
    rw [isTurns]
    exact List.perm_append_comm
  · have nonempty := more.resolve_right fresh
    have ne : s.selectIdx ≠ mid'.selectIdx := by
      rcases isLast with inside | ⟨none', -⟩
      · exact fun same => (List.nodup_cons.mp nodup).1 (same ▸ inside)
      · exact absurd none' nonempty
    have isRest : List.replicate (turnsOf s s.selectIdx) s.selectIdx =
        List.replicate (turnsOf s s.selectIdx - s.curnodeUsedCount) s.selectIdx ++
          List.replicate (min s.curnodeUsedCount (turnsOf s s.selectIdx)) s.selectIdx := by
      rw [← List.replicate_add]
      congr 1
      omega
    obtain ⟨last, again, -⟩ := selects_turn spent' isQueue' ne
      (k := min s.curnodeUsedCount (turnsOf s s.selectIdx)) (by unfold turnsOf; omega)
      (by rw [weightOf_congr (nodes'.trans nodes)]; unfold turnsOf; omega)
    refine fair_of_turns positive (selects_add first again) ?_
    rw [isTurns, isRest, ← List.append_assoc]
    exact List.perm_append_comm.append_right _

/-- A node that is alone has only the rest of its turn. -/
theorem not_fair_of_alone (alone : Alone s) (positive : ∀ id ∈ availableIds s, 1 ≤ weightOf s id) :
    ¬ Fair s := by
  rintro ⟨ids, last, ran, inside, -⟩
  have member : s.selectIdx ∈ availableIds s := by
    rw [alone.only]
    exact List.mem_singleton.mpr rfl
  have good : available s s.selectIdx := (List.mem_filter.mp member).2
  have least := positive _ member
  have used := alone.used
  have others := alone.others
  have total : (totalWeight s).toNat = turnsOf s s.selectIdx := by
    rw [totalWeight, alone.only, List.map_singleton, List.sum_singleton]
    rfl
  obtain ⟨n, isCount⟩ : ∃ n, turnsOf s s.selectIdx =
      turnsOf s s.selectIdx - s.curnodeUsedCount + (n + 1) :=
    ⟨turnsOf s s.selectIdx - (turnsOf s s.selectIdx - s.curnodeUsedCount) - 1, by
      unfold turnsOf
      omega⟩
  obtain ⟨mid, spend, nodes, cursor, spent⟩ := selects_spend good
  rw [total, isCount] at ran
  obtain ⟨tail, later, rfl⟩ := selects_rest spend ran
  obtain ⟨node, mid', picked, -, cursor', -⟩ := select_move spent (by rw [nodes]; omega)
  rw [selects, picked, Option.bind_some] at later
  obtain ⟨⟨ids', last'⟩, -, isResult⟩ := Option.map_eq_some_iff.mp later
  cases isResult
  have picked' := inside mid'.selectIdx (List.mem_append_right _ (List.mem_cons_self ..))
  rw [alone.only, List.mem_singleton, cursor'] at picked'
  have isQueue : queue mid = [mid.selectIdx] := by
    rw [queue_congr nodes cursor, cursor]
    exact List.perm_singleton.mp (alone.only ▸ queue_perm)
  rw [nextIdx_alone (by rw [nodes]; omega) isQueue, nodes, cursor] at picked'
  have valid := s.valid
  by_cases isLast : s.selectIdx + 1 = s.nodes.length
  · rw [isLast, Nat.mod_self] at picked'
    omega
  · rw [Nat.mod_eq_of_lt (by omega)] at picked'
    omega

/-- A state with available nodes is fair unless one of them is alone. -/
theorem fair_of_not_alone (some' : availableIds s ≠ [])
    (positive : ∀ id ∈ availableIds s, 1 ≤ weightOf s id) (company : ¬ Alone s) : Fair s := by
  obtain ⟨id, member⟩ := List.exists_mem_of_ne_nil _ some'
  have nonempty := length_ne_zero member
  by_cases good : available s s.selectIdx
  · obtain ⟨todo, isQueue⟩ := queue_cursor good nonempty
    by_cases single : s.nodes.length = 1
    · exact fair_of_single single positive
    · refine fair_of_turn good isQueue ?_ positive
      by_contra neither
      obtain ⟨isEmpty, used⟩ := not_or.mp neither
      rw [not_not.mp isEmpty] at isQueue
      have only : (availableIds s).Perm (queue s) := queue_perm.symm
      rw [isQueue] at only
      exact company ⟨List.perm_singleton.mp only, Nat.pos_of_ne_zero used, by omega⟩
  · exact fair_of_away good positive

end Fairness

/-- In every state of every run the weights are kept exactly when the node at the cursor is not
alone. -/
theorem fair_iff_company (calls : List Call) (some' : availableIds (run calls) ≠ [])
    (positive : ∀ id ∈ availableIds (run calls), 1 ≤ weightOf (run calls) id) :
    Fair (run calls) ↔ ¬ Alone (run calls) :=
  ⟨fun fair alone => not_fair_of_alone alone positive fair, fair_of_not_alone some' positive⟩

/-- Two nodes in the middle of the turn of the second one. -/
theorem fair_two_nodes :
    Fair (run [.addItem 7 1, .addItem 8 3, .select, .select]) :=
  (fair_iff_company [.addItem 7 1, .addItem 8 3, .select, .select] (by decide) (by decide)).mpr
    fun alone => absurd alone.only (by decide)

def oneLeft : RandomSelector := run [.addItem 7 1, .addItem 8 1, .updateMark 1 (-100), .select]

/-- The second node is not available. After one call the first one has had its turn, and the second one
is returned. -/
theorem not_fair_alone :
    availableIds oneLeft = [0] ∧ weightOf oneLeft 0 = 1 ∧ ¬ Fair oneLeft := by
  refine ⟨by decide, by decide, ?_⟩
  rintro ⟨ids, s', ran, inside, -⟩
  have isIds : (selects (totalWeight oneLeft).toNat oneLeft).map Prod.fst = some [1] := by decide
  rw [ran] at isIds
  obtain rfl : ids = [1] := Option.some.inj isIds
  exact absurd (inside 1 (List.mem_singleton.mpr rfl)) (by decide)

end MlsImgSearch.Blitz2.SelectorWeights
