import Mathlib.Algebra.BigOperators.Group.List.Basic
import MlsImgSearch.Blitz.RandomSelector

/-!
# Weights of the available services

`Select` returns the service at the cursor until it was used as often as its weight
says. Then the cursor moves and the next service is returned at once, but that use
is not counted: a service that the cursor comes to is returned once more than its
weight.
-/

namespace MlsImgSearch.Blitz.SelectorWeights

open MlsImgSearch.Lib.Run RandomSelector
open ServiceSelector (SelectNode)

variable {α : Type}

/-- The services that a number of `Select` calls return; `none` when one of them returns none. -/
def selects : Nat → Selector α → Option (List Ref)
  | 0, _ => some []
  | n + 1, s =>
      (select s).bind fun (picked, s') =>
        picked.bind fun r => (selects n s').map fun picks => r :: picks

def weightOf (nodes : Ref → Option (SelectNode α)) (r : Ref) : Int := (nodes r).elim 0 (·.weight)

/-- The sum of the weights of the available services. -/
def totalWeight (s : Selector α) : Int := (s.avail.items.map (weightOf s.nodes)).sum

/-- As many calls as the weights add up to return every available service as often as its weight. -/
def Fair (s : Selector α) : Prop :=
  ∃ picks, selects (totalWeight s).toNat s = some picks ∧
    ∀ r ∈ s.avail.items, (picks.count r : Int) = weightOf s.nodes r

/-- The cursor is in its list, and there is one service, or there are two and the first of them was not
used yet. -/
structure Balanced (s : Selector α) : Prop where
  cursor : ∃ r ∈ s.avail.items, s.avail.iter = some r
  few : s.avail.items.length = 1 ∨ s.avail.items.length = 2 ∧ s.avail.used = 0

/-! ## Selecting from one list -/

section Picks

variable {nodes : Ref → Option (SelectNode α)} {h : Half} {p q : Ref}

def picks (nodes : Ref → Option (SelectNode α)) : Nat → Half → Option (List Ref)
  | 0, _ => some []
  | n + 1, h => (h.select nodes).bind fun (r, h') => (picks nodes n h').map fun rest => r :: rest

theorem selects_eq_picks {s : Selector α} (some' : 0 < s.avail.count) (n : Nat) :
    selects n s = picks s.nodes n s.avail := by
  induction n generalizing s with
  | zero => rfl
  | succ n ih =>
      rw [selects, picks, select, if_pos some']
      cases picked : s.avail.select s.nodes with
      | none => rfl
      | some result =>
          obtain ⟨r, avail⟩ := result
          have same := (select_items picked).2.1
          rw [Option.map_some, Option.bind_some, Option.bind_some]
          dsimp only
          rw [Option.bind_some, ih (by dsimp only; rwa [same])]

/-- The service that the cursor comes to from `p`. -/
def Follows (items : List Ref) (p q : Ref) : Prop :=
  ∃ iter, after p items = some iter ∧ iter.or items.head? = some q

theorem follows_exists {items : List Ref} (member : p ∈ items) (nodup : items.Nodup) :
    ∃ q ∈ items, Follows items p q := by
  obtain ⟨iter, isAfter, inside⟩ := after_spec nodup member
  cases iter with
  | some q => exact ⟨q, List.mem_of_mem_erase (inside q rfl), some q, isAfter, rfl⟩
  | none =>
      obtain ⟨q, isHead⟩ := Option.isSome_iff_exists.mp
        (List.isSome_head?.mpr (List.ne_nil_of_mem member))
      exact ⟨q, List.mem_of_mem_head? isHead, none, isAfter, isHead⟩

/-- Two services follow each other. -/
theorem Follows.ne {items : List Ref} (follows : Follows items p q) (nodup : items.Nodup)
    (member : p ∈ items) (several : 2 ≤ items.length) : q ≠ p := by
  obtain ⟨iter, isAfter, isNext⟩ := follows
  obtain ⟨front, back, rfl⟩ := List.append_of_mem member
  have fresh : p ∉ front := fun again =>
    (List.nodup_append.mp nodup).2.2 p again p (List.mem_cons_self ..) rfl
  obtain ⟨notBack, -⟩ := List.nodup_cons.mp (List.nodup_append.mp nodup).2.1
  rw [after_append fresh] at isAfter
  obtain rfl := Option.some.inj isAfter
  rintro rfl
  cases back with
  | cons x back =>
      obtain rfl := Option.some.inj isNext
      exact notBack (List.mem_cons_self ..)
  | nil =>
      cases front with
      | nil => exact absurd several (by simp)
      | cons x front =>
          obtain rfl := Option.some.inj isNext
          exact fresh (List.mem_cons_self ..)

/-- The cursor stays at its service. -/
theorem select_stay (isIter : h.iter = some p) (member : p ∈ h.items) {node : SelectNode α}
    (isNode : nodes p = some node) (again : h.used < node.weight) :
    h.select nodes = some (p, { h with used := h.used + 1 }) := by
  unfold Half.select
  rw [isIter, Option.bind_some, if_pos member, isNode, Option.bind_some, if_pos again]

/-- The cursor moves to the next service, which is returned without being counted. -/
theorem select_move (isIter : h.iter = some p) (member : p ∈ h.items) {node : SelectNode α}
    (isNode : nodes p = some node) (enough : node.weight ≤ h.used) (follows : Follows h.items p q) :
    h.select nodes = some (q, { h with iter := some q, used := 0 }) := by
  obtain ⟨iter, isAfter, isNext⟩ := follows
  unfold Half.select
  rw [isIter, Option.bind_some, if_pos member, isNode, Option.bind_some,
    if_neg (Int.not_lt.mpr enough), Half.next, isIter, Option.bind_some, isAfter, Option.map_some,
    Option.bind_some]
  unfold Half.rewind
  dsimp only
  cases iter with
  | some x =>
      obtain rfl := Option.some.inj isNext
      rw [if_neg (Option.some_ne_none x)]
      rfl
  | none =>
      have isHead : h.items.head? = some q := isNext
      rw [if_pos rfl, isHead]
      rfl

/-- The service at the cursor is returned until its weight is reached. -/
theorem picks_stay (isIter : h.iter = some p) (member : p ∈ h.items) {node : SelectNode α}
    (isNode : nodes p = some node) (k n : Nat) (room : h.used + k ≤ node.weight) :
    picks nodes (k + n) h =
      (picks nodes n { h with used := h.used + k }).map fun rest => List.replicate k p ++ rest := by
  induction k generalizing h with
  | zero =>
      rw [Nat.zero_add, Nat.cast_zero, Int.add_zero]
      exact Option.map_id'.symm
  | succ k ih =>
      have again : h.used < node.weight := by omega
      rw [Nat.succ_add, picks, select_stay isIter member isNode again, Option.bind_some]
      dsimp only
      rw [ih (h := { h with used := h.used + 1 }) isIter member (by dsimp only; omega), Option.map_map]
      dsimp only
      rw [show h.used + 1 + (k : Int) = h.used + ((k + 1 : Nat) : Int) by omega]
      rfl

theorem picks_move (isIter : h.iter = some p) (member : p ∈ h.items) {node : SelectNode α}
    (isNode : nodes p = some node) (enough : node.weight ≤ h.used) (follows : Follows h.items p q)
    (n : Nat) :
    picks nodes (n + 1) h =
      (picks nodes n { h with iter := some q, used := 0 }).map fun rest => q :: rest := by
  rw [picks, select_move isIter member isNode enough follows]
  rfl

/-- The rest of the turn of `p`, and the first use of the next service. -/
theorem picks_turn (isIter : h.iter = some p) (member : p ∈ h.items) {node : SelectNode α}
    (isNode : nodes p = some node) (follows : Follows h.items p q) (n : Nat) :
    picks nodes ((node.weight - h.used).toNat + (n + 1)) h =
      (picks nodes n { h with iter := some q, used := 0 }).map fun rest =>
        List.replicate (node.weight - h.used).toNat p ++ q :: rest := by
  by_cases enough : node.weight ≤ h.used
  · rw [Int.toNat_of_nonpos (by omega), Nat.zero_add,
      picks_move isIter member isNode enough follows]
    rfl
  · rw [picks_stay isIter member isNode _ _ (by omega),
      picks_move (h := { h with used := h.used + (node.weight - h.used).toNat }) isIter member isNode
        (by dsimp only; omega) follows, Option.map_map]
    rfl

/-- A single service is returned every time. -/
theorem picks_single (items : h.items = [p]) (isIter : h.iter = some p) {node : SelectNode α}
    (isNode : nodes p = some node) (n : Nat) :
    picks nodes n h = some (List.replicate n p) := by
  have member : p ∈ h.items := by
    rw [items]
    exact List.mem_singleton.mpr rfl
  have follows : Follows h.items p p := by
    rw [items]
    exact ⟨none, if_pos rfl, rfl⟩
  induction n generalizing h with
  | zero => rfl
  | succ n ih =>
      rw [picks]
      by_cases enough : node.weight ≤ h.used
      · rw [select_move isIter member isNode enough follows, Option.bind_some]
        dsimp only
        rw [ih (h := { h with iter := some p, used := 0 }) items rfl member follows]
        rfl
      · rw [select_stay isIter member isNode (Int.not_le.mp enough), Option.bind_some]
        dsimp only
        rw [ih (h := { h with used := h.used + 1 }) items isIter member follows]
        rfl

end Picks

/-! ## The sum of the weights -/

section Sums

variable {items : List Ref} {weight : Ref → Int} {p q : Ref}

theorem length_le_sum (positive : ∀ r ∈ items, 1 ≤ weight r) :
    (items.length : Int) ≤ (items.map weight).sum := by
  induction items with
  | nil => exact Int.le_refl _
  | cons r items ih =>
      obtain ⟨first, others⟩ := List.forall_mem_cons.mp positive
      have rest := ih others
      rw [List.map_cons, List.sum_cons, List.length_cons]
      omega

/-- Two of the services, and the rest. -/
theorem two_of (member : p ∈ items) (member' : q ∈ items) (ne : q ≠ p) :
    ∃ rest, items.Perm (p :: q :: rest) :=
  ⟨(items.erase p).erase q, (List.perm_cons_erase member).trans
    ((List.perm_cons_erase ((List.mem_erase_of_ne ne).mpr member')).cons p)⟩

theorem sum_two {rest : List Ref} (split : items.Perm (p :: q :: rest)) :
    (items.map weight).sum = weight p + weight q + (rest.map weight).sum := by
  rw [(split.map weight).sum_eq, List.map_cons, List.map_cons, List.sum_cons, List.sum_cons,
    add_assoc]

end Sums

/-! ## Fairness -/

section Fairness

variable {s : Selector α}

theorem weightOf_node {nodes : Ref → Option (SelectNode α)} {r : Ref}
    (positive : 1 ≤ weightOf nodes r) :
    ∃ node, nodes r = some node ∧ weightOf nodes r = node.weight := by
  unfold weightOf at positive ⊢
  cases isNode : nodes r with
  | none =>
      rw [isNode] at positive
      have wrong : (1 : Int) ≤ 0 := positive
      exact absurd wrong (by decide)
  | some node => exact ⟨node, rfl, rfl⟩

theorem count_pos (linked : Linked s) (some' : s.avail.items ≠ []) : 0 < s.avail.count := by
  have nonempty := List.length_pos_of_ne_nil some'
  rw [linked.availCount]
  omega

/-- Without a cursor in its list nothing is returned. -/
theorem Fair.cursor (fair : Fair s) (linked : Linked s) (some' : s.avail.items ≠ [])
    (positive : ∀ r ∈ s.avail.items, 1 ≤ weightOf s.nodes r) :
    ∃ r ∈ s.avail.items, s.avail.iter = some r := by
  obtain ⟨list, ran, -⟩ := fair
  rw [selects_eq_picks (count_pos linked some')] at ran
  have total : (s.avail.items.length : Int) ≤ totalWeight s := length_le_sum positive
  have nonempty := List.length_pos_of_ne_nil some'
  obtain ⟨n, isCount⟩ := Nat.exists_eq_succ_of_ne_zero
    (show (totalWeight s).toNat ≠ 0 by omega)
  rw [isCount] at ran
  obtain ⟨⟨r, h⟩, picked, -⟩ := Option.bind_eq_some_iff.mp ran
  obtain ⟨x, isIter, inside⟩ := Option.bind_eq_some_iff.mp picked
  split at inside
  · next member => exact ⟨x, member, isIter⟩
  · cases inside

/-- A service that the cursor comes to is returned too often. -/
theorem Fair.few (fair : Fair s) (linked : Linked s)
    (positive : ∀ r ∈ s.avail.items, 1 ≤ weightOf s.nodes r) {p : Ref}
    (member : p ∈ s.avail.items) (isIter : s.avail.iter = some p) :
    s.avail.items.length = 1 ∨ s.avail.items.length = 2 ∧ s.avail.used = 0 := by
  by_contra many
  have nodup := (List.nodup_append.mp linked.nodup).1
  have some' := List.ne_nil_of_mem member
  have nonempty := List.length_pos_of_ne_nil some'
  obtain ⟨q, member', follows⟩ := follows_exists member nodup
  have ne := follows.ne nodup member (by omega)
  obtain ⟨rest, split⟩ := two_of member member' ne
  have sum : totalWeight s = weightOf s.nodes p + weightOf s.nodes q +
      (rest.map (weightOf s.nodes)).sum := sum_two split
  have others : (rest.length : Int) ≤ (rest.map (weightOf s.nodes)).sum :=
    length_le_sum fun r isRest => positive r (split.mem_iff.mpr
      (List.mem_cons_of_mem _ (List.mem_cons_of_mem _ isRest)))
  have length : s.avail.items.length = rest.length + 2 := split.length_eq
  obtain ⟨node, isNode, isWeight⟩ := weightOf_node (positive p member)
  obtain ⟨node', isNode', isWeight'⟩ := weightOf_node (positive q member')
  have least := positive p member
  have least' := positive q member'
  have used := linked.availUsed
  -- the calls that are left after the turns of both services
  obtain ⟨n, isCount⟩ : ∃ n, (totalWeight s).toNat =
      (node.weight - s.avail.used).toNat + ((node'.weight.toNat + n) + 1) :=
    ⟨(totalWeight s).toNat - (node.weight - s.avail.used).toNat - node'.weight.toNat - 1, by omega⟩
  obtain ⟨list, ran, exactly⟩ := fair
  rw [selects_eq_picks (count_pos linked some'), isCount,
    picks_turn isIter member isNode follows,
    picks_stay (h := { s.avail with iter := some q, used := 0 }) rfl member' isNode' _ _
      (by dsimp only; omega), Option.map_map] at ran
  obtain ⟨tail, -, rfl⟩ := Option.map_eq_some_iff.mp ran
  have tooOften := exactly q member'
  rw [Function.comp_apply, List.count_append, List.count_cons_self, List.count_append,
    List.count_replicate_self] at tooOften
  omega

theorem fair_of_balanced (linked : Linked s)
    (positive : ∀ r ∈ s.avail.items, 1 ≤ weightOf s.nodes r) (balanced : Balanced s) : Fair s := by
  obtain ⟨⟨p, member, isIter⟩, few⟩ := balanced
  have some' := List.ne_nil_of_mem member
  obtain ⟨node, isNode, isWeight⟩ := weightOf_node (positive p member)
  have least := positive p member
  unfold Fair
  rw [selects_eq_picks (count_pos linked some')]
  rcases few with one | ⟨two, unused⟩
  · obtain ⟨x, items⟩ := List.length_eq_one_iff.mp one
    rw [items, List.mem_singleton] at member
    subst member
    have total : totalWeight s = weightOf s.nodes p := by
      unfold totalWeight
      rw [items, List.map_cons, List.map_nil, List.sum_singleton]
    refine ⟨_, picks_single items isIter isNode _, fun r isMember => ?_⟩
    rw [items, List.mem_singleton] at isMember
    rw [isMember, List.count_replicate_self, total]
    omega
  · have nodup := (List.nodup_append.mp linked.nodup).1
    obtain ⟨q, member', follows⟩ := follows_exists member nodup
    have ne := follows.ne nodup member (by omega)
    obtain ⟨rest, split⟩ := two_of member member' ne
    obtain rfl : rest = [] := by
      have length := split.length_eq
      rw [two, List.length_cons, List.length_cons] at length
      exact List.length_eq_zero_iff.mp (by omega)
    have sum : totalWeight s = weightOf s.nodes p + weightOf s.nodes q + 0 := sum_two split
    obtain ⟨node', isNode', isWeight'⟩ := weightOf_node (positive q member')
    have least' := positive q member'
    have isCount : (totalWeight s).toNat =
        (node.weight - s.avail.used).toNat + (node'.weight.toNat - 1 + 1) := by
      omega
    have second := picks_stay (h := { s.avail with iter := some q, used := 0 }) rfl member' isNode'
      (node'.weight.toNat - 1) 0 (by dsimp only; omega)
    rw [Nat.add_zero] at second
    rw [isCount, picks_turn isIter member isNode follows, second, Option.map_map]
    refine ⟨_, rfl, fun r isMember => ?_⟩
    rw [Function.comp_apply, List.append_nil, unused, ← List.replicate_succ, List.count_append]
    rcases List.mem_cons.mp (split.mem_iff.mp isMember) with rfl | isSecond
    · rw [List.count_replicate_self, List.count_replicate, if_neg (by simpa using ne)]
      omega
    · obtain rfl := List.mem_singleton.mp isSecond
      rw [List.count_replicate_self, List.count_replicate, if_neg (by simpa using Ne.symm ne)]
      omega

end Fairness

/-- In every state of every run the weights are kept exactly when the available services are balanced. -/
theorem fair_iff_balanced {calls : List (Call α)} {t : Tracked α}
    (ran : exec step {} calls = some t) (some' : t.selector.avail.items ≠ [])
    (positive : ∀ r ∈ t.selector.avail.items, 1 ≤ weightOf t.selector.nodes r) :
    Fair t.selector ↔ Balanced t.selector := by
  have linked := linked_exec linked_initial ran
  constructor
  · intro fair
    obtain ⟨p, member, isIter⟩ := fair.cursor linked some' positive
    exact ⟨⟨p, member, isIter⟩, fair.few linked positive member isIter⟩
  · exact fair_of_balanced linked positive

/-- Two services that were not used yet. -/
theorem fair_two_unused :
    ∃ t, exec step {} [.addItem 'a' 1, .addItem 'b' 2] = some t ∧ Fair t.selector :=
  ⟨_, rfl, (fair_iff_balanced
      (rfl : exec step {} [.addItem 'a' 1, .addItem 'b' 2] = some _) (by decide) (by decide)).mpr
    ⟨⟨1, by decide, rfl⟩, Or.inr ⟨rfl, rfl⟩⟩⟩

/-- Of three services with weight one, three calls return one twice and one not at all. -/
theorem not_fair_three :
    ∃ t, exec step {} [.addItem 'a' 1, .addItem 'b' 1, .addItem 'c' 1] = some t ∧
      (∀ r ∈ t.selector.avail.items, 1 ≤ weightOf t.selector.nodes r) ∧ ¬ Fair t.selector := by
  refine ⟨_, rfl, by decide, ?_⟩
  rintro ⟨list, ran, exactly⟩
  have isList : some [1, 3, 3] = some list := ran
  obtain rfl := Option.some.inj isList
  exact absurd (exactly 2 (by decide)) (by decide)

end MlsImgSearch.Blitz.SelectorWeights
