import Mathlib.Data.List.TakeWhile
import MlsImgSearch.Lib.Run
import MlsImgSearch.Blitz.ServiceSelector

/-!
# The pattern selector

`PatternSelector` keeps the services in a map by id and in a list by name. A key selects the first
service in the list whose name is the part of the key before its first colon.
-/

namespace MlsImgSearch.Blitz.PatternServices

open Lib.Run
open ServiceSelector (SelectNode)

abbrev Text := List UInt8

/-! ## The selector -/

/-- `PatternSelector::MapNode`; `status` is 1 for available, 2 for error. -/
structure MapNode (α : Type) where
  name : Text
  status : Int
  node : SelectNode α
  deriving DecidableEq

/-- `PatternSelector::ListNode`, with the node its pointer refers to. -/
structure ListNode (α : Type) where
  name : Text
  node : SelectNode α
  deriving DecidableEq

structure PatternSelector (α : Type) where
  items : BitVec 32 → Option (MapNode α)
  availItems : List (ListNode α)
  errorItems : List (ListNode α)
  nextId : BitVec 32

def PatternSelector.initial (α : Type) : PatternSelector α := ⟨fun _ => none, [], [], 0⟩

section Operations

variable {α : Type}

/-- `items_.insert` keeps a node that is there. -/
def insertItem (items : BitVec 32 → Option (MapNode α)) (id : BitVec 32) (mapNode : MapNode α) :
    BitVec 32 → Option (MapNode α) :=
  if (items id).isSome then items else Function.update items id (some mapNode)

/-- The arguments of `AddItem` that its body reads. -/
structure AddCall (α : Type) where
  userData : α
  weight : Int
  name : Text
  deriving DecidableEq

def AddCall.node (call : AddCall α) : SelectNode α := { weight := call.weight, data := call.userData }

/-- The id of the service and the selector. -/
def addItem (call : AddCall α) (s : PatternSelector α) : BitVec 32 × PatternSelector α :=
  let id := s.nextId + 1
  (id, { s with
    nextId := id
    availItems := s.availItems ++ [⟨call.name, call.node⟩]
    items := insertItem s.items id ⟨call.name, 1, call.node⟩ })

/-- The loop of `RemoveItem`, which erases every node of a name. -/
def eraseName (name : Text) : List (ListNode α) → List (ListNode α)
  | [] => []
  | node :: rest => if node.name = name then eraseName name rest else node :: eraseName name rest

def removeItem (serviceId : BitVec 32) (s : PatternSelector α) : Int × PatternSelector α :=
  match s.items serviceId with
  | none => (1, s)
  | some mapNode =>
      let s :=
        if mapNode.status = 1 then { s with availItems := eraseName mapNode.name s.availItems }
        else { s with errorItems := eraseName mapNode.name s.errorItems }
      (0, { s with items := Function.update s.items serviceId none })

def getItem (id : BitVec 32) (s : PatternSelector α) : Option (SelectNode α) :=
  (s.items id).map MapNode.node

/-- The part of a key before its first colon. A key ends at its first zero. -/
def pattern (key : Text) : Text := (key.takeWhile (· ≠ 0)).takeWhile (· ≠ 58)

/-- `Select`; `none` is return code 1. -/
def select (key : Text) (s : PatternSelector α) : Option (SelectNode α) :=
  match s.availItems.find? fun node => node.name = pattern key with
  | some node => some node.node
  | none => (s.errorItems.find? fun node => node.name = pattern key).map ListNode.node

end Operations

/-! ## Runs -/

/-- A service as its caller knows it. -/
structure Service (α : Type) where
  id : BitVec 32
  name : Text
  node : SelectNode α
  deriving DecidableEq

inductive Call (α : Type) where
  | addItem (call : AddCall α)
  | removeItem (serviceId : BitVec 32)
  deriving DecidableEq

/-- The selector together with the services that were added and not removed, the earliest first. -/
structure Tracked (α : Type) where
  selector : PatternSelector α
  live : List (Service α)

section Runs

variable {α : Type}

def Tracked.initial (α : Type) : Tracked α := ⟨.initial α, []⟩

def step (t : Tracked α) : Call α → Option (Tracked α)
  | .addItem call =>
      let (id, s) := addItem call t.selector
      some ⟨s, t.live ++ [⟨id, call.name, call.node⟩]⟩
  | .removeItem serviceId =>
      some ⟨(removeItem serviceId t.selector).2, t.live.filter fun service => service.id ≠ serviceId⟩

/-- The earliest live service that a key should select. -/
def wanted (t : Tracked α) (key : Text) : Option (Service α) :=
  t.live.find? fun service => service.name = pattern key

/-- Keys select the earliest services with their names, and ids find exactly the live services. -/
structure Right (t : Tracked α) : Prop where
  select_eq : ∀ key, select key t.selector = (wanted t key).map Service.node
  getItem_eq : ∀ id, getItem id t.selector =
    (t.live.find? fun service => service.id = id).map Service.node

/-- The services are right after a removal, and keys that selected another service still do. -/
def RightRemoval (t : Tracked α) (serviceId : BitVec 32) : Prop :=
  ∃ t', step t (.removeItem serviceId) = some t' ∧ Right t' ∧
    ∀ key, (∀ service ∈ wanted t key, service.id ≠ serviceId) →
      select key t'.selector = select key t.selector

/-- A name that some key has before its colon. -/
def Selectable (name : Text) : Prop := 0 ∉ name ∧ 58 ∉ name

instance decidableSelectable (name : Text) : Decidable (Selectable name) :=
  inferInstanceAs (Decidable (_ ∧ _))

/-- A service is only removed while no other one has its name, unless no key can select it. The
counter for the ids must stay inside `int32_t`. -/
def Allowed (t : Tracked α) : Call α → Prop
  | .addItem _ => t.selector.nextId.toNat + 1 < 2 ^ 31
  | .removeItem serviceId => ∀ service ∈ t.live, service.id = serviceId → Selectable service.name →
      ∀ other ∈ t.live, other.name = service.name → other.id = serviceId

instance decidableAllowed (t : Tracked α) : ∀ call, Decidable (Allowed t call)
  | .addItem _ => inferInstanceAs (Decidable (_ < _))
  | .removeItem serviceId => inferInstanceAs (Decidable (∀ service ∈ t.live, service.id = serviceId →
      Selectable service.name → ∀ other ∈ t.live, other.name = service.name → other.id = serviceId))

end Runs

/-! ## The invariant -/

section Invariant

variable {α : Type} {t : Tracked α} {name : Text}

def Service.listNode (service : Service α) : ListNode α := ⟨service.name, service.node⟩

def Service.mapNode (service : Service α) : MapNode α := ⟨service.name, 1, service.node⟩

/-- The list has the live services of each name that can be selected, and the map has all of them. -/
structure Inv (t : Tracked α) : Prop where
  byName : ∀ name, Selectable name → (t.selector.availItems.filter fun node => node.name = name) =
    (t.live.filter fun service => service.name = name).map Service.listNode
  noError : t.selector.errorItems = []
  items : ∀ id, t.selector.items id =
    (t.live.find? fun service => service.id = id).map Service.mapNode
  bound : ∀ service ∈ t.live, service.id.toNat ≤ t.selector.nextId.toNat
  distinct : (t.live.map Service.id).Nodup

theorem inv_initial (α : Type) : Inv (Tracked.initial α) :=
  ⟨fun _ _ => rfl, rfl, fun _ => rfl, nofun, List.nodup_nil⟩

theorem selectable_pattern (key : Text) : Selectable (pattern key) := by
  constructor
  · intro member
    have inText := (List.takeWhile_prefix _).subset member
    exact absurd (List.mem_takeWhile_imp inText) (by decide)
  · intro member
    exact absurd (List.mem_takeWhile_imp member) (by decide)

/-- A name that can be selected is selected by itself. -/
theorem pattern_of_selectable (selectable : Selectable name) : pattern name = name := by
  have whole : name.takeWhile (· ≠ 0) = name :=
    List.takeWhile_eq_self_iff.mpr fun c member =>
      decide_eq_true fun isZero => selectable.1 (isZero ▸ member)
  rw [pattern, whole]
  exact List.takeWhile_eq_self_iff.mpr fun c member =>
    decide_eq_true fun isColon => selectable.2 (isColon ▸ member)

theorem Inv.select (inv : Inv t) (key : Text) :
    select key t.selector = (wanted t key).map Service.node := by
  have same := congrArg List.head? (inv.byName _ (selectable_pattern key))
  rw [List.head?_filter, List.head?_map, List.head?_filter] at same
  rw [PatternServices.select, same, inv.noError, wanted]
  cases t.live.find? fun service => service.name = pattern key with
  | none => rfl
  | some service => rfl

theorem Inv.right (inv : Inv t) : Right t where
  select_eq := inv.select
  getItem_eq id := by
    rw [getItem, inv.items, Option.map_map]
    rfl

theorem eraseName_eq (name : Text) (nodes : List (ListNode α)) :
    eraseName name nodes = nodes.filter fun node => node.name ≠ name := by
  induction nodes with
  | nil => rfl
  | cons node nodes ih =>
      rw [eraseName, ih]
      by_cases same : node.name = name
      · rw [if_pos same, List.filter_cons_of_neg (by simpa using same)]
      · rw [if_neg same, List.filter_cons_of_pos (by simpa using same)]

/-- The new service comes last. -/
theorem Inv.add (inv : Inv t) (call : AddCall α) (small : t.selector.nextId.toNat + 1 < 2 ^ 31) :
    ∃ t', step t (.addItem call) = some t' ∧ Inv t' := by
  have next : (t.selector.nextId + 1).toNat = t.selector.nextId.toNat + 1 := by
    rw [BitVec.toNat_add]
    exact Nat.mod_eq_of_lt (by simp; omega)
  have fresh : ∀ service ∈ t.live, service.id ≠ t.selector.nextId + 1 := by
    intro service live same
    have low := inv.bound service live
    rw [same, next] at low
    omega
  have unused : t.selector.items (t.selector.nextId + 1) = none := by
    rw [inv.items, Option.map_eq_none_iff, List.find?_eq_none]
    exact fun service live => by simpa using fresh service live
  refine ⟨_, rfl, ?_⟩
  constructor
  case byName =>
    intro name selectable
    show (t.selector.availItems ++ [_]).filter _ = _
    rw [List.filter_append, inv.byName name selectable, List.filter_append, List.map_append]
    congr 1
    by_cases same : call.name = name
    · simp [same, Service.listNode]
    · simp [same]
  case noError => exact inv.noError
  case items =>
    intro id
    show insertItem t.selector.items _ _ id = _
    rw [insertItem, unused, if_neg (by simp), List.find?_append]
    by_cases same : id = t.selector.nextId + 1
    · subst same
      have absent : (t.live.find? fun service => service.id = t.selector.nextId + 1) = none :=
        List.find?_eq_none.mpr fun service live => by simpa using fresh service live
      rw [Function.update_self, absent]
      simp [Service.mapNode]
    · rw [Function.update_of_ne same, inv.items]
      cases t.live.find? fun service => service.id = id with
      | some service => rfl
      | none =>
          have other : t.selector.nextId + 1 ≠ id := Ne.symm same
          rw [List.find?_cons_of_neg (by simpa using other)]
          rfl
  case bound =>
    intro service live
    show service.id.toNat ≤ (t.selector.nextId + 1).toNat
    rcases List.mem_append.mp live with old | new
    · have low := inv.bound service old
      omega
    · rw [List.mem_singleton.mp new]
  case distinct =>
    show ((t.live ++ [_]).map Service.id).Nodup
    rw [List.map_append, List.map_singleton, List.nodup_append]
    refine ⟨inv.distinct, List.nodup_singleton _, ?_⟩
    intro id live id' new same
    obtain ⟨service, member, rfl⟩ := List.mem_map.mp live
    exact fresh service member (same.trans (List.mem_singleton.mp new))

/-- A service is removed that is the only one of its name, or that cannot be selected. -/
theorem Inv.remove (inv : Inv t) {serviceId : BitVec 32} (allowed : Allowed t (.removeItem serviceId)) :
    ∃ t', step t (.removeItem serviceId) = some t' ∧ Inv t' := by
  refine ⟨_, rfl, ?_⟩
  cases found : t.live.find? fun service => service.id = serviceId with
  | none =>
      have absent : t.selector.items serviceId = none := by rw [inv.items, found]; rfl
      have all : (t.live.filter fun service => service.id ≠ serviceId) = t.live :=
        List.filter_eq_self.mpr fun service live => by
          simpa using List.find?_eq_none.mp found service live
      have same : (PatternServices.removeItem serviceId t.selector).2 = t.selector := by
        rw [removeItem, absent]
      rw [same, all]
      exact inv
  | some service =>
      have live := List.mem_of_find?_eq_some found
      have isService : service.id = serviceId := by simpa using List.find?_some found
      subst isService
      have present : t.selector.items service.id = some service.mapNode := by rw [inv.items, found]; rfl
      have removed : (PatternServices.removeItem service.id t.selector).2 =
          { t.selector with
            availItems := eraseName service.name t.selector.availItems
            items := Function.update t.selector.items service.id none } := by
        rw [removeItem, present]
        rfl
      rw [removed]
      constructor
      case byName =>
        intro name selectable
        show (eraseName service.name t.selector.availItems).filter _ = _
        rw [eraseName_eq, List.filter_filter, List.filter_filter]
        by_cases same : name = service.name
        · subst same
          have none' : (t.live.filter fun other =>
              decide (other.name = service.name) && decide (other.id ≠ service.id)) = [] :=
            List.filter_eq_nil_iff.mpr fun other live' => by
              simpa using allowed service live rfl selectable other live'
          rw [none', List.filter_eq_nil_iff.mpr fun node _ => by simp]
          rfl
        · have others : ∀ other ∈ t.live, other.name = name → other.id ≠ service.id := by
            intro other live' isName isId
            have isService := List.inj_on_of_nodup_map inv.distinct live' live isId
            exact same (isName ▸ congrArg Service.name isService)
          have nodes : (t.selector.availItems.filter fun node =>
              decide (node.name = name) && decide (node.name ≠ service.name)) =
              t.selector.availItems.filter fun node => node.name = name :=
            List.filter_congr fun node _ => by
              by_cases isName : node.name = name
              · simp [isName, same]
              · simp [isName]
          have services : (t.live.filter fun other =>
              decide (other.name = name) && decide (other.id ≠ service.id)) =
              t.live.filter fun other => other.name = name :=
            List.filter_congr fun other live' => by
              by_cases isName : other.name = name
              · simp [isName, others other live' isName]
              · simp [isName]
          rw [nodes, services, inv.byName name selectable]
      case noError => exact inv.noError
      case items =>
        intro id
        show Function.update t.selector.items service.id none id = _
        rw [List.find?_filter]
        by_cases same : id = service.id
        · subst same
          rw [Function.update_self, eq_comm, Option.map_eq_none_iff, List.find?_eq_none]
          intro other _
          simp
        · rw [Function.update_of_ne same, inv.items]
          congr 2
          funext other
          by_cases isId : other.id = id
          · simp [isId, same]
          · simp [isId]
      case bound =>
        intro other member
        exact inv.bound other (List.mem_of_mem_filter member)
      case distinct => exact inv.distinct.sublist (List.filter_sublist.map _)

/-- If another service has its name, a removal is not right. -/
theorem Inv.not_right {t' : Tracked α} (inv : Inv t) {serviceId : BitVec 32}
    (taken : step t (.removeItem serviceId) = some t') (right : Right t') :
    Allowed t (.removeItem serviceId) := by
  intro service live isService selectable other live' sameName
  by_contra different
  subst isService
  have found : (t.live.find? fun other => other.id = service.id) = some service := by
    cases search : t.live.find? fun other => other.id = service.id with
    | none => exact absurd (decide_eq_true rfl) (List.find?_eq_none.mp search service live)
    | some first =>
        have isId : first.id = service.id := by simpa using List.find?_some search
        exact congrArg some (List.inj_on_of_nodup_map inv.distinct
          (List.mem_of_find?_eq_some search) live isId)
  have present : t.selector.items service.id = some service.mapNode := by rw [inv.items, found]; rfl
  obtain rfl := Option.some.inj taken
  have selected := right.select_eq service.name
  have nothing : PatternServices.select service.name
      (PatternServices.removeItem service.id t.selector).2 = none := by
    rw [removeItem, present]
    show PatternServices.select service.name ⟨_, eraseName service.name t.selector.availItems,
      t.selector.errorItems, t.selector.nextId⟩ = none
    rw [PatternServices.select, pattern_of_selectable selectable, inv.noError]
    have noNode : ((t.selector.availItems.filter fun node => node.name ≠ service.name).find?
        fun node => node.name = service.name) = none :=
      List.find?_eq_none.mpr fun node member => by simpa using (List.mem_filter.mp member).2
    dsimp only
    rw [eraseName_eq, noNode]
    rfl
  rw [nothing, wanted, pattern_of_selectable selectable, eq_comm, Option.map_eq_none_iff,
    List.find?_eq_none] at selected
  exact selected other (List.mem_filter.mpr ⟨live', decide_eq_true different⟩)
    (decide_eq_true sameName)

/-- What is found stays found when something else is filtered out. -/
theorem find?_filter_of_found {β : Type} {p q : β → Bool} {list : List β}
    (kept : ∀ x ∈ list.find? p, q x = true) : (list.filter q).find? p = list.find? p := by
  induction list with
  | nil => rfl
  | cons x list ih =>
      by_cases isFound : p x = true
      · rw [List.find?_cons_of_pos isFound] at kept ⊢
        rw [List.filter_cons_of_pos (kept x rfl), List.find?_cons_of_pos isFound]
      · rw [List.find?_cons_of_neg isFound] at kept ⊢
        by_cases stays : q x = true
        · rw [List.filter_cons_of_pos stays, List.find?_cons_of_neg isFound, ih kept]
        · rw [List.filter_cons_of_neg stays, ih kept]

theorem Inv.step {call : Call α} (inv : Inv t) (allowed : Allowed t call) :
    ∃ t', step t call = some t' ∧ Inv t' := by
  cases call with
  | addItem call => exact inv.add call allowed
  | removeItem serviceId => exact inv.remove allowed

/-- A removal is right exactly if it is allowed. -/
theorem Inv.removal_iff (inv : Inv t) (serviceId : BitVec 32) :
    RightRemoval t serviceId ↔ Allowed t (.removeItem serviceId) := by
  constructor
  · rintro ⟨t', taken, right, -⟩
    exact inv.not_right taken right
  · intro allowed
    obtain ⟨t', taken, inv'⟩ := inv.remove allowed
    refine ⟨t', taken, inv'.right, fun key others => ?_⟩
    obtain rfl := Option.some.inj taken
    rw [inv.select, inv'.select]
    exact congrArg _ (find?_filter_of_found fun service isWanted =>
      decide_eq_true (others service isWanted))

end Invariant

/-! ## All runs -/

section Whole

variable {α : Type}

/-- In every run of allowed calls the keys select the earliest services with their names, the ids find
the live services, and a further removal is right exactly if it is allowed. -/
theorem patternSelector_of_allowed (calls : List (Call α))
    (allowed : Meets step Allowed (Tracked.initial α) calls) :
    ∃ t, exec step (Tracked.initial α) calls = some t ∧ Right t ∧
      ∀ serviceId, RightRemoval t serviceId ↔ Allowed t (.removeItem serviceId) := by
  obtain ⟨t, ran, inv⟩ := exec_progress (fun _ _ inv allowed => inv.step allowed) (inv_initial α) allowed
  exact ⟨t, ran, inv.right, inv.removal_iff⟩

/-- Two services of different names are added, and the first one is removed. -/
theorem patternSelector_of_allowed_two :
    Meets step Allowed (Tracked.initial Nat)
        [.addItem ⟨7, 1, [97]⟩, .addItem ⟨8, 1, [98]⟩, .removeItem 1] ∧
      ∃ t, exec step (Tracked.initial Nat)
        [.addItem ⟨7, 1, [97]⟩, .addItem ⟨8, 1, [98]⟩, .removeItem 1] = some t ∧ Right t := by
  have allowed : Meets step Allowed (Tracked.initial Nat)
      [.addItem ⟨7, 1, [97]⟩, .addItem ⟨8, 1, [98]⟩, .removeItem 1] := by decide
  obtain ⟨t, ran, right, -⟩ := patternSelector_of_allowed _ allowed
  exact ⟨allowed, t, ran, right⟩

/-- Of two services of one name the first is removed; the name selects none any more. -/
theorem shared_name_lost :
    ∃ t, exec step (Tracked.initial Nat)
        [.addItem ⟨7, 1, [97]⟩, .addItem ⟨8, 1, [97]⟩, .removeItem 1] = some t ∧
      t.live = [⟨2, [97], { data := 8 }⟩] ∧ select [97] t.selector = none ∧ ¬ Right t := by
  refine ⟨_, rfl, by decide, by decide, fun right => ?_⟩
  exact absurd (right.select_eq [97]) (by decide)

end Whole

end MlsImgSearch.Blitz.PatternServices
