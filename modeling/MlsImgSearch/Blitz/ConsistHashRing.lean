import Mathlib.Data.List.Pairwise
import MlsImgSearch.Lib.Run
import MlsImgSearch.Blitz.ServiceSelector

/-!
# What consistent hashing promises over whole runs

The abstract state is the list of services that were added successfully and
not removed since. The selector refines it while its vector holds exactly one
entry for each virtual node of each of these services. An `AddItem` that hits
a used hash after its first virtual node returns an error and leaves the
entries it had already inserted behind, so the refinement is proved for the
runs in which that does not happen.
-/

namespace MlsImgSearch.Blitz.ConsistHashRing

open Lib.SortedList Lib.Run ServiceSelector

variable {α : Type}

/-- A service as its caller knows it. -/
structure Service (α : Type) where
  id : BitVec 32
  node : SelectNode α
  hashes : List Hash
  deriving DecidableEq, Repr

/-- One ring entry for each virtual node. -/
def Service.entries (service : Service α) : List (ListNode α) :=
  entriesOf service.node service.hashes

/-- The service that a call describes. -/
def serviceOf (hash : List Char → Hash) (call : AddCall α) (id : BitVec 32) : Service α :=
  ⟨id, call.node, call.hashesFrom hash 0 call.virtualCount.toNat⟩

inductive Call (α : Type) where
  | addItem (call : AddCall α)
  | removeItem (serviceId : BitVec 32)
  deriving DecidableEq, Repr

def Call.isAdd : Call α → Bool
  | .addItem _ => true
  | .removeItem _ => false

/-- The selector together with the services that should be in it. -/
structure Tracked (α : Type) where
  selector : ConsistHashSelector α
  live : List (Service α)

def Tracked.initial (α : Type) : Tracked α := ⟨.initial α, []⟩

/-- One call; a failed or throwing `AddItem` adds no service. -/
def step (hash : List Char → Hash) (t : Tracked α) : Call α → Option (Tracked α)
  | .addItem call =>
      match addItem hash call t.selector with
      | (.added id, s') => some ⟨s', t.live ++ [serviceOf hash call id]⟩
      | (_, s') => some ⟨s', t.live⟩
  | .removeItem serviceId =>
      (removeItem serviceId t.selector).map fun result =>
        ⟨result.2, t.live.filter fun service => decide (service.id ≠ serviceId)⟩

/-- The claim about one state of a run. -/
structure RingSpec [Inhabited α] (hash : List Char → Hash) (t : Tracked α) : Prop where
  ascending : Ascending ListNode.hash t.selector.availItems
  entries : t.selector.availItems.Perm (t.live.flatMap Service.entries)
  select_eq : ∀ key, select hash key t.selector =
    (ringLookup ListNode.hash (hash key) t.selector.availItems).map ListNode.node
  remove_moves : ∀ serviceId, ∃ code s', removeItem serviceId t.selector = some (code, s') ∧
    ∀ key, select hash key s' ≠ select hash key t.selector →
      ∃ service ∈ t.live, service.id = serviceId ∧ ∃ e ∈ service.entries,
        ringLookup ListNode.hash (hash key) t.selector.availItems = some e
  add_moves : ∀ call id s', addItem hash call t.selector = (.added id, s') →
    ∀ key, select hash key s' ≠ select hash key t.selector →
      ∃ e ∈ (serviceOf hash call id).entries,
        ringLookup ListNode.hash (hash key) s'.availItems = some e

/--
An `AddItem` that cannot leave a partial service behind: it throws, it has no
virtual node, it collides with its first virtual node, or it does not collide.
-/
def CleanAdd (hash : List Char → Hash) (s : ConsistHashSelector α) (call : AddCall α) : Prop :=
  call.addr.length < 6 ∨ call.virtualCount ≤ 0 ∨
    (∃ e ∈ s.availItems, e.hash = hash (call.virtualKey 0)) ∨
    ((call.hashesFrom hash 0 call.virtualCount.toNat).Nodup ∧
      ∀ h ∈ call.hashesFrom hash 0 call.virtualCount.toNat, ∀ e ∈ s.availItems, e.hash ≠ h)

/-- The condition on one call; `++next_id_` must also stay inside `int32_t`. -/
def CleanCall (hash : List Char → Hash) (t : Tracked α) : Call α → Prop
  | .addItem call => CleanAdd hash t.selector call ∧ t.selector.nextId.toNat + 1 < 2 ^ 31
  | .removeItem _ => True

/-! ## The refinement invariant -/

/-- The selector represents the live services. -/
structure RingInv (t : Tracked α) : Prop where
  ascending : Ascending ListNode.hash t.selector.availItems
  entries : t.selector.availItems.Perm (t.live.flatMap Service.entries)
  noError : t.selector.errorItems = []
  itemsOf : ∀ id nodes, t.selector.items id = some nodes →
    ∃ service ∈ t.live, service.id = id ∧ nodes = mapNodesOf service.node service.hashes
  itemsLive : ∀ service ∈ t.live, service.hashes ≠ [] →
    t.selector.items service.id = some (mapNodesOf service.node service.hashes)
  idsDistinct : (t.live.map Service.id).Nodup
  idsBound : ∀ service ∈ t.live, service.id.toNat ≤ t.selector.nextId.toNat

theorem RingInv.initial : RingInv (Tracked.initial α) where
  ascending := List.Pairwise.nil
  entries := List.Perm.refl _
  noError := rfl
  itemsOf _ _ found := by cases found
  itemsLive _ member := by cases member
  idsDistinct := List.nodup_nil
  idsBound _ member := by cases member

theorem nodup_hashes {vec : List (ListNode α)} (asc : Ascending ListNode.hash vec) :
    (vec.map ListNode.hash).Nodup :=
  List.pairwise_map.mpr (asc.imp fun less => ne_of_lt less)

theorem map_hash_entries (live : List (Service α)) :
    (live.flatMap Service.entries).map ListNode.hash = live.flatMap Service.hashes := by
  simp [List.map_flatMap, Service.entries, entriesOf, Function.comp_def]

namespace RingInv

variable {t : Tracked α}

theorem hashesDistinct (inv : RingInv t) : (t.live.flatMap Service.hashes).Nodup := by
  rw [← map_hash_entries]
  exact (inv.entries.map _).nodup_iff.mp (nodup_hashes inv.ascending)

theorem service_eq (inv : RingInv t) {first second : Service α} (hf : first ∈ t.live)
    (hs : second ∈ t.live) (same : first.id = second.id) : first = second :=
  List.inj_on_of_nodup_map inv.idsDistinct hf hs same

/-- Different live services share no hash. -/
theorem disjoint (inv : RingInv t) {first second : Service α} (hf : first ∈ t.live)
    (hs : second ∈ t.live) (differ : first ≠ second) : List.Disjoint first.hashes second.hashes := by
  have pairwise := (List.nodup_flatMap.mp inv.hashesDistinct).2
  have symm : Std.Symm (Function.onFun List.Disjoint (Service.hashes (α := α))) :=
    ⟨fun _ _ apart => apart.symm⟩
  exact pairwise.forall hf hs differ

theorem mem_hash (inv : RingInv t) {service : Service α} (live : service ∈ t.live) {h : Hash}
    (own : h ∈ service.hashes) : ∃ e ∈ t.selector.availItems, e.hash = h := by
  refine ⟨⟨h, service.node⟩, inv.entries.mem_iff.mpr (List.mem_flatMap.mpr ⟨service, live, ?_⟩), rfl⟩
  exact List.mem_map.mpr ⟨h, own, rfl⟩

/-- Dropping the hashes of one live service drops exactly that service's entries. -/
theorem filter_entries (inv : RingInv t) {service : Service α} (live : service ∈ t.live) :
    (t.selector.availItems.filter fun e => decide (e.hash ∉ service.hashes)).Perm
      ((t.live.filter fun other => decide (other.id ≠ service.id)).flatMap Service.entries) := by
  refine (inv.entries.filter _).trans (List.Perm.of_eq ?_)
  have pointwise : ∀ other ∈ t.live,
      other.entries.filter (fun e => decide (e.hash ∉ service.hashes)) =
        if other.id ≠ service.id then other.entries else [] := by
    intro other member
    by_cases same : other.id = service.id
    · obtain rfl := inv.service_eq member live same
      rw [if_neg (by simp)]
      refine List.filter_eq_nil_iff.mpr fun e he => ?_
      obtain ⟨h, own, rfl⟩ := List.mem_map.mp he
      simpa using own
    · rw [if_pos same]
      refine List.filter_eq_self.mpr fun e he => ?_
      obtain ⟨h, own, rfl⟩ := List.mem_map.mp he
      have apart := inv.disjoint member live fun eq => same (congrArg Service.id eq)
      simpa using fun shared => apart own shared
  clear inv live
  revert pointwise
  induction t.live with
  | nil => exact fun _ => rfl
  | cons first rest ih =>
      intro pointwise
      have tail := ih fun other member => pointwise other (List.mem_cons_of_mem _ member)
      rw [List.flatMap_cons, List.filter_append, tail, pointwise first (List.mem_cons_self ..)]
      by_cases same : first.id = service.id <;> simp [same]

end RingInv

/-! ## One call -/

/-- What `RemoveItem` does to a selector that represents its services. -/
theorem removeItem_eq {t : Tracked α} (inv : RingInv t) (serviceId : BitVec 32) :
    (∃ service ∈ t.live, service.id = serviceId ∧ removeItem serviceId t.selector =
      some (0, { t.selector with
        items := Function.update t.selector.items serviceId none
        availItems := t.selector.availItems.filter fun e => decide (e.hash ∉ service.hashes) })) ∨
    (removeItem serviceId t.selector = some (1, t.selector) ∧
      ∀ service ∈ t.live, service.id = serviceId → service.hashes = []) := by
  unfold removeItem
  cases found : t.selector.items serviceId with
  | none =>
      refine Or.inr ⟨rfl, fun service live same => ?_⟩
      by_contra nonempty
      have stored := inv.itemsLive service live nonempty
      rw [same, found] at stored
      cases stored
  | some nodes =>
      obtain ⟨service, live, same, rfl⟩ := inv.itemsOf _ _ found
      have distinct : service.hashes.Nodup :=
        (List.nodup_flatMap.mp inv.hashesDistinct).1 service live
      refine Or.inl ⟨service, live, same, ?_⟩
      dsimp only
      rw [removeVirtualNodes_eq _ _ _ inv.ascending distinct fun h own => inv.mem_hash live own]
      rfl

section Steps

variable (hash : List Char → Hash)

/-- `RemoveItem` keeps the refinement and its assertion never fails. -/
theorem removeItem_inv {t : Tracked α} (inv : RingInv t) (serviceId : BitVec 32) :
    ∃ t', step hash t (.removeItem serviceId) = some t' ∧ RingInv t' := by
  rcases removeItem_eq inv serviceId with ⟨service, live, rfl, removed⟩ | ⟨absent, empty⟩
  · refine ⟨⟨{ t.selector with
        items := Function.update t.selector.items service.id none
        availItems := t.selector.availItems.filter fun e => decide (e.hash ∉ service.hashes) },
      t.live.filter fun other => decide (other.id ≠ service.id)⟩, by rw [step, removed]; rfl, ?_⟩
    refine ⟨inv.ascending.sublist List.filter_sublist, inv.filter_entries live, inv.noError,
      ?_, ?_, ?_, ?_⟩
    · intro id nodes found
      dsimp only at found
      by_cases same : id = service.id
      · rw [same, Function.update_self] at found
        cases found
      · rw [Function.update_of_ne same] at found
        obtain ⟨owner, member, rfl, nodesEq⟩ := inv.itemsOf _ _ found
        exact ⟨owner, List.mem_filter.mpr ⟨member, by simpa using same⟩, rfl, nodesEq⟩
    · intro other member nonempty
      obtain ⟨member, differs⟩ := List.mem_filter.mp member
      have differs : other.id ≠ service.id := by simpa using differs
      dsimp only
      rw [Function.update_of_ne differs]
      exact inv.itemsLive other member nonempty
    · exact inv.idsDistinct.sublist (List.filter_sublist.map _)
    · exact fun other member => inv.idsBound other (List.mem_filter.mp member).1
  · refine ⟨_, by rw [step, absent]; rfl, ?_⟩
    have kept : (t.live.filter fun other => decide (other.id ≠ serviceId)).flatMap Service.entries =
        t.live.flatMap Service.entries := by
      clear inv absent
      revert empty
      induction t.live with
      | nil => exact fun _ => rfl
      | cons first rest ih =>
          intro empty
          have tail := ih fun other member => empty other (List.mem_cons_of_mem _ member)
          by_cases same : first.id = serviceId
          · have none' := empty first (List.mem_cons_self ..) same
            simpa [same, Service.entries, none', entriesOf] using tail
          · simpa [same] using tail
    refine ⟨inv.ascending, kept ▸ inv.entries, inv.noError, ?_, ?_, ?_, ?_⟩
    · intro id nodes found
      obtain ⟨owner, member, rfl, nodesEq⟩ := inv.itemsOf _ _ found
      refine ⟨owner, List.mem_filter.mpr ⟨member, ?_⟩, rfl, nodesEq⟩
      have stays : owner.id ≠ serviceId := by
        intro same
        unfold removeItem at absent
        rw [← same, found] at absent
        cases removed : removeVirtualNodes nodes t.selector <;> simp [removed] at absent
      simpa using stays
    · exact fun other member => inv.itemsLive other (List.mem_filter.mp member).1
    · exact inv.idsDistinct.sublist (List.filter_sublist.map _)
    · exact fun other member => inv.idsBound other (List.mem_filter.mp member).1

theorem toNat_add_one {id : BitVec 32} (small : id.toNat + 1 < 2 ^ 31) :
    (id + 1).toNat = id.toNat + 1 := by
  rw [BitVec.toNat_add]
  have : (1 : BitVec 32).toNat = 1 := rfl
  omega

/-- The id about to be given out is not in use. -/
theorem RingInv.freshId {t : Tracked α} (inv : RingInv t)
    (small : t.selector.nextId.toNat + 1 < 2 ^ 31) : t.selector.items (t.selector.nextId + 1) = none := by
  cases found : t.selector.items (t.selector.nextId + 1) with
  | none => rfl
  | some nodes =>
      obtain ⟨owner, member, same, -⟩ := inv.itemsOf _ _ found
      have bound := inv.idsBound owner member
      rw [same, toNat_add_one small] at bound
      omega

/-- Only the id counter moved. -/
theorem RingInv.withNextId {t : Tracked α} (inv : RingInv t)
    (small : t.selector.nextId.toNat + 1 < 2 ^ 31) :
    RingInv { t with selector := { t.selector with nextId := t.selector.nextId + 1 } } :=
  ⟨inv.ascending, inv.entries, inv.noError, inv.itemsOf, inv.itemsLive, inv.idsDistinct,
    fun service member => by
      have bound := inv.idsBound service member
      have next := toNat_add_one small
      dsimp only
      omega⟩

/-- A loop that inserted a whole service keeps the refinement. -/
theorem RingInv.insertService {t : Tracked α} (inv : RingInv t)
    (small : t.selector.nextId.toNat + 1 < 2 ^ 31) (call : AddCall α) {s' : ConsistHashSelector α}
    (inserted : Inserted { t.selector with nextId := t.selector.nextId + 1 } s'
      (t.selector.nextId + 1) call.node (call.hashesFrom hash 0 call.virtualCount.toNat)) :
    RingInv ⟨s', t.live ++ [serviceOf hash call (t.selector.nextId + 1)]⟩ := by
  have fresh := inv.freshId small
  have next := toNat_add_one small
  refine ⟨inserted.ascending, ?_, inserted.errorItems.trans inv.noError, ?_, ?_, ?_, ?_⟩
  · refine inserted.entries.trans ?_
    simpa [serviceOf, Service.entries] using inv.entries.append_right _
  · intro id nodes found
    by_cases same : id = t.selector.nextId + 1
    · subst same
      by_cases empty : call.hashesFrom hash 0 call.virtualCount.toNat = []
      · rw [inserted.same empty] at found
        exact absurd (found.symm.trans fresh) (by simp)
      · rw [inserted.own empty] at found
        dsimp only at found
        rw [fresh] at found
        exact ⟨_, List.mem_append.mpr (Or.inr (List.mem_singleton.mpr rfl)), rfl,
          (Option.some.inj found).symm⟩
    · rw [inserted.others id same] at found
      obtain ⟨owner, member, rest⟩ := inv.itemsOf _ _ found
      exact ⟨owner, List.mem_append.mpr (Or.inl member), rest⟩
  · intro service member nonempty
    rcases List.mem_append.mp member with old | new
    · have bound := inv.idsBound service old
      have differs : service.id ≠ t.selector.nextId + 1 := by
        intro same
        rw [same] at bound
        omega
      rw [inserted.others service.id differs]
      exact inv.itemsLive service old nonempty
    · obtain rfl := List.mem_singleton.mp new
      dsimp only [serviceOf] at nonempty ⊢
      rw [inserted.own nonempty]
      dsimp only
      rw [fresh]
      rfl
  · rw [List.map_append]
    refine List.nodup_append.mpr ⟨inv.idsDistinct, List.nodup_singleton _, ?_⟩
    intro old hold new hnew same
    obtain ⟨service, member, rfl⟩ := List.mem_map.mp hold
    have bound := inv.idsBound service member
    have newEq : new = t.selector.nextId + 1 := by simpa [serviceOf] using hnew
    rw [same, newEq] at bound
    omega
  · intro service member
    dsimp only
    rw [inserted.nextId]
    dsimp only
    rcases List.mem_append.mp member with old | new
    · have bound := inv.idsBound service old
      omega
    · obtain rfl := List.mem_singleton.mp new
      exact Nat.le_refl _

/-- A successful `AddItem` ran its loop to the end. -/
theorem addItem_added {call : AddCall α} {s s' : ConsistHashSelector α} {id : BitVec 32}
    (asc : Ascending ListNode.hash s.availItems) (added : addItem hash call s = (.added id, s')) :
    id = s.nextId + 1 ∧ Inserted { s with nextId := s.nextId + 1 } s' (s.nextId + 1) call.node
      (call.hashesFrom hash 0 call.virtualCount.toNat) := by
  unfold addItem at added
  dsimp only at added
  split at added
  · cases added
  · split at added
    next s'' done =>
      obtain ⟨idEq, rfl⟩ := Prod.mk.inj added
      exact ⟨(AddOutcome.added.inj idEq).symm, addVirtualNodes_inserted hash call _ _ _ _ _ asc done⟩
    next => cases added

/-- A clean `AddItem` either adds its service or changes nothing but the id counter. -/
theorem addItem_clean {t : Tracked α} (inv : RingInv t) {call : AddCall α}
    (clean : CleanAdd hash t.selector call) (small : t.selector.nextId.toNat + 1 < 2 ^ 31) :
    (∃ id s', addItem hash call t.selector = (.added id, s')) ∨
    (∃ outcome, addItem hash call t.selector =
      (outcome, { t.selector with nextId := t.selector.nextId + 1 }) ∧ ∀ id, outcome ≠ .added id) := by
  unfold addItem
  dsimp only
  by_cases short : call.addr.length < 6
  · exact Or.inr ⟨_, if_pos short, by simp⟩
  · rw [if_neg short]
    have succeed (distinct : (call.hashesFrom hash 0 call.virtualCount.toNat).Nodup)
        (fresh : ∀ h ∈ call.hashesFrom hash 0 call.virtualCount.toNat,
          ∀ e ∈ t.selector.availItems, e.hash ≠ h) :
        ∃ s', addVirtualNodes hash call (t.selector.nextId + 1) call.virtualCount.toNat 0
          { t.selector with nextId := t.selector.nextId + 1 } = (0, s') :=
      ⟨_, Prod.ext (addVirtualNodes_succeeds hash call _ _ _ _ inv.ascending
        (fun _ => inv.freshId small) distinct fresh) rfl⟩
    rcases clean with short' | noNodes | ⟨e, member, collides⟩ | ⟨distinct, fresh⟩
    · exact absurd short' short
    · have none' : call.hashesFrom hash 0 call.virtualCount.toNat = [] := by
        rw [Int.toNat_of_nonpos noNodes]
        rfl
      obtain ⟨s', done⟩ := succeed (none' ▸ List.nodup_nil) (by simp [none'])
      exact Or.inl ⟨t.selector.nextId + 1, s', by rw [done]; rfl⟩
    · cases todo : call.virtualCount.toNat with
      | zero => exact Or.inl ⟨_, _, rfl⟩
      | succ todo =>
          have found : (binarySearchVector compareNodeHash
              (⟨hash (call.virtualKey 0), call.node⟩ : ListNode α) t.selector.availItems).2 = true :=
            (binarySearchVector_found inv.ascending).mpr ⟨e, member, collides⟩
          refine Or.inr ⟨.failed 1, ?_, by simp⟩
          unfold addVirtualNodes
          dsimp only
          rw [if_pos found]
          rfl
    · obtain ⟨s', done⟩ := succeed distinct fresh
      exact Or.inl ⟨t.selector.nextId + 1, s', by rw [done]; rfl⟩

theorem addItem_inv {t : Tracked α} (inv : RingInv t) (call : AddCall α)
    (clean : CleanCall hash t (.addItem call)) :
    ∃ t', step hash t (.addItem call) = some t' ∧ RingInv t' := by
  obtain ⟨clean, small⟩ := clean
  rcases addItem_clean hash inv clean small with ⟨id, s', added⟩ | ⟨outcome, rest, notAdded⟩
  · obtain ⟨rfl, inserted⟩ := addItem_added hash inv.ascending added
    exact ⟨_, by rw [step, added], inv.insertService hash small call inserted⟩
  · refine ⟨_, ?_, inv.withNextId small⟩
    rw [step, rest]
    cases outcome with
    | added id => exact absurd rfl (notAdded id)
    | outOfRange => rfl
    | failed code => rfl

theorem step_inv (t : Tracked α) (call : Call α) (inv : RingInv t) (clean : CleanCall hash t call) :
    ∃ t', step hash t call = some t' ∧ RingInv t' := by
  cases call with
  | addItem call => exact addItem_inv hash inv call clean
  | removeItem serviceId => exact removeItem_inv hash inv serviceId

/-- The entry that carries one of a live service's hashes is that service's. -/
theorem RingInv.mem_entries {t : Tracked α} (inv : RingInv t) {service : Service α}
    (live : service ∈ t.live) {e : ListNode α} (member : e ∈ t.selector.availItems)
    (own : e.hash ∈ service.hashes) : e ∈ service.entries := by
  have entry : (⟨e.hash, service.node⟩ : ListNode α) ∈ service.entries :=
    List.mem_map.mpr ⟨e.hash, own, rfl⟩
  have stored : (⟨e.hash, service.node⟩ : ListNode α) ∈ t.selector.availItems :=
    inv.entries.mem_iff.mpr (List.mem_flatMap.mpr ⟨service, live, entry⟩)
  rwa [← inv.ascending.eq_of_key_eq stored member rfl]

/-- Inserted hashes are new, so dropping them again restores the old vector. -/
theorem inserted_filter {s s' : ConsistHashSelector α} {id : BitVec 32} {node : SelectNode α}
    {hashes : List Hash} (inserted : Inserted s s' id node hashes)
    (asc : Ascending ListNode.hash s.availItems) :
    s'.availItems.filter (fun e => decide (e.hash ∉ hashes)) = s.availItems := by
  have distinct : (s.availItems.map ListNode.hash ++ hashes).Nodup := by
    have mapped := (inserted.entries.map ListNode.hash).nodup_iff.mp (nodup_hashes inserted.ascending)
    simpa [entriesOf, Function.comp_def] using mapped
  refine Ascending.ext (inserted.ascending.sublist List.filter_sublist) asc fun e => ?_
  rw [List.mem_filter, inserted.entries.mem_iff, List.mem_append]
  constructor
  · rintro ⟨old | new, foreign⟩
    · exact old
    · obtain ⟨h, own, rfl⟩ := List.mem_map.mp new
      exact absurd own (by simpa using foreign)
  · intro old
    refine ⟨Or.inl old, ?_⟩
    have apart := (List.nodup_append.mp distinct).2.2 e.hash (List.mem_map_of_mem old)
    simpa using fun own => apart e.hash own rfl

/-- If the lookup moved when a part of the ring was dropped, it had found a dropped entry. -/
theorem lookup_dropped {vec : List (ListNode α)} (hashes : List Hash) {bound : Hash}
    (moved : (ringLookup ListNode.hash bound
        (vec.filter fun e => decide (e.hash ∉ hashes))).map ListNode.node ≠
      (ringLookup ListNode.hash bound vec).map ListNode.node) :
    ∃ e ∈ vec, e.hash ∈ hashes ∧ ringLookup ListNode.hash bound vec = some e := by
  cases hit : ringLookup ListNode.hash bound vec with
  | none =>
      have empty : vec = [] := ringLookup_eq_none.mp hit
      simp [empty, ringLookup] at moved
  | some e =>
      refine ⟨e, ringLookup_mem hit, ?_, rfl⟩
      by_contra foreign
      rw [ringLookup_filter _ hit (by simpa using foreign), hit] at moved
      exact moved rfl

/-- The refinement gives everything the ring promises about one state. -/
theorem RingInv.spec [Inhabited α] {t : Tracked α} (inv : RingInv t) : RingSpec hash t where
  ascending := inv.ascending
  entries := inv.entries
  select_eq key := select_eq hash key inv.ascending inv.noError
  remove_moves serviceId := by
    rcases removeItem_eq inv serviceId with ⟨service, live, rfl, removed⟩ | ⟨absent, -⟩
    · refine ⟨0, _, removed, fun key moved => ⟨service, live, rfl, ?_⟩⟩
      have after := select_eq hash key (s := { t.selector with
        items := Function.update t.selector.items service.id none
        availItems := t.selector.availItems.filter fun e => decide (e.hash ∉ service.hashes) })
        (inv.ascending.sublist List.filter_sublist) inv.noError
      rw [after, select_eq hash key inv.ascending inv.noError] at moved
      obtain ⟨e, member, own, hit⟩ := lookup_dropped service.hashes moved
      exact ⟨e, inv.mem_entries live member own, hit⟩
    · exact ⟨1, _, absent, fun key moved => absurd rfl moved⟩
  add_moves call id s' added key moved := by
    obtain ⟨rfl, inserted⟩ := addItem_added hash inv.ascending added
    have noError : s'.errorItems = [] := inserted.errorItems.trans inv.noError
    have before := inserted_filter inserted inv.ascending
    dsimp only at before
    rw [select_eq hash key inserted.ascending noError,
      select_eq hash key inv.ascending inv.noError, ← before] at moved
    obtain ⟨e, member, own, hit⟩ := lookup_dropped _ moved.symm
    refine ⟨e, ?_, hit⟩
    rcases List.mem_append.mp (inserted.entries.mem_iff.mp member) with old | new
    · dsimp only at old
      rw [← before] at old
      exact absurd own (by simpa using (List.mem_filter.mp old).2)
    · exact new

end Steps

end MlsImgSearch.Blitz.ConsistHashRing
