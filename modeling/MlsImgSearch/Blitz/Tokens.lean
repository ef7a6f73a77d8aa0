import Mathlib.Data.List.Basic
import Mathlib.Data.List.Perm.Basic
import Mathlib.Data.List.Nodup
import Mathlib.Logic.Function.Basic
import MlsImgSearch.Lib.Run

/-!
# Tokens for slots

`TokenMgr` hands out the slots of an array. A token holds the index of a slot in
its high and a salt in its low 16 bits; the salt of a slot changes whenever its
token is given back. The free slots form a list that is threaded through the
array from slot 0 on; its last link points nowhere, and only as many links count
as there are free slots.
-/

namespace MlsImgSearch.Blitz.Tokens

open MlsImgSearch.Lib.Run

/-! ## Tokens -/

structure Token32 where
  token : BitVec 32
  deriving DecidableEq

namespace Token32

def getIndex (t : Token32) : Nat := (t.token >>> 16).toNat

def setIndex (t : Token32) (index : Nat) : Token32 :=
  ⟨t.token &&& 0x0000FFFF#32 ||| BitVec.ofNat 32 index <<< 16⟩

def getSalt (t : Token32) : BitVec 32 := t.token &&& 0xFFFF#32

def setSalt (t : Token32) (salt : BitVec 32) : Token32 :=
  ⟨t.token &&& 0xFFFF0000#32 ||| salt &&& 0xFFFF#32⟩

def newSalt (t : Token32) : Token32 := t.setSalt (t.getSalt + 1)

def getMaxCount : Nat := 65535

theorem toNat_getSalt (t : Token32) : t.getSalt.toNat = t.token.toNat % 65536 := by
  rw [getSalt, BitVec.toNat_and]
  exact Nat.and_two_pow_sub_one_eq_mod t.token.toNat 16

theorem getIndex_eq (t : Token32) : t.getIndex = t.token.toNat / 65536 := by
  rw [getIndex, BitVec.toNat_ushiftRight, Nat.shiftRight_eq_div_pow]

/-- Two tokens with the same index and the same salt are the same. -/
theorem eq_of_parts {t u : Token32} (index : t.getIndex = u.getIndex)
    (salt : t.getSalt.toNat = u.getSalt.toNat) : t = u := by
  obtain ⟨t⟩ := t
  obtain ⟨u⟩ := u
  rw [getIndex_eq, getIndex_eq] at index
  rw [toNat_getSalt, toNat_getSalt] at salt
  dsimp only at index salt
  have same : t = u := by
    apply BitVec.eq_of_toNat_eq
    omega
  rw [same]

theorem and_high (x : BitVec 32) : x &&& 0xFFFF0000#32 = x >>> 16 <<< 16 := by
  have mask : ∀ i < 32, (0xFFFF0000#32).getLsbD i = decide (16 ≤ i) := by decide
  ext i inside
  have bit : (0xFFFF0000#32)[i] = decide (16 ≤ i) := mask i inside
  rw [BitVec.getElem_and, BitVec.getElem_shiftLeft, bit]
  by_cases high : 16 ≤ i
  · simp [high, Nat.not_lt.mpr high, BitVec.getElem_eq_testBit_toNat]
  · simp [high, Nat.lt_of_not_le high]

theorem toNat_setSalt (t : Token32) (salt : BitVec 32) :
    (t.setSalt salt).token.toNat = t.token.toNat / 65536 * 65536 + salt.toNat % 65536 := by
  have low : (salt &&& 0xFFFF#32).toNat = salt.toNat % 2 ^ 16 := by
    rw [BitVec.toNat_and]
    exact Nat.and_two_pow_sub_one_eq_mod salt.toNat 16
  have bound := t.token.isLt
  have high : (t.token &&& 0xFFFF0000#32).toNat = (t.token.toNat / 65536) <<< 16 := by
    rw [and_high, BitVec.toNat_shiftLeft, BitVec.toNat_ushiftRight, Nat.shiftRight_eq_div_pow,
      Nat.shiftLeft_eq, Nat.mod_eq_of_lt (by omega)]
  rw [setSalt, BitVec.toNat_or, low, high,
    ← Nat.shiftLeft_add_eq_or_of_lt (Nat.mod_lt _ (by decide)), Nat.shiftLeft_eq]

theorem newSalt_parts (t : Token32) :
    t.newSalt.getIndex = t.getIndex ∧
      t.newSalt.getSalt.toNat = (t.getSalt.toNat + 1) % 65536 := by
  have salt := toNat_getSalt t
  have value : t.newSalt.token.toNat =
      t.token.toNat / 65536 * 65536 + (t.getSalt.toNat + 1) % 65536 := by
    rw [newSalt, toNat_setSalt, BitVec.toNat_add]
    have one : (1 : BitVec 32).toNat = 1 := rfl
    omega
  constructor
  · rw [getIndex_eq, getIndex_eq, value]
    omega
  · rw [toNat_getSalt, value]
    omega

/-- The first token of a slot. -/
theorem fresh_parts {index : Nat} (small : index < 65536) :
    ((⟨0#32⟩ : Token32).setIndex index).newSalt.getIndex = index ∧
      ((⟨0#32⟩ : Token32).setIndex index).newSalt.getSalt.toNat = 1 := by
  have value : ((⟨0#32⟩ : Token32).setIndex index).token.toNat = index * 65536 := by
    have zero : 0#32 &&& 0x0000FFFF#32 = 0#32 := rfl
    rw [setIndex, zero, BitVec.zero_or, BitVec.toNat_shiftLeft, BitVec.toNat_ofNat,
      Nat.shiftLeft_eq, Nat.mod_eq_of_lt (by omega : index < 2 ^ 32), Nat.mod_eq_of_lt (by omega)]
  obtain ⟨sameIndex, salt⟩ := newSalt_parts ((⟨0#32⟩ : Token32).setIndex index)
  rw [sameIndex, salt, getIndex_eq, toNat_getSalt, value]
  omega

end Token32

/-! ## The manager -/

/-- `data` is `none` once its destructor has been called. -/
structure TokenItem (δ : Type) where
  token : Token32
  data : Option δ
  next : Nat

structure TokenMgr (δ : Type) where
  items : Nat → TokenItem δ
  count : Nat
  freeCount : Nat

namespace TokenMgr

variable {δ : Type}

/-- `none` when the count is refused; `blank` is a default-constructed value. -/
def init (blank : δ) (count : Nat) : Option (TokenMgr δ) :=
  if count = 0 then none
  else if Token32.getMaxCount < count then none
  else some {
    items := fun i => ⟨((⟨0#32⟩ : Token32).setIndex i).newSalt, some blank, i + 1⟩
    count := count, freeCount := count }

def setItem (m : TokenMgr δ) (i : Nat) (item : TokenItem δ) : TokenMgr δ :=
  { m with items := Function.update m.items i item }

def inFreelist (m : TokenMgr δ) (index : Nat) : TokenMgr δ :=
  let m := m.setItem index { m.items index with next := (m.items 0).next }
  let m := m.setItem 0 { m.items 0 with next := index }
  { m with freeCount := m.freeCount + 1 }

/-- The slot that the list starts with. -/
def outFreelist (m : TokenMgr δ) : Nat × TokenMgr δ :=
  let ret := (m.items 0).next
  let m := m.setItem 0 { m.items 0 with next := (m.items ret).next }
  let m := m.setItem ret { m.items ret with next := 0 }
  (ret, { m with freeCount := m.freeCount - 1 })

/-- The outer `none` is an access behind the array, the inner one the return code -1. -/
def alloc (m : TokenMgr δ) : Option (Option Token32 × TokenMgr δ) :=
  if 0 < m.freeCount then
    let (index, m') := m.outFreelist
    if index ≤ m.count then some (some (m'.items index).token, m') else none
  else some (none, m)

def setData (m : TokenMgr δ) (token : Token32) (data : δ) : Int × TokenMgr δ :=
  let index := token.getIndex
  if 0 < index ∧ index ≤ m.count then
    if (m.items index).token.getSalt = token.getSalt then
      (0, m.setItem index { m.items index with data := some data })
    else (2, m)
  else (1, m)

/-- `none` is a null pointer. -/
def getData (m : TokenMgr δ) (token : Token32) : Option (Option δ) :=
  let index := token.getIndex
  if 0 < index ∧ index ≤ m.count then
    if (m.items index).token.getSalt = token.getSalt then some (m.items index).data else none
  else none

def dealloc (m : TokenMgr δ) (token : Token32) : Int × TokenMgr δ :=
  let index := token.getIndex
  if 0 < index ∧ index ≤ m.count then
    if (m.items index).token.getSalt = token.getSalt then
      let m := m.setItem index { m.items index with
        data := none, token := (m.items index).token.newSalt }
      (0, m.inFreelist index)
    else (2, m)
  else (1, m)

/-- The slots that the first `n` links behind slot `i` lead to. -/
def links (next : Nat → Nat) : Nat → Nat → List Nat
  | 0, _ => []
  | n + 1, i => next i :: links next n (next i)

/-- The free slots. -/
def freeSlots (m : TokenMgr δ) : List Nat := links (fun i => (m.items i).next) m.freeCount 0

end TokenMgr

/-! ## Runs -/

inductive Call (δ : Type) where
  | alloc
  | setData (token : Token32) (data : δ)
  | getData (token : Token32)
  | dealloc (token : Token32)

/-- The manager and what its users know: the live tokens, the value that was last set with a live
token, and for a token that was given back how often its slot was given back since. -/
structure Tracked (δ : Type) where
  mgr : TokenMgr δ
  live : List Token32 := []
  value : Token32 → Option δ := fun _ => none
  age : Token32 → Option Nat := fun _ => none

section Steps

variable {δ : Type}

/-- The users' part of an `Alloc` that succeeded. -/
def Tracked.take (t : Tracked δ) (token : Token32) (mgr : TokenMgr δ) : Tracked δ where
  mgr := mgr
  live := token :: t.live
  value := Function.update t.value token none
  age := Function.update t.age token none

/-- The users' part of a `Dealloc` that succeeded. -/
def Tracked.giveBack (t : Tracked δ) (token : Token32) (mgr : TokenMgr δ) : Tracked δ where
  mgr := mgr
  live := t.live.erase token
  value := t.value
  age := fun u =>
    if u = token then some 0
    else if u.getIndex = token.getIndex then (t.age u).map (· + 1)
    else t.age u

def step (t : Tracked δ) : Call δ → Option (Tracked δ)
  | .alloc =>
      t.mgr.alloc.map fun (token, mgr) =>
        match token with
        | none => { t with mgr := mgr }
        | some token => t.take token mgr
  | .setData token data =>
      let mgr := (t.mgr.setData token data).2
      if token ∈ t.live then
        some { t with mgr := mgr, value := Function.update t.value token (some data) }
      else some { t with mgr := mgr }
  | .getData _ => some t
  | .dealloc token =>
      let (code, mgr) := t.mgr.dealloc token
      if code = 0 then some (t.giveBack token mgr) else some { t with mgr := mgr }

/-- `Alloc` returned the token. -/
def Issued (t : Tracked δ) (token : Token32) : Prop := token ∈ t.live ∨ (t.age token).isSome

/-- A call with a token that `Alloc` returned. -/
def Proper (t : Tracked δ) : Call δ → Prop
  | .alloc => True
  | .setData token _ => Issued t token
  | .getData token => Issued t token
  | .dealloc token => Issued t token

/-- A proper call that does not give back a token again after its salt has come round. -/
def Clean (t : Tracked δ) : Call δ → Prop
  | .alloc => True
  | .setData token _ => Issued t token
  | .getData token => Issued t token
  | .dealloc token => Issued t token ∧ ∀ age, t.age token = some age → ¬ 65536 ∣ age + 1

instance (t : Tracked δ) (token : Token32) : Decidable (Issued t token) :=
  inferInstanceAs (Decidable (_ ∨ _))

instance (t : Tracked δ) : (call : Call δ) → Decidable (Clean t call)
  | .alloc => isTrue trivial
  | .setData token _ => inferInstanceAs (Decidable (Issued t token))
  | .getData token => inferInstanceAs (Decidable (Issued t token))
  | .dealloc token =>
      decidable_of_iff (Issued t token ∧ (t.age token).all (fun age => ! decide (65536 ∣ age + 1)))
        (and_congr_right fun _ => by cases t.age token <;> simp)

/-- What the manager promises in one state. -/
structure Safe (t : Tracked δ) : Prop where
  distinct : (t.live.map Token32.getIndex).Nodup
  inRange : ∀ token ∈ t.live, 1 ≤ token.getIndex ∧ token.getIndex ≤ t.mgr.count
  lastSet : ∀ token ∈ t.live, ∀ data, t.value token = some data →
    t.mgr.getData token = some (some data)
  alloc_total : ∃ result, t.mgr.alloc = some result
  full : (∃ mgr, t.mgr.alloc = some (none, mgr)) ↔ t.live.length = t.mgr.count
  freeCount : t.mgr.freeCount + t.live.length = t.mgr.count
  freeDistinct : t.mgr.freeSlots.Nodup
  freeSlots : ∀ i ∈ t.mgr.freeSlots, 1 ≤ i ∧ i ≤ t.mgr.count ∧
    ∀ token ∈ t.live, token.getIndex ≠ i
  stale : ∀ token age, t.age token = some age → ¬ 65536 ∣ age + 1 → ∀ data,
    t.mgr.setData token data = (2, t.mgr) ∧ t.mgr.getData token = none ∧
      t.mgr.dealloc token = (2, t.mgr)

end Steps

/-! ## The invariant -/

section Invariant

variable {δ : Type}

/-- `free` are the free slots, in the order of their links. -/
structure Inv (t : Tracked δ) (free : List Nat) : Prop where
  small : t.mgr.count < 65536
  freeCount : t.mgr.freeCount = free.length
  links : t.mgr.freeSlots = free
  slots : (free ++ t.live.map Token32.getIndex).Perm (List.range' 1 t.mgr.count)
  indices : ∀ i, 1 ≤ i → i ≤ t.mgr.count → (t.mgr.items i).token.getIndex = i
  live : ∀ token ∈ t.live, (t.mgr.items token.getIndex).token = token
  value : ∀ token ∈ t.live, ∀ data, t.value token = some data →
    (t.mgr.items token.getIndex).data = some data
  age : ∀ token age, t.age token = some age → token ∉ t.live ∧
    (1 ≤ token.getIndex ∧ token.getIndex ≤ t.mgr.count) ∧
    (token.getSalt.toNat + (age + 1)) % 65536 =
      (t.mgr.items token.getIndex).token.getSalt.toNat

theorem mem_range (i count : Nat) : i ∈ List.range' 1 count ↔ 1 ≤ i ∧ i ≤ count := by
  rw [List.mem_range'_1]
  omega

variable {t : Tracked δ} {free : List Nat} {token : Token32}

theorem Inv.nodup (inv : Inv t free) : (free ++ t.live.map Token32.getIndex).Nodup :=
  inv.slots.nodup_iff.mpr List.nodup_range'

theorem Inv.mem_free (inv : Inv t free) {i : Nat} (member : i ∈ free) :
    1 ≤ i ∧ i ≤ t.mgr.count ∧ ∀ token ∈ t.live, token.getIndex ≠ i := by
  have inRange := (mem_range i _).mp (inv.slots.mem_iff.mp (List.mem_append_left _ member))
  refine ⟨inRange.1, inRange.2, fun token live same => ?_⟩
  have apart := (List.nodup_append.mp inv.nodup).2.2 i member token.getIndex
    (List.mem_map_of_mem live)
  exact apart same.symm

theorem Inv.inRange (inv : Inv t free) (live : token ∈ t.live) :
    1 ≤ token.getIndex ∧ token.getIndex ≤ t.mgr.count :=
  (mem_range _ _).mp
    (inv.slots.mem_iff.mp (List.mem_append_right _ (List.mem_map_of_mem live)))

theorem Inv.total (inv : Inv t free) : free.length + t.live.length = t.mgr.count := by
  have lengths := inv.slots.length_eq
  rwa [List.length_append, List.length_map, List.length_range'] at lengths

/-- Live tokens of one slot are the same. -/
theorem Inv.live_eq (inv : Inv t free) {u : Token32} (live : token ∈ t.live) (other : u ∈ t.live)
    (same : u.getIndex = token.getIndex) : u = token := by
  rw [← inv.live u other, same, inv.live token live]

/-- A token that was given back has another salt than its slot, until the salt has come round. -/
theorem Inv.stale (inv : Inv t free) {age : Nat} (given : t.age token = some age)
    (early : ¬ 65536 ∣ age + 1) :
    (0 < token.getIndex ∧ token.getIndex ≤ t.mgr.count) ∧
      ¬ (t.mgr.items token.getIndex).token.getSalt = token.getSalt := by
  obtain ⟨_, inRange, salt⟩ := inv.age token age given
  refine ⟨inRange, fun same => early ?_⟩
  rw [same, Token32.toNat_getSalt] at salt
  omega

theorem links_congr {next next' : Nat → Nat} {n i i' : Nat} (head : next' i' = next i)
    (others : ∀ j ∈ TokenMgr.links next n i, next' j = next j) :
    TokenMgr.links next' n i' = TokenMgr.links next n i := by
  induction n generalizing i i' with
  | zero => rfl
  | succ n ih =>
      obtain ⟨first, rest⟩ := List.forall_mem_cons.mp others
      rw [TokenMgr.links, TokenMgr.links, head, ih first rest]

/-- Taking a slot changes links only. -/
theorem outFreelist_spec (m : TokenMgr δ) (apart : (m.items 0).next ≠ 0) :
    m.outFreelist.1 = (m.items 0).next ∧ m.outFreelist.2.count = m.count ∧
      m.outFreelist.2.freeCount = m.freeCount - 1 ∧
      (∀ i, (m.outFreelist.2.items i).token = (m.items i).token ∧
        (m.outFreelist.2.items i).data = (m.items i).data) ∧
      (m.outFreelist.2.items 0).next = (m.items (m.items 0).next).next ∧
      ∀ i, i ≠ 0 → i ≠ (m.items 0).next → (m.outFreelist.2.items i).next = (m.items i).next := by
  unfold TokenMgr.outFreelist TokenMgr.setItem
  dsimp only
  refine ⟨rfl, rfl, rfl, fun i => ?_, ?_, fun i notHead notTaken => ?_⟩
  · by_cases taken : i = (m.items 0).next
    · rw [taken, Function.update_self, Function.update_of_ne apart]
      exact ⟨rfl, rfl⟩
    · rw [Function.update_of_ne taken]
      by_cases head : i = 0
      · rw [head, Function.update_self]
        exact ⟨rfl, rfl⟩
      · rw [Function.update_of_ne head]
        exact ⟨rfl, rfl⟩
  · rw [Function.update_of_ne apart.symm, Function.update_self]
  · rw [Function.update_of_ne notTaken, Function.update_of_ne notHead]

/-- Giving a slot back changes links only. -/
theorem inFreelist_spec (m : TokenMgr δ) {index : Nat} (apart : index ≠ 0) :
    (m.inFreelist index).count = m.count ∧ (m.inFreelist index).freeCount = m.freeCount + 1 ∧
      (∀ i, ((m.inFreelist index).items i).token = (m.items i).token ∧
        ((m.inFreelist index).items i).data = (m.items i).data) ∧
      ((m.inFreelist index).items 0).next = index ∧
      ((m.inFreelist index).items index).next = (m.items 0).next ∧
      ∀ i, i ≠ 0 → i ≠ index → ((m.inFreelist index).items i).next = (m.items i).next := by
  unfold TokenMgr.inFreelist TokenMgr.setItem
  dsimp only
  refine ⟨rfl, rfl, fun i => ?_, ?_, ?_, fun i notHead notGiven => ?_⟩
  · by_cases head : i = 0
    · rw [head, Function.update_self, Function.update_of_ne apart.symm]
      exact ⟨rfl, rfl⟩
    · rw [Function.update_of_ne head]
      by_cases given : i = index
      · rw [given, Function.update_self]
        exact ⟨rfl, rfl⟩
      · rw [Function.update_of_ne given]
        exact ⟨rfl, rfl⟩
  · rw [Function.update_self]
  · rw [Function.update_of_ne apart, Function.update_self]
  · rw [Function.update_of_ne notHead, Function.update_of_ne notGiven]

/-- No slot is left. -/
theorem Inv.alloc_full (inv : Inv t []) : t.mgr.alloc = some (none, t.mgr) := by
  have none' : ¬ 0 < t.mgr.freeCount := by
    rw [inv.freeCount]
    exact Nat.lt_irrefl 0
  rw [TokenMgr.alloc, if_neg none']

/-- The first free slot is taken. -/
theorem Inv.alloc_eq {i : Nat} (inv : Inv t (i :: free)) :
    (t.mgr.items 0).next = i ∧ TokenMgr.links (fun j => (t.mgr.items j).next) free.length i = free ∧
      t.mgr.alloc = some (some (t.mgr.items i).token, t.mgr.outFreelist.2) := by
  have count := inv.freeCount
  have links := inv.links
  rw [TokenMgr.freeSlots, count, List.length_cons, TokenMgr.links] at links
  obtain ⟨head, rest⟩ := List.cons.inj links
  obtain ⟨low, high, _⟩ := inv.mem_free (List.mem_cons_self ..)
  obtain ⟨index, _, _, same, _⟩ := outFreelist_spec t.mgr (by omega)
  refine ⟨head, head ▸ rest, ?_⟩
  rw [List.length_cons] at count
  rw [TokenMgr.alloc, if_pos (by omega)]
  dsimp only
  rw [index, head, if_pos high, (same i).1]

/-- The invariant gives everything that the manager promises. -/
theorem Inv.safe (inv : Inv t free) : Safe t where
  distinct := (List.nodup_append.mp inv.nodup).2.1
  inRange := fun token live => inv.inRange live
  lastSet := by
    intro token live data set
    obtain ⟨low, high⟩ := inv.inRange live
    rw [TokenMgr.getData, if_pos ⟨low, high⟩, if_pos (by rw [inv.live token live]),
      inv.value token live data set]
  alloc_total := by
    cases free with
    | nil => exact ⟨_, inv.alloc_full⟩
    | cons i free => exact ⟨_, inv.alloc_eq.2.2⟩
  full := by
    have total := inv.total
    cases free with
    | nil =>
        rw [List.length_nil] at total
        exact ⟨fun _ => by omega, fun _ => ⟨_, inv.alloc_full⟩⟩
    | cons i free =>
        rw [List.length_cons] at total
        refine ⟨fun ⟨mgr, failed⟩ => ?_, fun all => absurd all (by omega)⟩
        rw [inv.alloc_eq.2.2] at failed
        cases failed
  freeCount := by
    rw [inv.freeCount]
    exact inv.total
  freeDistinct := by
    rw [inv.links]
    exact (List.nodup_append.mp inv.nodup).1
  freeSlots := by
    rw [inv.links]
    exact fun i member => inv.mem_free member
  stale := by
    intro token age given early data
    obtain ⟨inRange, apart⟩ := inv.stale given early
    refine ⟨?_, ?_, ?_⟩
    · rw [TokenMgr.setData, if_pos inRange, if_neg apart]
    · rw [TokenMgr.getData, if_pos inRange, if_neg apart]
    · rw [TokenMgr.dealloc, if_pos inRange, if_neg apart]

/-! ## The steps keep the invariant -/

theorem alloc_inv (inv : Inv t free) : ∃ t' free', step t .alloc = some t' ∧ Inv t' free' := by
  cases free with
  | nil =>
      refine ⟨t, [], ?_, inv⟩
      rw [step, inv.alloc_full]
      rfl
  | cons i free =>
      obtain ⟨head, rest, taken⟩ := inv.alloc_eq
      obtain ⟨low, high, unused⟩ := inv.mem_free (List.mem_cons_self ..)
      obtain ⟨_, count, freeCount, same, first, others⟩ := outFreelist_spec t.mgr (by omega)
      rw [head] at first others
      have ownIndex := inv.indices i low high
      have total := inv.freeCount
      have nodup := inv.nodup
      rw [List.length_cons] at total
      rw [List.cons_append, List.nodup_cons] at nodup
      have left : t.mgr.outFreelist.2.freeCount = free.length := by omega
      refine ⟨t.take (t.mgr.items i).token t.mgr.outFreelist.2, free, ?_, {
        small := count.symm ▸ inv.small, freeCount := left, links := ?_, slots := ?_
        indices := ?_, live := ?_, value := ?_, age := ?_ }⟩
      · rw [step, taken]
        rfl
      · rw [← rest, TokenMgr.freeSlots]
        dsimp only [Tracked.take]
        rw [left]
        refine links_congr first fun j member => ?_
        rw [rest] at member
        have bounds := inv.mem_free (List.mem_cons_of_mem _ member)
        refine others j (by omega) fun same => nodup.1 ?_
        exact List.mem_append_left _ (same ▸ member)
      · show (free ++ (t.mgr.items i).token.getIndex :: t.live.map Token32.getIndex).Perm _
        rw [ownIndex]
        exact (List.perm_middle.trans inv.slots).trans (List.Perm.of_eq (by rw [← count]; rfl))
      · intro k lowK highK
        exact (congrArg _ (same k).1).trans (inv.indices k lowK (Nat.le_trans highK (Nat.le_of_eq count)))
      · intro u member
        rcases List.mem_cons.mp member with rfl | old
        · exact (same _).1.trans (by rw [ownIndex])
        · exact (same _).1.trans (inv.live u old)
      · intro u member data set
        rcases List.mem_cons.mp member with rfl | old
        · dsimp only [Tracked.take] at set
          rw [Function.update_self] at set
          cases set
        · have apart : u ≠ (t.mgr.items i).token := by
            rintro rfl
            exact unused _ old ownIndex
          dsimp only [Tracked.take] at set
          rw [Function.update_of_ne apart] at set
          exact (same _).2.trans (inv.value u old data set)
      · intro u age given
        by_cases isToken : u = (t.mgr.items i).token
        · dsimp only [Tracked.take] at given
          rw [isToken, Function.update_self] at given
          cases given
        · dsimp only [Tracked.take] at given
          rw [Function.update_of_ne isToken] at given
          obtain ⟨notLive, bounds, salt⟩ := inv.age u age given
          refine ⟨fun member => ?_, ⟨bounds.1, Nat.le_trans bounds.2 (Nat.le_of_eq count.symm)⟩, ?_⟩
          · rcases List.mem_cons.mp member with isNew | old
            · exact isToken isNew
            · exact notLive old
          · rw [salt]
            exact congrArg (fun token => token.getSalt.toNat) (same _).1.symm

/-- Only the data of a slot changes. -/
theorem Inv.withData (inv : Inv t free) (index : Nat) (data : Option δ) (value : Token32 → Option δ)
    (known : ∀ token ∈ t.live, ∀ d, value token = some d →
      (if token.getIndex = index then data else (t.mgr.items token.getIndex).data) = some d) :
    Inv { t with
      mgr := t.mgr.setItem index { t.mgr.items index with data := data }, value := value } free := by
  have same : ∀ i, (Function.update t.mgr.items index
        { t.mgr.items index with data := data } i).token = (t.mgr.items i).token ∧
      (Function.update t.mgr.items index
        { t.mgr.items index with data := data } i).next = (t.mgr.items i).next ∧
      (Function.update t.mgr.items index { t.mgr.items index with data := data } i).data =
        if i = index then data else (t.mgr.items i).data := by
    intro i
    by_cases isIndex : i = index
    · rw [isIndex, Function.update_self, if_pos rfl]
      exact ⟨rfl, rfl, rfl⟩
    · rw [Function.update_of_ne isIndex, if_neg isIndex]
      exact ⟨rfl, rfl, rfl⟩
  refine ⟨inv.small, inv.freeCount, ?_, inv.slots, fun i low high => ?_, fun u live => ?_,
    fun u live d set => ?_, fun u age given => ?_⟩
  · exact (links_congr (same 0).2.1 fun j _ => (same j).2.1).trans inv.links
  · exact (congrArg _ (same i).1).trans (inv.indices i low high)
  · exact (same _).1.trans (inv.live u live)
  · exact (same _).2.2.trans (known u live d set)
  · obtain ⟨notLive, bounds, salt⟩ := inv.age u age given
    exact ⟨notLive, bounds, salt.trans
      (congrArg (fun token => token.getSalt.toNat) (same _).1.symm)⟩

theorem setData_inv (inv : Inv t free) (issued : Issued t token) (data : δ) :
    ∃ t', step t (.setData token data) = some t' ∧ Inv t' free := by
  unfold step
  by_cases live : token ∈ t.live
  · obtain ⟨low, high⟩ := inv.inRange live
    have accepted : (t.mgr.setData token data).2 = t.mgr.setItem token.getIndex
        { t.mgr.items token.getIndex with data := some data } := by
      rw [TokenMgr.setData, if_pos ⟨low, high⟩, if_pos (by rw [inv.live token live])]
    dsimp only
    rw [if_pos live, accepted]
    refine ⟨_, rfl, inv.withData _ _ _ fun u other d set => ?_⟩
    by_cases isToken : u = token
    · rw [isToken, Function.update_self] at set
      rw [isToken, if_pos rfl, set]
    · rw [Function.update_of_ne isToken] at set
      rw [if_neg fun same => isToken (inv.live_eq live other same)]
      exact inv.value u other d set
  · dsimp only
    rw [if_neg live]
    refine ⟨_, rfl, ?_⟩
    -- a token that was given back is refused, or its slot is free
    rcases issued with isLive | given
    · exact absurd isLive live
    · obtain ⟨age, given⟩ := Option.isSome_iff_exists.mp given
      obtain ⟨_, ⟨low, high⟩, _⟩ := inv.age token age given
      rw [TokenMgr.setData, if_pos ⟨low, high⟩]
      by_cases accepted : (t.mgr.items token.getIndex).token.getSalt = token.getSalt
      · rw [if_pos accepted]
        refine inv.withData _ _ _ fun u other d set => ?_
        have apart : u.getIndex ≠ token.getIndex := by
          intro same
          have isToken : u = token := by
            refine Token32.eq_of_parts same ?_
            rw [← accepted, ← same, inv.live u other]
          exact live (isToken ▸ other)
        rw [if_neg apart]
        exact inv.value u other d set
      · rw [if_neg accepted]
        exact inv

/-- A live token is given back. -/
theorem dealloc_live (inv : Inv t free) (live : token ∈ t.live) :
    ∃ mgr, t.mgr.dealloc token = (0, mgr) ∧ Inv (t.giveBack token mgr) (token.getIndex :: free) := by
  obtain ⟨low, high⟩ := inv.inRange live
  have own := inv.live token live
  obtain ⟨marked, isMarked⟩ : ∃ marked, marked = t.mgr.setItem token.getIndex
      { t.mgr.items token.getIndex with
        data := none, token := (t.mgr.items token.getIndex).token.newSalt } := ⟨_, rfl⟩
  have markedSelf : (marked.items token.getIndex).token = token.newSalt ∧
      marked.count = t.mgr.count ∧ marked.freeCount = t.mgr.freeCount := by
    rw [isMarked]
    dsimp only [TokenMgr.setItem]
    rw [Function.update_self, own]
    exact ⟨rfl, rfl, rfl⟩
  have markedOther : ∀ i, i ≠ token.getIndex → marked.items i = t.mgr.items i := by
    intro i apart
    rw [isMarked]
    exact Function.update_of_ne apart _ _
  obtain ⟨count, freeCount, same, first, second, others⟩ :=
    inFreelist_spec marked (by omega : token.getIndex ≠ 0)
  rw [markedSelf.2.1] at count
  rw [markedSelf.2.2] at freeCount
  obtain ⟨sameIndex, newSalt⟩ := token.newSalt_parts
  have distinct : t.live.Nodup := (List.nodup_append.mp inv.nodup).2.1.of_map
  -- the other live tokens belong to other slots
  have otherIndex : ∀ u ∈ t.live.erase token, u ∈ t.live ∧ u.getIndex ≠ token.getIndex := by
    intro u member
    obtain ⟨apart, old⟩ := distinct.mem_erase_iff.mp member
    exact ⟨old, fun same => apart (inv.live_eq live old same)⟩
  refine ⟨marked.inFreelist token.getIndex, ?_, {
    small := count.symm ▸ inv.small, freeCount := ?_, links := ?_, slots := ?_
    indices := ?_, live := ?_, value := ?_, age := ?_ }⟩
  · rw [TokenMgr.dealloc, if_pos ⟨low, high⟩, if_pos (by rw [own]), isMarked]
  · show (marked.inFreelist token.getIndex).freeCount = _
    rw [freeCount, inv.freeCount, List.length_cons]
  · rw [TokenMgr.freeSlots]
    dsimp only [Tracked.giveBack]
    rw [freeCount, TokenMgr.links, first]
    refine congrArg (_ :: ·) ?_
    rw [← inv.links]
    refine links_congr (second.trans (by rw [markedOther 0 (by omega)])) fun j member => ?_
    have isFree : j ∈ free := inv.links ▸ member
    obtain ⟨lowJ, _, unused⟩ := inv.mem_free isFree
    have apart : j ≠ token.getIndex := fun same => unused token live same.symm
    rw [others j (by omega) apart, markedOther j apart]
  · have split := (List.perm_cons_erase live).map Token32.getIndex
    show (token.getIndex :: free ++ (t.live.erase token).map Token32.getIndex).Perm _
    have moved : (token.getIndex :: free ++ (t.live.erase token).map Token32.getIndex).Perm
        (free ++ t.live.map Token32.getIndex) :=
      List.perm_middle.symm.trans (split.symm.append_left free)
    exact (moved.trans inv.slots).trans (List.Perm.of_eq (by rw [← count]; rfl))
  · intro k lowK highK
    refine (congrArg _ (same k).1).trans ?_
    have bound : k ≤ t.mgr.count := Nat.le_trans highK (Nat.le_of_eq count)
    by_cases isIndex : k = token.getIndex
    · rw [isIndex, markedSelf.1, sameIndex]
    · rw [markedOther k isIndex]
      exact inv.indices k lowK bound
  · intro u member
    obtain ⟨old, apart⟩ := otherIndex u member
    refine (same _).1.trans ?_
    rw [markedOther _ apart]
    exact inv.live u old
  · intro u member data set
    obtain ⟨old, apart⟩ := otherIndex u member
    refine (same _).2.trans ?_
    rw [markedOther _ apart]
    exact inv.value u old data set
  · intro u age given
    unfold Tracked.giveBack at given
    dsimp only at given
    have salt : ∀ i, ((marked.inFreelist token.getIndex).items i).token.getSalt.toNat =
        (marked.items i).token.getSalt.toNat :=
      fun i => congrArg (fun token => token.getSalt.toNat) (same i).1
    by_cases isToken : u = token
    · rw [if_pos isToken] at given
      obtain rfl := Option.some.inj given
      rw [isToken]
      refine ⟨fun member => (otherIndex token member).2 rfl,
        ⟨low, Nat.le_trans high (Nat.le_of_eq count.symm)⟩, ?_⟩
      show _ = ((marked.inFreelist token.getIndex).items token.getIndex).token.getSalt.toNat
      rw [salt, markedSelf.1, newSalt]
    · rw [if_neg isToken] at given
      by_cases sameSlot : u.getIndex = token.getIndex
      · rw [if_pos sameSlot] at given
        obtain ⟨age', given', rfl⟩ := Option.map_eq_some_iff.mp given
        obtain ⟨notLive, bounds, oldSalt⟩ := inv.age u age' given'
        refine ⟨fun member => notLive (otherIndex u member).1,
          ⟨bounds.1, Nat.le_trans bounds.2 (Nat.le_of_eq count.symm)⟩, ?_⟩
        show _ = ((marked.inFreelist token.getIndex).items u.getIndex).token.getSalt.toNat
        rw [sameSlot, own] at oldSalt
        rw [salt, sameSlot, markedSelf.1, newSalt, ← oldSalt]
        omega
      · rw [if_neg sameSlot] at given
        obtain ⟨notLive, bounds, oldSalt⟩ := inv.age u age given
        refine ⟨fun member => notLive (otherIndex u member).1,
          ⟨bounds.1, Nat.le_trans bounds.2 (Nat.le_of_eq count.symm)⟩, ?_⟩
        show _ = ((marked.inFreelist token.getIndex).items u.getIndex).token.getSalt.toNat
        rw [salt, markedOther _ sameSlot]
        exact oldSalt

theorem step_inv (call : Call δ) (inv : Inv t free) (clean : Clean t call) :
    ∃ t' free', step t call = some t' ∧ Inv t' free' := by
  cases call with
  | alloc => exact alloc_inv inv
  | setData token data =>
      obtain ⟨t', done, inv'⟩ := setData_inv inv clean data
      exact ⟨t', free, done, inv'⟩
  | getData token => exact ⟨t, free, rfl, inv⟩
  | dealloc token =>
      obtain ⟨issued, early⟩ := clean
      rcases issued with live | given
      · obtain ⟨mgr, done, inv'⟩ := dealloc_live inv live
        refine ⟨_, _, ?_, inv'⟩
        rw [step, done]
        rfl
      · obtain ⟨age, given⟩ := Option.isSome_iff_exists.mp given
        obtain ⟨inRange, apart⟩ := inv.stale given (early age given)
        refine ⟨t, free, ?_, inv⟩
        rw [step, TokenMgr.dealloc, if_pos inRange, if_neg apart]
        rfl

theorem links_succ (n i : Nat) : TokenMgr.links (· + 1) n i = List.range' (i + 1) n := by
  induction n generalizing i with
  | zero => rfl
  | succ n ih => rw [TokenMgr.links, ih, List.range'_succ]

theorem init_inv {blank : δ} {count : Nat} {mgr : TokenMgr δ}
    (started : TokenMgr.init blank count = some mgr) :
    Inv { mgr := mgr } (List.range' 1 count) := by
  unfold TokenMgr.init at started
  split at started
  · cases started
  · split at started
    · cases started
    · next bound =>
        obtain rfl := Option.some.inj started
        have small : count < 65536 := Nat.lt_succ_of_le (Nat.not_lt.mp bound)
        refine ⟨small, List.length_range'.symm, links_succ count 0, ?_, fun i _ high => ?_,
          (fun _ member => nomatch member), (fun _ member => nomatch member),
          (fun _ _ given => nomatch given)⟩
        · exact List.Perm.of_eq (List.append_nil _)
        · exact (Token32.fresh_parts (Nat.lt_of_le_of_lt high small)).1

end Invariant

/-- The token of slot 1 with the salt of its `n`th use. -/
def firstSlot (n : Nat) : Token32 := ⟨BitVec.ofNat 32 (65536 + n % 65536)⟩

section Wrap

/-- Slot 1 of a manager with one slot is free and has been given back `n - 1` times; the first token
has not been handed out again. -/
structure Round (n : Nat) (t : Tracked Nat) : Prop where
  count : t.mgr.count = 1
  freeCount : t.mgr.freeCount = 1
  head : (t.mgr.items 0).next = 1
  token : (t.mgr.items 1).token = firstSlot n
  live : t.live = []
  given : (t.age (firstSlot 1)).isSome

theorem firstSlot_parts (n : Nat) :
    (firstSlot n).getIndex = 1 ∧ (firstSlot n).getSalt.toNat = n % 65536 := by
  have value : (firstSlot n).token.toNat = 65536 + n % 65536 := by
    rw [firstSlot, BitVec.toNat_ofNat]
    omega
  rw [Token32.getIndex_eq, Token32.toNat_getSalt, value]
  omega

theorem firstSlot_newSalt (n : Nat) : (firstSlot n).newSalt = firstSlot (n + 1) := by
  obtain ⟨index, salt⟩ := (firstSlot n).newSalt_parts
  obtain ⟨indexN, saltN⟩ := firstSlot_parts n
  obtain ⟨indexS, saltS⟩ := firstSlot_parts (n + 1)
  refine Token32.eq_of_parts (by rw [index, indexN, indexS]) ?_
  rw [salt, saltN, saltS]
  omega

/-- One use of the slot. -/
def useSlot (n : Nat) : List (Call Nat) := [.alloc, .dealloc (firstSlot n)]

/-- The slot is taken and given back once more. -/
theorem Round.next {n : Nat} {t : Tracked Nat} (round : Round n t) (early : n % 65536 ≠ 1) :
    ∃ t', exec step t (useSlot n) = some t' ∧ Meets step Proper t (useSlot n) ∧
      Round (n + 1) t' := by
  obtain ⟨index, count, freeCount, same, _, _⟩ := outFreelist_spec t.mgr (by rw [round.head]; decide)
  rw [round.head] at index
  rw [round.count] at count
  have token : (t.mgr.outFreelist.2.items 1).token = firstSlot n := (same 1).1.trans round.token
  have taken : step t .alloc = some (t.take (firstSlot n) t.mgr.outFreelist.2) := by
    rw [step, TokenMgr.alloc, if_pos (by rw [round.freeCount]; decide)]
    dsimp only
    rw [index, if_pos (Nat.le_of_eq round.count.symm), token]
    rfl
  obtain ⟨marked, isMarked⟩ : ∃ marked, marked = t.mgr.outFreelist.2.setItem 1
      { t.mgr.outFreelist.2.items 1 with
        data := none, token := (t.mgr.outFreelist.2.items 1).token.newSalt } := ⟨_, rfl⟩
  obtain ⟨count', freeCount', same', head, _, _⟩ :=
    inFreelist_spec marked (by decide : (1 : Nat) ≠ 0)
  have accepted : (t.take (firstSlot n) t.mgr.outFreelist.2).mgr.dealloc (firstSlot n) =
      (0, marked.inFreelist 1) := by
    show t.mgr.outFreelist.2.dealloc (firstSlot n) = _
    rw [TokenMgr.dealloc, (firstSlot_parts n).1,
      if_pos ⟨by decide, Nat.le_of_eq count.symm⟩, if_pos (by rw [token]), isMarked]
  have given : step (t.take (firstSlot n) t.mgr.outFreelist.2) (.dealloc (firstSlot n)) =
      some ((t.take (firstSlot n) t.mgr.outFreelist.2).giveBack (firstSlot n)
        (marked.inFreelist 1)) := by
    rw [step, accepted]
    rfl
  have apart : firstSlot 1 ≠ firstSlot n := by
    intro equal
    have salts := congrArg (fun token => token.getSalt.toNat) equal
    rw [(firstSlot_parts 1).2, (firstSlot_parts n).2] at salts
    exact early salts.symm
  have sameIndex : (firstSlot 1).getIndex = (firstSlot n).getIndex :=
    (firstSlot_parts 1).1.trans (firstSlot_parts n).1.symm
  refine ⟨(t.take (firstSlot n) t.mgr.outFreelist.2).giveBack (firstSlot n) (marked.inFreelist 1),
    ?_, ⟨trivial, fun t' first => ?_⟩, {
    count := ?_, freeCount := ?_, head := head, token := ?_, live := ?_, given := ?_ }⟩
  · rw [useSlot, exec, taken, Option.bind_some, exec, given]
    rfl
  · obtain rfl := Option.some.inj (taken.symm.trans first)
    exact ⟨Or.inl (List.mem_cons_self ..), fun _ _ => trivial⟩
  · refine count'.trans ?_
    rw [isMarked]
    exact count
  · refine freeCount'.trans ?_
    rw [isMarked]
    exact congrArg (· + 1) (freeCount.trans (by rw [round.freeCount]))
  · refine (same' 1).1.trans ?_
    rw [isMarked]
    dsimp only [TokenMgr.setItem]
    rw [Function.update_self, token]
    exact firstSlot_newSalt n
  · dsimp only [Tracked.giveBack, Tracked.take]
    rw [round.live, List.erase_cons_head]
  · dsimp only [Tracked.giveBack, Tracked.take]
    rw [if_neg apart, if_pos sameIndex, Option.isSome_map, Function.update_of_ne apart]
    exact round.given

theorem Round.uses {n : Nat} {t : Tracked Nat} (round : Round n t) (low : 2 ≤ n) (k : Nat)
    (high : n + k ≤ 65537) :
    ∃ t', exec step t ((List.range' n k).flatMap useSlot) = some t' ∧
      Meets step Proper t ((List.range' n k).flatMap useSlot) ∧ Round (n + k) t' := by
  induction k generalizing n t with
  | zero => exact ⟨t, rfl, trivial, round⟩
  | succ k ih =>
      obtain ⟨t', first, proper, round'⟩ := round.next (by omega)
      obtain ⟨t'', later, proper', round''⟩ := ih round' (by omega) (by omega)
      rw [List.range'_succ, List.flatMap_cons, exec_append, first]
      refine ⟨t'', later, proper.append first proper', ?_⟩
      rwa [Nat.add_right_comm, Nat.add_assoc] at round''

theorem first_round {mgr : TokenMgr Nat} (started : TokenMgr.init 0 1 = some mgr) :
    ∃ t, exec step { mgr := mgr } (useSlot 1) = some t ∧
      Meets step Proper { mgr := mgr } (useSlot 1) ∧ Round 2 t := by
  obtain rfl := Option.some.inj started
  refine ⟨_, rfl, ⟨trivial, fun t' taken => ?_⟩, ⟨rfl, rfl, rfl, by decide, by decide, by decide⟩⟩
  obtain rfl := Option.some.inj taken
  exact ⟨Or.inl (by decide), fun _ _ => trivial⟩

/-- When the salt has come round, the first token gives the free slot back once more. -/
theorem Round.giveBack_again {t : Tracked Nat} (round : Round 65537 t) :
    ∃ t', step t (.dealloc (firstSlot 1)) = some t' ∧ ¬ Safe t' := by
  have salts : firstSlot 65537 = firstSlot 1 := by decide
  obtain ⟨marked, isMarked⟩ : ∃ marked, marked = t.mgr.setItem 1 { t.mgr.items 1 with
      data := none, token := (t.mgr.items 1).token.newSalt } := ⟨_, rfl⟩
  have accepted : t.mgr.dealloc (firstSlot 1) = (0, marked.inFreelist 1) := by
    rw [TokenMgr.dealloc, (firstSlot_parts 1).1,
      if_pos ⟨by decide, Nat.le_of_eq round.count.symm⟩, if_pos (by rw [round.token, salts]), isMarked]
  obtain ⟨count, freeCount, _⟩ := inFreelist_spec marked (by decide : (1 : Nat) ≠ 0)
  refine ⟨t.giveBack (firstSlot 1) (marked.inFreelist 1), ?_, fun safe => ?_⟩
  · rw [step, accepted]
    rfl
  · have total := safe.freeCount
    dsimp only [Tracked.giveBack] at total
    rw [count, freeCount, isMarked] at total
    dsimp only [TokenMgr.setItem] at total
    rw [round.count, round.freeCount] at total
    omega

/-- One slot is used once and then `k` times more, and its first token is given back again. -/
def wrapCalls (k : Nat) : List (Call Nat) :=
  useSlot 1 ++ (List.range' 2 k).flatMap useSlot ++ [.dealloc (firstSlot 1)]

/-- The number of uses stays a variable here, so that the list of calls is never written out. -/
theorem wrapCalls_unsafe (k : Nat) (round : 2 + k = 65537) :
    ∃ mgr, TokenMgr.init 0 1 = some mgr ∧ Meets step Proper { mgr := mgr } (wrapCalls k) ∧
      ∃ t, exec step { mgr := mgr } (wrapCalls k) = some t ∧ ¬ Safe t := by
  obtain ⟨mgr, started⟩ : ∃ mgr, TokenMgr.init 0 1 = some mgr := ⟨_, rfl⟩
  obtain ⟨t₁, first, proper, round₁⟩ := first_round started
  obtain ⟨t₂, second, proper', round₂⟩ := round₁.uses (Nat.le_refl 2) k (Nat.le_of_eq round)
  rw [round] at round₂
  obtain ⟨t₃, last, notSafe⟩ := round₂.giveBack_again
  have ran : exec step { mgr := mgr } (useSlot 1 ++ (List.range' 2 k).flatMap useSlot) =
      some t₂ := by
    rw [exec_append, first]
    exact second
  refine ⟨mgr, started, ?_, t₃, ?_, notSafe⟩
  · rw [wrapCalls]
    exact (proper.append first proper').append ran ⟨Or.inr round₂.given, fun _ _ => trivial⟩
  · rw [wrapCalls, exec_append, ran, Option.bind_some, exec, last]
    rfl

end Wrap

end MlsImgSearch.Blitz.Tokens
