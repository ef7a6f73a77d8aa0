import Mathlib.Algebra.Order.Ring.Int
import Mathlib.Data.List.Basic
import Mathlib.Logic.Function.Basic
import Mathlib.Tactic.Common

/-!
# Io identifiers and the table of file descriptors

`IoId` packs a file descriptor, its kind and a salt into 64 bits. `FdManager`
is the table of descriptors, one item for each file descriptor.
-/

namespace MlsImgSearch.Blitz

/-! ## Io identifiers -/

namespace IoId

/-- The type tag of file descriptors. -/
def kFd : BitVec 32 := 1

def ioIdFromFd (fd salt : BitVec 32) : BitVec 64 :=
  salt.setWidth 64 <<< 32 ||| fd.signExtend 64 ||| (kFd <<< 24).signExtend 64

def getType (id : BitVec 64) : Nat := ((id >>> 24) &&& 0x0FF#64).toNat

def getFd (id : BitVec 64) : Nat := (id &&& 0x0FFFFFF#64).toNat

def getSalt (id : BitVec 64) : BitVec 32 := (id >>> 32).setWidth 32

def isValid (id : BitVec 64) : Bool := getType id == kFd.toNat

/-- Below `2 ^ 24` the three parts of an identifier do not overlap. -/
theorem toNat_ioIdFromFd {fd : Nat} (small : fd < 2 ^ 24) (salt : BitVec 32) :
    (ioIdFromFd (BitVec.ofNat 32 fd) salt).toNat = salt.toNat * 2 ^ 32 + (2 ^ 24 + fd) := by
  have low : (BitVec.ofNat 32 fd).signExtend 64 = BitVec.ofNat 64 fd := by
    rw [BitVec.signExtend_eq_setWidth_of_msb_false]
    · apply BitVec.eq_of_toNat_eq
      simp only [BitVec.toNat_setWidth, BitVec.toNat_ofNat]
      omega
    · rw [BitVec.msb_eq_decide]
      simp only [BitVec.toNat_ofNat, decide_eq_false_iff_not]
      omega
  have kind : (kFd <<< 24).signExtend 64 = BitVec.ofNat 64 (2 ^ 24) := by decide
  have salted : (salt.setWidth 64 <<< 32).toNat = salt.toNat <<< 32 := by
    have bound := salt.isLt
    rw [BitVec.toNat_shiftLeft, BitVec.toNat_setWidth, Nat.mod_eq_of_lt (by omega),
      Nat.shiftLeft_eq, Nat.mod_eq_of_lt (by omega), Nat.shiftLeft_eq]
  have joined : fd ||| 2 ^ 24 = 2 ^ 24 + fd := by
    have sum := Nat.two_pow_add_eq_or_of_lt small 1
    rw [Nat.mul_one] at sum
    rw [Nat.or_comm, sum]
  rw [ioIdFromFd, low, kind, BitVec.or_assoc, BitVec.toNat_or, BitVec.toNat_or, salted,
    BitVec.toNat_ofNat, BitVec.toNat_ofNat, Nat.mod_eq_of_lt (by omega : fd < 2 ^ 64),
    Nat.mod_eq_of_lt (by omega : 2 ^ 24 < 2 ^ 64), joined,
    ← Nat.shiftLeft_add_eq_or_of_lt (by omega), Nat.shiftLeft_eq]

theorem getFd_ioIdFromFd {fd : Nat} (small : fd < 2 ^ 24) (salt : BitVec 32) :
    getFd (ioIdFromFd (BitVec.ofNat 32 fd) salt) = fd := by
  rw [getFd, BitVec.toNat_and, toNat_ioIdFromFd small]
  have masked := Nat.and_two_pow_sub_one_eq_mod (salt.toNat * 2 ^ 32 + (2 ^ 24 + fd)) 24
  refine masked.trans ?_
  omega

theorem getSalt_ioIdFromFd {fd : Nat} (small : fd < 2 ^ 24) (salt : BitVec 32) :
    getSalt (ioIdFromFd (BitVec.ofNat 32 fd) salt) = salt := by
  apply BitVec.eq_of_toNat_eq
  have bound := salt.isLt
  rw [getSalt, BitVec.toNat_setWidth, BitVec.toNat_ushiftRight, toNat_ioIdFromFd small,
    Nat.shiftRight_eq_div_pow]
  omega

end IoId

/-! ## The table -/

variable {η : Type}

/-- `η` stands for the handler objects; `none` is the null pointer. `ev` and `fnFree` tell
whether these pointers are set. -/
structure FdDescriptor (η : Type) where
  fd : Nat := 0
  ioId : BitVec 64 := 0
  handler : Option η := none
  fnFree : Bool := false
  ev : Bool := false
  deriving DecidableEq

structure Item (η : Type) where
  nextSalt : BitVec 32 := 0
  inUse : Bool := false
  descriptor : FdDescriptor η := {}

structure FdManager (η : Type) where
  maxCount : Nat
  items : Nat → Item η

namespace FdManager

/-- `FdManager::Init`. -/
def init (maxCount : Nat) : FdManager η := ⟨maxCount, fun _ => {}⟩

/-- Replace the item of one file descriptor. -/
def setItem (m : FdManager η) (fd : Nat) (item : Item η) : FdManager η :=
  { m with items := Function.update m.items fd item }

/-- `none` is the null pointer: the caller fills in the descriptor of the item in use. -/
def use (m : FdManager η) (fd : Nat) : Option (FdManager η) :=
  if m.maxCount ≤ fd then none
  else if (m.items fd).inUse then none
  else some (setItem m fd { m.items fd with inUse := true })

def getByIoId (m : FdManager η) (ioId : BitVec 64) : Option (FdDescriptor η) :=
  if m.maxCount ≤ IoId.getFd ioId then none
  else if (m.items (IoId.getFd ioId)).inUse = false then none
  else if (m.items (IoId.getFd ioId)).descriptor.ioId ≠ ioId then none
  else some (m.items (IoId.getFd ioId)).descriptor

/-- The source indexes the array without a check; `none` is an access outside of it. -/
def getFd (m : FdManager η) (fd : Nat) : Option (FdDescriptor η) :=
  if m.maxCount ≤ fd then none else some (m.items fd).descriptor

def freeFd (m : FdManager η) (fd : Nat) : FdManager η :=
  if m.maxCount ≤ fd then m
  else setItem m fd { m.items fd with inUse := false, descriptor := {} }

/-- `none` is an access outside of the array. -/
def nextSalt (m : FdManager η) (fd : Nat) : Option (BitVec 32 × FdManager η) :=
  if m.maxCount ≤ fd then none
  else
    let salt := (m.items fd).nextSalt + 1
    some (salt, setItem m fd { m.items fd with nextSalt := salt })

@[simp]
theorem setItem_maxCount (m : FdManager η) (fd : Nat) (item : Item η) :
    (setItem m fd item).maxCount = m.maxCount := rfl

@[simp]
theorem setItem_self (m : FdManager η) (fd : Nat) (item : Item η) :
    (setItem m fd item).items fd = item := Function.update_self ..

theorem setItem_other (m : FdManager η) {fd other : Nat} (item : Item η) (differs : other ≠ fd) :
    (setItem m fd item).items other = m.items other := Function.update_of_ne differs ..

@[simp]
theorem setItem_setItem (m : FdManager η) (fd : Nat) (first second : Item η) :
    (m.setItem fd first).setItem fd second = m.setItem fd second := by
  simp only [setItem, Function.update_idem]

theorem use_eq_some {m m' : FdManager η} {fd : Nat} (taken : use m fd = some m') :
    fd < m.maxCount ∧ m' = m.setItem fd { m.items fd with inUse := true } := by
  unfold use at taken
  split at taken
  · cases taken
  · next inside =>
      split at taken
      · cases taken
      · exact ⟨Nat.lt_of_not_le inside, (Option.some.inj taken).symm⟩

theorem getByIoId_eq_some {m : FdManager η} {ioId : BitVec 64} {d : FdDescriptor η}
    (found : getByIoId m ioId = some d) :
    IoId.getFd ioId < m.maxCount ∧ (m.items (IoId.getFd ioId)).inUse = true ∧
      d = (m.items (IoId.getFd ioId)).descriptor ∧ d.ioId = ioId := by
  unfold getByIoId at found
  split at found
  · cases found
  · split at found
    · cases found
    · split at found
      · cases found
      · next inside used same =>
          obtain rfl := Option.some.inj found
          exact ⟨Nat.lt_of_not_le inside, eq_true_of_ne_false used, rfl,
            Decidable.of_not_not same⟩

end FdManager

end MlsImgSearch.Blitz
