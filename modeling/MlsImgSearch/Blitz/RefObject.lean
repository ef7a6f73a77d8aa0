import Mathlib.Data.Fintype.Option
import MlsImgSearch.Lib.RefCount
import MlsImgSearch.Lib.Run

/-!
# Intrusive reference counts

`RefCountImpl` counts with atomic additions and deletes the object when the counter
reaches zero; `RefCountPtr` calls it in its constructors, assignments and destructor.
Threads take turns between any two accesses of a counter. A pointer object itself is
not protected: while one thread changes it no other one uses it. `SharedPtr` of the
second library is the same code without the atomic additions, for one thread.
-/

namespace MlsImgSearch.Blitz.RefObject

open Lib.RefCount Lib.Run

/-! ## The code -/

/-- What a pointer does behind `Release()`: nothing, `ptr_ = rhs.ptr_` of another pointer, the same
with a `T*` that was read from another pointer before, or `ptr_ = object` without `AddRef`. -/
inductive Rest (ν : Type) where
  | done (x : Option ν)
  | assign (x y : ν)
  | assignRaw (x : ν) (ptr : Option Nat) (y : ν)
  | attach (x : ν) (object : Nat)
  deriving DecidableEq, Repr

/-- Where a thread stands between two accesses to counters. -/
inductive Stage (ν : Type) where
  | idle
  | release (object : Nat) (rest : Rest ν)
  | delete (object : Nat) (rest : Rest ν)
  | store (rest : Rest ν)
  | addRef (object : Nat) (x : Option ν) (y : ν)
  deriving DecidableEq, Repr

/-- What a thread calls. `addRef` and `releaseRaw` are calls of the object's own functions. -/
inductive Op (ν : Type) where
  | createInstance (x : ν)
  | copy (x y : ν)
  | assign (x y : ν)
  | assignRaw (x y : ν)
  | release (x : ν)
  | detach (x : ν)
  | attach (x : ν) (object : Nat)
  | addRef (y : ν)
  | releaseRaw (object : Nat)
  deriving DecidableEq, Repr

/-- The counters of the objects, the `ptr_` of the pointers, and the references that callers hold
without a pointer. `held` says which pointers have a counted reference, `freed` what was deleted. -/
structure State (ν τ : Type) where
  heap : Nat → Option (BitVec 32)
  made : Nat
  ptr : ν → Option Nat
  raw : List Nat
  stage : τ → Stage ν
  held : ν → Option Nat
  freed : List Nat

def initial (ν τ : Type) : State ν τ :=
  ⟨fun _ => none, 0, fun _ => none, [], fun _ => .idle, fun _ => none, []⟩

variable {ν τ : Type} [DecidableEq ν] [DecidableEq τ]

def setStage (s : State ν τ) (t : τ) (stage : Stage ν) : State ν τ :=
  { s with stage := Function.update s.stage t stage }

/-- `if (ptr_) ptr_->AddRef();` -/
def loadStage (ptr : Option Nat) (x y : ν) : Stage ν :=
  match ptr with
  | none => .idle
  | some object => .addRef object (some x) y

/-- `ptr_ = ptr` up to the call of `AddRef`. -/
def load (s : State ν τ) (t : τ) (x : ν) (ptr : Option Nat) (y : ν) : State ν τ :=
  setStage { s with ptr := Function.update s.ptr x ptr } t (loadStage ptr x y)

/-- `Release()` of a pointer up to the call of the object's `Release`. -/
def releasePtr (s : State ν τ) (t : τ) (x : ν) (rest : Rest ν) : State ν τ :=
  match s.ptr x with
  | none => setStage s t (.store rest)
  | some object =>
      setStage { s with held := Function.update s.held x none } t (.release object rest)

/-- The start of a call; no result where an assertion fails or a null pointer is used. -/
def start (s : State ν τ) (t : τ) : Op ν → Option (State ν τ)
  | .createInstance x =>
      if s.ptr x = none then some { s with
        heap := Function.update s.heap s.made (some 1#32)
        made := s.made + 1
        ptr := Function.update s.ptr x (some s.made)
        held := Function.update s.held x (some s.made) }
      else none
  | .copy x y => some (load s t x (s.ptr y) y)
  | .assign x y => if x = y then some s else some (releasePtr s t x (.assign x y))
  | .assignRaw x y => some (releasePtr s t x (.assignRaw x (s.ptr y) y))
  | .release x => some (releasePtr s t x (.done (some x)))
  | .detach x => some { s with
      raw := s.raw ++ (s.ptr x).toList
      ptr := Function.update s.ptr x none
      held := Function.update s.held x none }
  | .attach x object =>
      some (releasePtr { s with raw := s.raw.erase object } t x (.attach x object))
  | .addRef y => (s.ptr y).map fun object => setStage s t (.addRef object none y)
  | .releaseRaw object =>
      some (setStage { s with raw := s.raw.erase object } t (.release object (.done none)))

/-- `ptr_ = NULL` and what the caller of `Release()` does then. -/
def store (s : State ν τ) (t : τ) : Rest ν → State ν τ
  | .done none => setStage s t .idle
  | .done (some x) => setStage { s with ptr := Function.update s.ptr x none } t .idle
  | .assign x y => load s t x (s.ptr y) y
  | .assignRaw x ptr y => load s t x ptr y
  | .attach x object => setStage { s with
      ptr := Function.update s.ptr x (some object)
      held := Function.update s.held x (some object) } t .idle

/-- One access of a thread to a counter; none when the object is not there any more. -/
def go (s : State ν τ) (t : τ) : Option (State ν τ) :=
  match s.stage t with
  | .idle => none
  | .release object rest => (s.heap object).map fun ref =>
      setStage { s with heap := Function.update s.heap object (some (ref - 1#32)) } t
        (if ref - 1#32 = 0#32 then .delete object rest else .store rest)
  | .delete object rest => (s.heap object).map fun _ =>
      setStage { s with
        heap := Function.update s.heap object none
        freed := s.freed ++ [object] } t (.store rest)
  | .store rest => some (store s t rest)
  | .addRef object x _ => (s.heap object).map fun ref =>
      setStage { s with
        heap := Function.update s.heap object (some (ref + 1#32))
        held := x.elim s.held fun x => Function.update s.held x (some object)
        raw := s.raw ++ (if x = none then [object] else []) } t .idle

inductive Label (ν τ : Type) where
  | start (t : τ) (op : Op ν)
  | go (t : τ)
  deriving DecidableEq, Repr

def step (s : State ν τ) : Label ν τ → Option (State ν τ)
  | .start t op => start s t op
  | .go t => go s t

/-! ## Who uses which pointer -/

def Rest.writes : Rest ν → Option ν
  | .done x => x
  | .assign x _ => some x
  | .assignRaw x _ _ => some x
  | .attach x _ => some x

def Rest.reads : Rest ν → Option ν
  | .done _ => none
  | .assign _ y => some y
  | .assignRaw _ _ y => some y
  | .attach _ _ => none

def Stage.writes : Stage ν → Option ν
  | .idle => none
  | .release _ rest => rest.writes
  | .delete _ rest => rest.writes
  | .store rest => rest.writes
  | .addRef _ x _ => x

def Stage.reads : Stage ν → Option ν
  | .idle => none
  | .release _ rest => rest.reads
  | .delete _ rest => rest.reads
  | .store rest => rest.reads
  | .addRef _ _ y => some y

def Op.writes : Op ν → Option ν
  | .createInstance x | .copy x _ | .assign x _ | .assignRaw x _ | .release x | .detach x
  | .attach x _ => some x
  | .addRef _ | .releaseRaw _ => none

def Op.reads : Op ν → Option ν
  | .copy _ y | .assign _ y | .assignRaw _ y | .addRef y => some y
  | .createInstance _ | .release _ | .detach _ | .attach _ _ | .releaseRaw _ => none

/-- What the caller of an operation has to see to by itself. -/
def Op.Fits (s : State ν τ) : Op ν → Prop
  | .createInstance x => s.ptr x = none
  | .copy x y => s.ptr x = none ∧ x ≠ y
  | .assignRaw x y => x ≠ y
  | .attach _ object => object ∈ s.raw
  | .addRef y => s.ptr y ≠ none
  | .releaseRaw object => object ∈ s.raw
  | .assign _ _ | .release _ | .detach _ => True

/-- The counter that is increased next does not overflow. -/
def Stage.HasRoom (s : State ν τ) : Stage ν → Prop
  | .addRef object _ _ => s.heap object ≠ some (BitVec.allOnes 32)
  | .idle | .release _ _ | .delete _ _ | .store _ => True

/-- No pointer is used by a thread while another one changes it, a `T*` that is assigned is not the
pointer's own, only references that are held are given back, and no counter overflows. -/
def Allowed (s : State ν τ) : Label ν τ → Prop
  | .start t op => s.stage t = .idle ∧ op.Fits s ∧
      (∀ x ∈ op.writes, ∀ t', x ∉ (s.stage t').writes ∧ x ∉ (s.stage t').reads) ∧
      (∀ y ∈ op.reads, ∀ t', y ∉ (s.stage t').writes)
  | .go t => s.stage t ≠ .idle ∧ (s.stage t).HasRoom s

instance decidableFits (s : State ν τ) : ∀ op : Op ν, Decidable (op.Fits s)
  | .createInstance x => inferInstanceAs (Decidable (s.ptr x = none))
  | .copy x y => inferInstanceAs (Decidable (s.ptr x = none ∧ x ≠ y))
  | .assignRaw x y => inferInstanceAs (Decidable (x ≠ y))
  | .attach _ object => inferInstanceAs (Decidable (object ∈ s.raw))
  | .addRef y => inferInstanceAs (Decidable (s.ptr y ≠ none))
  | .releaseRaw object => inferInstanceAs (Decidable (object ∈ s.raw))
  | .assign _ _ | .release _ | .detach _ => inferInstanceAs (Decidable True)

instance decidableHasRoom (s : State ν τ) : ∀ g : Stage ν, Decidable (g.HasRoom s)
  | .addRef object _ _ => inferInstanceAs (Decidable (s.heap object ≠ some (BitVec.allOnes 32)))
  | .idle | .release _ _ | .delete _ _ | .store _ => inferInstanceAs (Decidable True)

instance decidableAllowed [Fintype τ] (s : State ν τ) : ∀ label : Label ν τ, Decidable (Allowed s label)
  | .start t op => inferInstanceAs (Decidable (s.stage t = .idle ∧ op.Fits s ∧
      (∀ x ∈ op.writes, ∀ t', x ∉ (s.stage t').writes ∧ x ∉ (s.stage t').reads) ∧
      (∀ y ∈ op.reads, ∀ t', y ∉ (s.stage t').writes)))
  | .go t => inferInstanceAs (Decidable (s.stage t ≠ .idle ∧ (s.stage t).HasRoom s))

/-! ## References -/

/-- A reference that the thread holds itself while it works on its pointer. -/
def Rest.carry : Rest ν → List Nat
  | .attach _ object => [object]
  | .done _ | .assign _ _ | .assignRaw _ _ _ => []

def Stage.carry : Stage ν → List Nat
  | .release object rest => object :: rest.carry
  | .delete _ rest => rest.carry
  | .store rest => rest.carry
  | .idle | .addRef _ _ _ => []

def Stage.deleting : Stage ν → Option Nat
  | .delete object _ => some object
  | .idle | .release _ _ | .store _ | .addRef _ _ _ => none

def Stage.rest : Stage ν → Option (Rest ν)
  | .release _ rest | .delete _ rest | .store rest => some rest
  | .idle | .addRef _ _ _ => none

section Counting

variable [Fintype ν] [Fintype τ]

/-- The references to an object: those of pointers, of callers and of threads at work. -/
def refs (s : State ν τ) (object : Nat) : Nat :=
  total (fun x => (s.held x).toList) object + s.raw.count object +
    total (fun t => (s.stage t).carry) object

omit [Fintype τ] [DecidableEq τ] in
theorem total_held (held : ν → Option Nat) (x : ν) (v : Option Nat) (object : Nat) :
    total (fun x' => (Function.update held x v x').toList) object + (held x).toList.count object =
      total (fun x' => (held x').toList) object + v.toList.count object := by
  have same : (fun x' => (Function.update held x v x').toList) =
      Function.update (fun x' => (held x').toList) x v.toList :=
    Function.comp_update Option.toList held x v
  rw [same, total_update]

omit [Fintype ν] [DecidableEq ν] in
theorem total_carry (stage : τ → Stage ν) (t : τ) (new : Stage ν) (object : Nat) :
    total (fun t' => (Function.update stage t new t').carry) object + (stage t).carry.count object =
      total (fun t' => (stage t').carry) object + new.carry.count object := by
  have same : (fun t' => (Function.update stage t new t').carry) =
      Function.update (fun t' => (stage t').carry) t new.carry :=
    Function.comp_update Stage.carry stage t new
  rw [same, total_update]

omit [Fintype ν] [DecidableEq ν] [Fintype τ] in
theorem deleting_update (stage : τ → Stage ν) (t : τ) (new : Stage ν) :
    (fun t' => (Function.update stage t new t').deleting) =
      Function.update (fun t' => (stage t').deleting) t new.deleting :=
  Function.comp_update Stage.deleting stage t new

omit [Fintype ν] [DecidableEq ν] [Fintype τ] in
/-- A thread that deletes nothing before and after its step. -/
theorem deleting_kept {stage : τ → Stage ν} {t : τ} {new : Stage ν} (before : (stage t).deleting = none)
    (after : new.deleting = none) (t' : τ) :
    (Function.update stage t new t').deleting = (stage t').deleting := by
  rw [congrFun (deleting_update stage t new) t', after, ← before, Function.update_eq_self]

omit [Fintype ν] [DecidableEq ν] in
/-- A thread that has no reference of its own before and after its step. -/
theorem total_carry_kept {stage : τ → Stage ν} {t : τ} {new : Stage ν} (before : (stage t).carry = [])
    (after : new.carry = []) (object : Nat) :
    total (fun t' => (Function.update stage t new t').carry) object =
      total (fun t' => (stage t').carry) object := by
  have count := total_carry stage t new object
  rw [before, after] at count
  exact Nat.add_right_cancel count

theorem count_single (a object : Nat) : [object].count a = if a = object then 1 else 0 := by
  rw [List.count_singleton]
  rcases eq_or_ne a object with rfl | other
  · rw [beq_self_eq_true, if_pos rfl, if_pos rfl]
  · rw [if_neg (by simpa using other.symm), if_neg other]

/-! ## The invariant -/

/-- What a thread relies on in the middle of an operation. -/
structure Stage.Holds (g : Stage ν) (ptr held : ν → Option Nat) : Prop where
  busy : ∀ x ∈ g.writes, held x = none
  loaded : ∀ object x y, g = .addRef object x y →
    ptr y = some object ∧ ∀ x' ∈ x, ptr x' = some object
  saved : ∀ x p y, g.rest = some (.assignRaw x p y) → ptr y = p

structure Inv (s : State ν τ) : Prop where
  acc : Accounted s.heap s.made (refs s) (fun t => (s.stage t).deleting) s.freed
  oneWriter : ∀ t t' x, x ∈ (s.stage t).writes → x ∈ (s.stage t').writes → t = t'
  noReader : ∀ t t' x, x ∈ (s.stage t).writes → x ∉ (s.stage t').reads
  own : ∀ x, (∀ t, x ∉ (s.stage t).writes) → s.held x = s.ptr x
  holds : ∀ t, (s.stage t).Holds s.ptr s.held

omit [Fintype ν] [DecidableEq ν] in
theorem idle_holds (ptr held : ν → Option Nat) : (Stage.idle : Stage ν).Holds ptr held := by
  constructor
  · exact fun _ member => absurd member (by simp [Stage.writes])
  · exact fun _ _ _ same => by cases same
  · exact fun _ _ _ same => by cases same

omit [DecidableEq ν] [DecidableEq τ] in
theorem Inv.initial : Inv (initial ν τ) where
  acc := by
    refine Accounted.start.move (fun a => ?_) fun t => rfl
    have nobody : total (fun _ : ν => (none : Option Nat).toList) a = 0 :=
      total_eq_zero.mpr fun _ => List.not_mem_nil
    have noThread : total (fun _ : τ => (Stage.idle : Stage ν).carry) a = 0 :=
      total_eq_zero.mpr fun _ => List.not_mem_nil
    rw [refs, RefObject.initial, nobody, noThread]
    rfl
  oneWriter _ _ _ member := absurd member (by simp [RefObject.initial, Stage.writes])
  noReader _ _ _ member := absurd member (by simp [RefObject.initial, Stage.writes])
  own _ _ := rfl
  holds _ := idle_holds _ _

variable {s s' : State ν τ} {t : τ} {new : Stage ν} {w r : Option ν}

/-- The pointers that a thread changes and reads are not changed by the others. -/
structure Uses (s : State ν τ) (t : τ) (w r : Option ν) : Prop where
  old : ∀ x ∈ (s.stage t).writes, x ∈ w
  alone : ∀ x ∈ w, ∀ t' ≠ t, x ∉ (s.stage t').writes ∧ x ∉ (s.stage t').reads
  readers : ∀ y ∈ r, ∀ t' ≠ t, y ∉ (s.stage t').writes
  apart : ∀ x ∈ w, x ∉ r

omit [DecidableEq ν] [DecidableEq τ] in
/-- A thread in the middle of an operation. -/
theorem Inv.uses (inv : Inv s) (t : τ) : Uses s t (s.stage t).writes (s.stage t).reads where
  old _ member := member
  alone x member t' differ := ⟨fun member' => differ (inv.oneWriter t' t x member' member),
    inv.noReader t t' x member⟩
  readers y member t' _ member' := inv.noReader t' t y member' member
  apart x member := inv.noReader t t x member

/-- What the others rely on stays when a thread works on a pointer that only it uses. -/
theorem Inv.frame (inv : Inv s) (new : Stage ν) (uses : Uses s t w r)
    (stage : s'.stage = Function.update s.stage t new)
    (writes : ∀ x ∈ new.writes, x ∈ w) (reads : ∀ y ∈ new.reads, y ∈ r)
    (kept : ∀ x, x ∉ w → s'.ptr x = s.ptr x ∧ s'.held x = s.held x)
    (own : ∀ x ∈ w, x ∉ new.writes → s'.held x = s'.ptr x) (holds : new.Holds s'.ptr s'.held)
    (acc : Accounted s'.heap s'.made (refs s') (fun t' => (s'.stage t').deleting) s'.freed) :
    Inv s' := by
  obtain ⟨old, alone, readers, apart⟩ := uses
  have self : s'.stage t = new := by rw [stage, Function.update_self]
  have other : ∀ t' ≠ t, s'.stage t' = s.stage t' := fun t' differ => by
    rw [stage, Function.update_of_ne differ]
  constructor
  · exact acc
  · intro t₁ t₂ x first second
    rcases eq_or_ne t₁ t with rfl | other₁
    · rcases eq_or_ne t₂ t₁ with rfl | other₂
      · rfl
      · rw [self] at first
        rw [other t₂ other₂] at second
        exact absurd second (alone x (writes x first) t₂ other₂).1
    · rw [other t₁ other₁] at first
      rcases eq_or_ne t₂ t with rfl | other₂
      · rw [self] at second
        exact absurd first (alone x (writes x second) t₁ other₁).1
      · rw [other t₂ other₂] at second
        exact inv.oneWriter t₁ t₂ x first second
  · intro t₁ t₂ x first second
    rcases eq_or_ne t₁ t with rfl | other₁
    · rw [self] at first
      rcases eq_or_ne t₂ t₁ with rfl | other₂
      · rw [self] at second
        exact apart x (writes x first) (reads x second)
      · rw [other t₂ other₂] at second
        exact (alone x (writes x first) t₂ other₂).2 second
    · rw [other t₁ other₁] at first
      rcases eq_or_ne t₂ t with rfl | other₂
      · rw [self] at second
        exact readers x (reads x second) t₁ other₁ first
      · rw [other t₂ other₂] at second
        exact inv.noReader t₁ t₂ x first second
  · intro x free
    by_cases used : x ∈ w
    · exact own x used (self ▸ free t)
    · obtain ⟨samePtr, sameHeld⟩ := kept x used
      rw [samePtr, sameHeld]
      refine inv.own x fun t' member => ?_
      rcases eq_or_ne t' t with rfl | differ
      · exact used (old x member)
      · exact free t' (by rw [other t' differ]; exact member)
  · intro t'
    rcases eq_or_ne t' t with rfl | differ
    · rw [self]
      exact holds
    · rw [other t' differ]
      have before := inv.holds t'
      have notRead : ∀ y ∈ (s.stage t').reads, y ∉ w := fun y member used =>
        (alone y used t' differ).2 member
      have notWritten : ∀ x ∈ (s.stage t').writes, x ∉ w := fun x member used =>
        (alone x used t' differ).1 member
      constructor
      · intro x member
        rw [(kept x (notWritten x member)).2]
        exact before.busy x member
      · intro object x y same
        obtain ⟨loaded, target⟩ := before.loaded object x y same
        refine ⟨?_, fun x' member => ?_⟩
        · rw [(kept y (notRead y (by rw [same]; rfl))).1, loaded]
        · rw [(kept x' (notWritten x' (by rw [same]; exact member))).1, target x' member]
      · intro x p y same
        have reading : y ∈ (s.stage t').reads := by
          cases stage' : s.stage t' with
          | idle => rw [stage'] at same; cases same
          | addRef _ _ _ => rw [stage'] at same; cases same
          | release _ rest | delete _ rest | store rest =>
              rw [stage'] at same
              obtain rfl := Option.some.inj same
              rfl
        rw [(kept y (notRead y reading)).1]
        exact before.saved x p y same

/-! ## The parts of an operation -/

/-- Loading a pointer: the reference is counted by the next step. -/
theorem Inv.load (inv : Inv s) {x y : ν} (uses : Uses s t (some x) (some y))
    (carry : (s.stage t).carry = []) (deleting : (s.stage t).deleting = none)
    (empty : s.held x = none) {ptr : Option Nat} (same : s.ptr y = ptr) :
    Inv (load s t x ptr y) := by
  have differ : y ≠ x := fun same' => uses.apart x rfl (congrArg some same')
  refine inv.frame (loadStage ptr x y) uses rfl ?_ ?_ ?_ ?_ ?_ ?_
  · cases ptr with
    | none => exact fun _ member => absurd member (by simp [loadStage, Stage.writes])
    | some object => exact fun _ member => member
  · cases ptr with
    | none => exact fun _ member => absurd member (by simp [loadStage, Stage.reads])
    | some object => exact fun _ member => member
  · intro x' other
    refine ⟨Function.update_of_ne ?_ .., rfl⟩
    rintro rfl
    exact other rfl
  · intro x' used free
    obtain rfl : x = x' := Option.some.inj used
    cases ptr with
    | none => exact empty.trans (Function.update_self x none s.ptr).symm
    | some object => exact absurd rfl free
  · cases ptr with
    | none => exact idle_holds _ _
    | some object =>
        constructor
        · intro x' member
          obtain rfl : x = x' := Option.some.inj member
          exact empty
        · intro object' x' y' same'
          obtain ⟨rfl, rfl, rfl⟩ := Stage.addRef.inj same'
          refine ⟨(Function.update_of_ne differ ..).trans same, fun x'' member => ?_⟩
          obtain rfl : x = x'' := Option.some.inj member
          exact Function.update_self ..
        · exact fun _ _ _ same' => absurd same' (by simp [loadStage, Stage.rest])
  · have noCarry : (loadStage ptr x y).carry = [] := by cases ptr <;> rfl
    have noDelete : (loadStage ptr x y).deleting = none := by cases ptr <;> rfl
    exact inv.acc.move (fun object => congrArg (_ + ·) (total_carry_kept carry noCarry object))
      (deleting_kept deleting noDelete)

/-- Releasing what a pointer holds; a reference of the caller may be taken along. -/
theorem Inv.releasePtr (inv : Inv s) {x : ν} {rest : Rest ν} (uses : Uses s t (some x) rest.reads)
    (idle : s.stage t = .idle) (writes : rest.writes = some x) (free : s.held x = s.ptr x)
    (saved : ∀ x p y, rest = .assignRaw x p y → s.ptr y = p) {raw : List Nat}
    (taken : ∀ object, raw.count object + rest.carry.count object = s.raw.count object) :
    Inv (releasePtr { s with raw := raw } t x rest) := by
  have carry : (s.stage t).carry = [] := by rw [idle]; rfl
  have notDeleting : (s.stage t).deleting = none := by rw [idle]; rfl
  have noRaw : ∀ g : Stage ν, g.rest = some rest → ∀ x p y,
      g.rest = some (.assignRaw x p y) → s.ptr y = p := fun g same x p y same' =>
    saved x p y (Option.some.inj (same.symm.trans same'))
  unfold RefObject.releasePtr
  dsimp only
  cases ptr : s.ptr x with
  | none =>
      refine inv.frame (.store rest) uses rfl ?_ ?_ (fun _ _ => ⟨rfl, rfl⟩) ?_ ?_ ?_
      · exact fun x' member => writes ▸ member
      · exact fun y member => member
      · exact fun x' used notWritten => absurd (writes.trans used) notWritten
      · constructor
        · intro x' member
          obtain rfl : x = x' := Option.some.inj (writes.symm.trans member)
          exact free.trans ptr
        · exact fun _ _ _ same => by cases same
        · exact noRaw _ rfl
      · refine inv.acc.move (fun object => ?_) (deleting_kept notDeleting rfl)
        have count := total_carry s.stage t (.store rest) object
        rw [carry, List.count_nil, Nat.add_zero] at count
        have part := taken object
        simp only [refs, setStage]
        rw [count, Stage.carry]
        omega
  | some object =>
      refine inv.frame (.release object rest) uses rfl ?_ ?_ ?_ ?_ ?_ ?_
      · exact fun x' member => writes ▸ member
      · exact fun y member => member
      · intro x' other
        refine ⟨rfl, Function.update_of_ne ?_ ..⟩
        rintro rfl
        exact other rfl
      · exact fun x' used notWritten => absurd (writes.trans used) notWritten
      · constructor
        · intro x' member
          obtain rfl : x = x' := Option.some.inj (writes.symm.trans member)
          exact Function.update_self ..
        · exact fun _ _ _ same => by cases same
        · exact noRaw _ rfl
      · refine inv.acc.move (fun a => ?_) (deleting_kept notDeleting rfl)
        have count := total_carry s.stage t (.release object rest) a
        have held := total_held s.held x none a
        rw [carry, List.count_nil, Nat.add_zero, Stage.carry, List.count_cons] at count
        rw [free, ptr, Option.toList_some, Option.toList_none, List.count_nil, List.count_singleton,
          Nat.add_zero] at held
        have part := taken a
        simp only [refs, setStage]
        omega

theorem count_erase_single {raw : List Nat} {object : Nat} (member : object ∈ raw) (a : Nat) :
    (raw.erase object).count a + [object].count a = raw.count a := by
  rw [← List.count_append]
  exact ((List.perm_append_singleton object _).trans (List.perm_cons_erase member).symm).count_eq a

omit [Fintype ν] [DecidableEq ν] in
theorem distinct_of_ne {x y : ν} (differ : x ≠ y) : ∀ x' ∈ some x, x' ∉ some y := by
  intro x' member same
  exact differ ((Option.some.inj member).trans (Option.some.inj same).symm)

/-- The start of an operation. -/
theorem start_spec (inv : Inv s) {op : Op ν} (allowed : Allowed s (.start t op)) :
    ∃ s', start s t op = some s' ∧ Inv s' := by
  obtain ⟨idle, fits, writers, readers⟩ := allowed
  have none' : (s.stage t).writes = none := by rw [idle]; rfl
  have carry : (s.stage t).carry = [] := by rw [idle]; rfl
  have deleting : (s.stage t).deleting = none := by rw [idle]; rfl
  have old : ∀ w : Option ν, ∀ x ∈ (s.stage t).writes, x ∈ w := fun _ x member => by
    rw [none'] at member
    cases member
  have uses (distinct : ∀ x ∈ op.writes, x ∉ op.reads) : Uses s t op.writes op.reads :=
    ⟨old _, fun x member t' _ => writers x member t', fun y member t' _ => readers y member t', distinct⟩
  have free : ∀ x ∈ op.writes, s.held x = s.ptr x := fun x member =>
    inv.own x fun t' => (writers x member t').1
  have same : s.stage = Function.update s.stage t .idle := by rw [← idle, Function.update_eq_self]
  cases op with
  | createInstance x =>
      have empty : s.ptr x = none := fits
      have held := (free x rfl).trans empty
      refine ⟨_, if_pos empty, ?_⟩
      refine inv.frame .idle (uses fun _ _ => by simp [Op.reads]) same ?_ ?_ ?_ ?_
        (idle_holds _ _) ?_
      · exact fun _ member => absurd member (by simp [Stage.writes])
      · exact fun _ member => absurd member (by simp [Stage.reads])
      · intro x' other
        have differ : x' ≠ x := fun same' => other (congrArg some same'.symm)
        exact ⟨Function.update_of_ne differ .., Function.update_of_ne differ ..⟩
      · intro x' used _
        obtain rfl : x = x' := Option.some.inj used
        exact (Function.update_self x (some s.made) s.held).trans
          (Function.update_self x (some s.made) s.ptr).symm
      · refine (inv.acc.create rfl).move (fun a => ?_) fun _ => rfl
        have count := total_held s.held x (some s.made) a
        rw [held, Option.toList_none, List.count_nil, Nat.add_zero, Option.toList_some,
          count_single] at count
        have fresh := inv.acc.refs_fresh
        rw [Function.update_apply]
        simp only [refs] at fresh ⊢
        rw [count]
        rcases eq_or_ne a s.made with rfl | other
        · rw [if_pos rfl, if_pos rfl]
          omega
        · rw [if_neg other, if_neg other]
          omega
  | copy x y =>
      have differ : x ≠ y := fits.2
      exact ⟨_, rfl, inv.load (uses (distinct_of_ne differ)) carry deleting ((free x rfl).trans fits.1)
        rfl⟩
  | assign x y =>
      unfold start
      dsimp only
      rcases eq_or_ne x y with rfl | differ
      · rw [if_pos rfl]
        exact ⟨s, rfl, inv⟩
      · rw [if_neg differ]
        refine ⟨_, rfl, inv.releasePtr (uses (distinct_of_ne differ)) idle rfl (free x rfl) ?_
          fun _ => rfl⟩
        exact fun _ _ _ same' => by cases same'
  | assignRaw x y =>
      have differ : x ≠ y := fits
      refine ⟨_, rfl, inv.releasePtr (uses (distinct_of_ne differ)) idle rfl (free x rfl) ?_
        fun _ => rfl⟩
      intro x' p y' same'
      obtain ⟨_, rfl, rfl⟩ := Rest.assignRaw.inj same'
      rfl
  | release x =>
      refine ⟨_, rfl, inv.releasePtr (uses fun _ _ => by simp [Op.reads]) idle rfl (free x rfl) ?_
        fun _ => rfl⟩
      exact fun _ _ _ same' => by cases same'
  | detach x =>
      refine ⟨_, rfl, ?_⟩
      refine inv.frame .idle (uses fun _ _ => by simp [Op.reads]) same ?_ ?_ ?_ ?_
        (idle_holds _ _) ?_
      · exact fun _ member => absurd member (by simp [Stage.writes])
      · exact fun _ member => absurd member (by simp [Stage.reads])
      · intro x' other
        have differ : x' ≠ x := fun same' => other (congrArg some same'.symm)
        exact ⟨Function.update_of_ne differ .., Function.update_of_ne differ ..⟩
      · intro x' used _
        obtain rfl : x = x' := Option.some.inj used
        exact (Function.update_self x none s.held).trans (Function.update_self x none s.ptr).symm
      · refine inv.acc.move (fun a => ?_) fun _ => rfl
        have count := total_held s.held x none a
        rw [free x rfl, Option.toList_none, List.count_nil, Nat.add_zero] at count
        simp only [refs, List.count_append]
        omega
  | attach x object =>
      have member : object ∈ s.raw := fits
      refine ⟨_, rfl, inv.releasePtr (uses fun _ _ => by simp [Op.reads]) idle rfl (free x rfl) ?_
        fun a => ?_⟩
      · exact fun _ _ _ same' => by cases same'
      · exact count_erase_single member a
  | addRef y =>
      obtain ⟨object, ptr⟩ := Option.ne_none_iff_exists'.mp (show s.ptr y ≠ none from fits)
      refine ⟨setStage s t (.addRef object none y), by rw [start, ptr]; rfl, ?_⟩
      refine inv.frame (.addRef object none y) (uses fun _ member => by cases member) rfl ?_ ?_
        (fun _ _ => ⟨rfl, rfl⟩) ?_ ?_ ?_
      · exact fun _ member => absurd member (by simp [Stage.writes])
      · exact fun _ member => member
      · exact fun _ member => absurd member (by simp [Op.writes])
      · constructor
        · exact fun _ member => absurd member (by simp [Stage.writes])
        · intro object' x' y' same'
          obtain ⟨rfl, rfl, rfl⟩ := Stage.addRef.inj same'
          exact ⟨ptr, fun _ member => absurd member (by simp)⟩
        · exact fun _ _ _ same' => by cases same'
      · exact inv.acc.move (fun a => congrArg (_ + ·) (total_carry_kept carry rfl a))
          (deleting_kept deleting rfl)
  | releaseRaw object =>
      have member : object ∈ s.raw := fits
      refine ⟨_, rfl, ?_⟩
      refine inv.frame (.release object (.done none)) (uses fun _ member => by cases member) rfl
        ?_ ?_ (fun _ _ => ⟨rfl, rfl⟩) ?_ ?_ ?_
      · exact fun _ member => absurd member (by simp [Stage.writes, Rest.writes])
      · exact fun _ member => absurd member (by simp [Stage.reads, Rest.reads])
      · exact fun _ member => absurd member (by simp [Op.writes])
      · constructor
        · exact fun _ member => absurd member (by simp [Stage.writes, Rest.writes])
        · exact fun _ _ _ same' => by cases same'
        · exact fun _ _ _ same' => by cases same'
      · refine inv.acc.move (fun a => ?_) (deleting_kept deleting rfl)
        have count := total_carry s.stage t (.release object (.done none)) a
        have taken := count_erase_single member a
        have single : (Stage.release object (.done none) : Stage ν).carry = [object] := rfl
        rw [carry, single, List.count_nil, Nat.add_zero] at count
        simp only [refs, setStage]
        omega

/-- One access to a counter. -/
theorem go_spec (inv : Inv s) (allowed : Allowed s (.go t)) : ∃ s', go s t = some s' ∧ Inv s' := by
  obtain ⟨busy, room⟩ := allowed
  have uses := inv.uses t
  have before := inv.holds t
  unfold go
  cases stage : s.stage t with
  | idle => exact absurd stage busy
  | release object rest =>
      rw [stage] at uses before
      have carry : (s.stage t).carry = object :: rest.carry := by rw [stage]; rfl
      have positive : 0 < refs s object := by
        have part := count_le_total (fun t' => (s.stage t').carry) t object
        rw [carry, List.count_cons_self] at part
        simp only [refs]
        omega
      obtain ⟨c, found⟩ := inv.acc.alive object positive
      have notDeleting : (s.stage t).deleting = none := by rw [stage]; rfl
      dsimp only
      rw [found, Option.map_some]
      refine ⟨_, rfl, ?_⟩
      have writes : (if c - 1#32 = 0#32 then Stage.delete object rest else .store rest).writes =
          rest.writes := by split <;> rfl
      have reads : (if c - 1#32 = 0#32 then Stage.delete object rest else .store rest).reads =
          rest.reads := by split <;> rfl
      have carry' : (if c - 1#32 = 0#32 then Stage.delete object rest else .store rest).carry =
          rest.carry := by split <;> rfl
      have deleting' : (if c - 1#32 = 0#32 then Stage.delete object rest else .store rest).deleting =
          if c - 1#32 = 0#32 then some object else none := by split <;> rfl
      have rest' : (if c - 1#32 = 0#32 then Stage.delete object rest else .store rest).rest =
          some rest := by split <;> rfl
      have noLoad : ∀ o x y, (if c - 1#32 = 0#32 then Stage.delete object rest else .store rest) ≠
          .addRef o x y := by intro o x y; split <;> simp
      refine inv.frame (if c - 1#32 = 0#32 then .delete object rest else .store rest) uses rfl
        ?_ ?_ (fun _ _ => ⟨rfl, rfl⟩) ?_ ?_ ?_
      · rw [writes]
        exact fun _ member => member
      · rw [reads]
        exact fun _ member => member
      · rw [writes]
        exact fun x used free => absurd used free
      · constructor
        · rw [writes]
          exact before.busy
        · exact fun o x y same => absurd same (noLoad o x y)
        · rw [rest']
          exact before.saved
      · refine (inv.acc.release found positive notDeleting).move (fun a => ?_) fun t' => ?_
        · have count := total_carry s.stage t
            (if c - 1#32 = 0#32 then Stage.delete object rest else .store rest) a
          rw [carry, carry', ← List.singleton_append, List.count_append, count_single] at count
          rw [Function.update_apply]
          simp only [refs, setStage] at positive ⊢
          rcases eq_or_ne a object with rfl | other
          · rw [if_pos rfl] at count ⊢
            omega
          · rw [if_neg other] at count ⊢
            omega
        · rw [← deleting']
          exact congrFun (deleting_update s.stage t _) t'
  | delete object rest =>
      rw [stage] at uses before
      have deleting : (s.stage t).deleting = some object := by rw [stage]; rfl
      obtain ⟨_, c, found⟩ := inv.acc.dying t object deleting
      dsimp only
      rw [found, Option.map_some]
      refine ⟨_, rfl, ?_⟩
      refine inv.frame (.store rest) uses rfl (fun _ member => member) (fun _ member => member)
        (fun _ _ => ⟨rfl, rfl⟩) (fun x used free => absurd used free) ?_ ?_
      · constructor
        · exact before.busy
        · exact fun o x y same => by cases same
        · exact before.saved
      · refine (inv.acc.delete deleting).move (fun a => ?_) fun t' => ?_
        · have count := total_carry s.stage t (.store rest) a
          rw [stage] at count
          have same := Nat.add_right_cancel count
          simp only [refs, setStage]
          rw [same]
        · exact congrFun (deleting_update s.stage t _) t'
  | store rest =>
      rw [stage] at uses before
      have notDeleting : (s.stage t).deleting = none := by rw [stage]; rfl
      refine ⟨_, rfl, ?_⟩
      have toIdle : ∀ t', (Function.update s.stage t .idle t').deleting = (s.stage t').deleting :=
        deleting_kept notDeleting rfl
      cases rest with
      | done x =>
          have same : ∀ a, total (fun t' => (Function.update s.stage t .idle t').carry) a =
              total (fun t' => (s.stage t').carry) a := total_carry_kept (by rw [stage]; rfl) rfl
          cases x with
          | none =>
              refine inv.frame .idle uses rfl (fun _ member => by cases member)
                (fun _ member => by cases member) (fun _ _ => ⟨rfl, rfl⟩)
                (fun _ used => by cases used) (idle_holds _ _) ?_
              refine inv.acc.move (fun a => ?_) toIdle
              simp only [refs, store, setStage]
              rw [same]
          | some x =>
              refine inv.frame .idle uses rfl (fun _ member => by cases member)
                (fun _ member => by cases member) ?_ ?_ (idle_holds _ _) ?_
              · intro x' other
                exact ⟨Function.update_of_ne (fun same' => other (congrArg some same'.symm)) .., rfl⟩
              · intro x' used _
                obtain rfl : x = x' := Option.some.inj used
                exact (before.busy x rfl).trans (Function.update_self x none s.ptr).symm
              · refine inv.acc.move (fun a => ?_) toIdle
                simp only [refs, store, setStage]
                rw [same]
      | assign x y =>
          exact inv.load uses (by rw [stage]; rfl) notDeleting
            (before.busy x rfl) rfl
      | assignRaw x p y =>
          exact inv.load uses (by rw [stage]; rfl) notDeleting
            (before.busy x rfl) (before.saved x p y rfl)
      | attach x object =>
          refine inv.frame .idle uses rfl (fun _ member => by cases member)
            (fun _ member => by cases member) ?_ ?_ (idle_holds _ _) ?_
          · intro x' other
            have differ : x' ≠ x := fun same' => other (congrArg some same'.symm)
            exact ⟨Function.update_of_ne differ .., Function.update_of_ne differ ..⟩
          · intro x' used _
            obtain rfl : x = x' := Option.some.inj used
            exact (Function.update_self x (some object) s.held).trans
              (Function.update_self x (some object) s.ptr).symm
          · refine inv.acc.move (fun a => ?_) toIdle
            have count := total_carry s.stage t .idle a
            have held := total_held s.held x (some object) a
            have nothing : (Stage.idle : Stage ν).carry = [] := rfl
            have single : (s.stage t).carry = [object] := by rw [stage]; rfl
            rw [nothing, single, List.count_nil, Nat.add_zero] at count
            rw [before.busy x rfl, Option.toList_none, List.count_nil, Nat.add_zero,
              Option.toList_some] at held
            simp only [refs, store, setStage]
            omega
  | addRef object x y =>
      rw [stage] at uses before
      obtain ⟨ptr, target⟩ := before.loaded object x y rfl
      have notDeleting : (s.stage t).deleting = none := by rw [stage]; rfl
      have held : s.held y = some object :=
        (inv.own y fun t' member => inv.noReader t' t y member (by rw [stage]; rfl)).trans ptr
      have positive : 0 < refs s object := by
        have part := count_le_total (fun y => (s.held y).toList) y object
        rw [held, Option.toList_some, List.count_singleton_self] at part
        simp only [refs]
        omega
      obtain ⟨c, found⟩ := inv.acc.alive object positive
      have hasRoom : s.heap object ≠ some (BitVec.allOnes 32) := by
        rw [stage] at room
        exact room
      have small : c ≠ BitVec.allOnes 32 := fun full =>
        hasRoom (by rw [found, full])
      dsimp only
      rw [found, Option.map_some]
      refine ⟨_, rfl, ?_⟩
      have same : ∀ a, total (fun t' => (Function.update s.stage t .idle t').carry) a =
          total (fun t' => (s.stage t').carry) a := total_carry_kept (by rw [stage]; rfl) rfl
      have toIdle : ∀ t', (Function.update s.stage t .idle t').deleting = (s.stage t').deleting :=
        deleting_kept notDeleting rfl
      have counted := inv.acc.acquire found positive small
      cases x with
      | none =>
          refine inv.frame .idle uses rfl (fun _ member => by cases member)
            (fun _ member => by cases member) (fun _ _ => ⟨rfl, rfl⟩)
            (fun _ used => by cases used) (idle_holds _ _) ?_
          refine counted.move (fun a => ?_) toIdle
          rw [Function.update_apply]
          simp only [refs, setStage, Option.elim_none, List.count_append, if_true]
          rw [same, count_single]
          rcases eq_or_ne a object with rfl | other
          · rw [if_pos rfl, if_pos rfl]
            omega
          · rw [if_neg other, if_neg other]
            omega
      | some x =>
          refine inv.frame .idle uses rfl (fun _ member => by cases member)
            (fun _ member => by cases member) ?_ ?_ (idle_holds _ _) ?_
          · intro x' other
            exact ⟨rfl, Function.update_of_ne (fun same' => other (congrArg some same'.symm)) ..⟩
          · intro x' used _
            obtain rfl : x = x' := Option.some.inj used
            exact (Function.update_self x (some object) s.held).trans (target x rfl).symm
          · refine counted.move (fun a => ?_) toIdle
            have count := total_held s.held x (some object) a
            rw [before.busy x rfl, Option.toList_none, List.count_nil, Nat.add_zero,
              Option.toList_some, count_single] at count
            rw [Function.update_apply]
            simp only [refs, setStage, Option.elim_some, reduceCtorEq, if_false, List.append_nil]
            rw [same, count]
            rcases eq_or_ne a object with rfl | other
            · rw [if_pos rfl, if_pos rfl]
              omega
            · rw [if_neg other, if_neg other]
              omega

/-! ## Whole runs -/

theorem step_spec (inv : Inv s) {label : Label ν τ} (allowed : Allowed s label) :
    ∃ s', step s label = some s' ∧ Inv s' := by
  cases label with
  | start t op => exact start_spec inv allowed
  | go t => exact go_spec inv allowed

/-- The pointers that hold an object. -/
def holders (s : State ν τ) (object : Nat) : Finset ν :=
  Finset.univ.filter fun x => s.ptr x = some object

/-- What the users of reference counts rely on. -/
structure Sound (s : State ν τ) : Prop where
  /-- No object is deleted twice. -/
  freedOnce : s.freed.Nodup
  /-- A pointer that nobody changes points to an object that is there. -/
  pointsToLive : ∀ x, (∀ t, x ∉ (s.stage t).writes) → ∀ object, s.ptr x = some object →
    object ∉ s.freed
  /-- References without a pointer are to objects that are there. -/
  rawLive : ∀ object ∈ s.raw, object ∉ s.freed
  /-- Between operations the counter is the number of references. -/
  counts : (∀ t, s.stage t = .idle) → ∀ object c, s.heap object = some c →
    c.toNat = (holders s object).card + s.raw.count object
  /-- Between operations exactly the objects without a reference are deleted. -/
  noLeak : (∀ t, s.stage t = .idle) → ∀ object < s.made,
    (object ∈ s.freed ↔ holders s object = ∅ ∧ object ∉ s.raw)

omit [DecidableEq ν] [DecidableEq τ] in
/-- Between operations only pointers and callers hold references. -/
theorem Inv.refs_idle (inv : Inv s) (idle : ∀ t, s.stage t = .idle) (object : Nat) :
    refs s object = (holders s object).card + s.raw.count object := by
  have noThread : total (fun t => (s.stage t).carry) object = 0 :=
    total_eq_zero.mpr fun t => by rw [idle t]; exact List.not_mem_nil
  have own : s.held = s.ptr := funext fun x => inv.own x fun t member => by
    rw [idle t] at member
    cases member
  have pointers : total (fun x => (s.held x).toList) object = (holders s object).card := by
    rw [total, holders, Finset.card_eq_sum_ones, Finset.sum_filter, own]
    refine Finset.sum_congr rfl fun x _ => ?_
    cases ptr : s.ptr x with
    | none => simp
    | some other => simp [List.count_singleton]
  rw [refs, noThread, pointers, Nat.add_zero]

omit [DecidableEq ν] [DecidableEq τ] in
theorem Inv.sound (inv : Inv s) : Sound s := by
  have live : ∀ object, 0 < refs s object → object ∉ s.freed := fun object positive member => by
    obtain ⟨c, found⟩ := inv.acc.alive object positive
    rw [((inv.acc.gone object).mp member).2] at found
    cases found
  constructor
  · exact inv.acc.once
  · intro x free object ptr
    refine live object ?_
    have part := count_le_total (fun x => (s.held x).toList) x object
    rw [inv.own x free, ptr, Option.toList_some, List.count_singleton_self] at part
    simp only [refs]
    omega
  · intro object member
    refine live object ?_
    have part := List.count_pos_iff.mpr member
    simp only [refs]
    omega
  · intro idle object c found
    rw [inv.acc.counted object c found, inv.refs_idle idle]
  · intro idle object old
    rw [inv.acc.gone object, and_iff_right old, ← Finset.card_eq_zero, ← List.count_eq_zero]
    have sum := inv.refs_idle idle object
    constructor
    · intro absent
      have zero : refs s object = 0 := by
        by_contra some'
        obtain ⟨c, found⟩ := inv.acc.alive object (Nat.pos_of_ne_zero some')
        rw [absent] at found
        cases found
      omega
    · rintro ⟨noPointer, noCaller⟩
      cases found : s.heap object with
      | none => rfl
      | some c =>
          obtain ⟨t, taken⟩ := inv.acc.dead object c found (by omega)
          rw [idle t] at taken
          cases taken

omit [Fintype ν] [Fintype τ] in
/-- Why a pointer must not be assigned its own `T*`: the object is deleted before it is counted. -/
theorem assignRaw_self {x : ν} {object : Nat} (ptr : s.ptr x = some object)
    (only : s.heap object = some 1#32) :
    exec step s [.start t (.assignRaw x x), .go t, .go t, .go t, .go t] = none := by
  simp [exec, step, start, releasePtr, go, setStage, store, load, loadStage, ptr, only]

/-- Two threads copy a pointer and release it while the other one does the same; there are three
pointers. -/
def oneRun : List (Label (Option Bool) Bool) :=
  [.start false (.createInstance none), .start false (.copy (some false) none),
    .start true (.copy (some true) none), .go true, .go false, .start false (.release none),
    .start true (.release (some true)), .go true, .go false, .go false, .go true,
    .start true (.release (some false)), .go true, .go true, .go true]

end Counting

end MlsImgSearch.Blitz.RefObject
