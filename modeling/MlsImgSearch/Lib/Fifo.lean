import Mathlib.Algebra.Order.Ring.Int
import Mathlib.Algebra.BigOperators.Group.List.Basic
import Mathlib.Data.List.Basic
import Mathlib.Tactic.Common

/-!
# Entries that are settled in their order

What was handed over stays written down, and so does what became of it. Nothing is lost or settled
twice as long as the settled entries followed by the pending ones are the entries that were posted.
-/

namespace MlsImgSearch.Lib.Fifo

variable {τ ω : Type*}

/-- The entries and what became of them, the oldest first. -/
structure Record (τ ω : Type*) where
  posted : List τ
  settled : List (τ × ω)
  deriving DecidableEq

namespace Record

def empty : Record τ ω := ⟨[], []⟩

def post (r : Record τ ω) (x : τ) : Record τ ω := { r with posted := r.posted ++ [x] }

def settle (r : Record τ ω) (x : τ) (outcome : ω) : Record τ ω :=
  { r with settled := r.settled ++ [(x, outcome)] }

/-- Entries with their outcomes. -/
def settleAll (r : Record τ ω) (es : List (τ × ω)) : Record τ ω :=
  es.foldl (fun r e => r.settle e.1 e.2) r

/-- What is not settled yet are these entries, in their order. -/
def Leaves (r : Record τ ω) (pending : List τ) : Prop :=
  r.posted = r.settled.map Prod.fst ++ pending

variable {r : Record τ ω} {pending : List τ} {x : τ} {outcome : ω}

@[simp]
theorem posted_post : (r.post x).posted = r.posted ++ [x] := rfl

@[simp]
theorem settled_post : (r.post x).settled = r.settled := rfl

@[simp]
theorem posted_settle : (r.settle x outcome).posted = r.posted := rfl

@[simp]
theorem settled_settle : (r.settle x outcome).settled = r.settled ++ [(x, outcome)] := rfl

theorem posted_settleAll (r : Record τ ω) (es : List (τ × ω)) :
    (r.settleAll es).posted = r.posted := by
  induction es generalizing r with
  | nil => rfl
  | cons e es ih => exact (ih (r.settle e.1 e.2)).trans posted_settle

theorem settled_settleAll (r : Record τ ω) (es : List (τ × ω)) :
    (r.settleAll es).settled = r.settled ++ es := by
  induction es generalizing r with
  | nil => exact (List.append_nil _).symm
  | cons e es ih =>
      have later := ih (r.settle e.1 e.2)
      rw [settled_settle, List.append_assoc, List.singleton_append] at later
      exact later

theorem leaves_empty : (empty : Record τ ω).Leaves [] := rfl

theorem Leaves.post (leaves : r.Leaves pending) : (r.post x).Leaves (pending ++ [x]) := by
  rw [Leaves, posted_post, settled_post, leaves, List.append_assoc]

theorem Leaves.settle (leaves : r.Leaves (x :: pending)) : (r.settle x outcome).Leaves pending := by
  rw [Leaves, posted_settle, settled_settle, leaves, List.map_append, List.append_assoc]
  rfl

theorem Leaves.settleAll {es : List (τ × ω)} (leaves : r.Leaves (es.map Prod.fst ++ pending)) :
    (r.settleAll es).Leaves pending := by
  rw [Leaves, posted_settleAll, settled_settleAll, leaves, List.map_append, List.append_assoc]

/-- How many entries are pending. -/
theorem Leaves.length (leaves : r.Leaves pending) :
    r.posted.length = r.settled.length + pending.length := by
  rw [leaves, List.length_append, List.length_map]

/-- What holds of all outcomes so far and of the next one. -/
theorem forall_settle {p : τ × ω → Prop} (all : ∀ e ∈ r.settled, p e) (next : p (x, outcome)) :
    ∀ e ∈ (r.settle x outcome).settled, p e := by
  intro e member
  rw [settled_settle, List.mem_append, List.mem_singleton] at member
  rcases member with old | rfl
  · exact all e old
  · exact next

end Record

/-! ## Entries with a deadline -/

/-- The front of a queue is looked at again and again, the next time at the time that the clock shows
then, until an entry is found that is not late: the entries that were late, that entry, and what is
behind it. -/
def takeValid (late : Nat → τ → Bool) :
    (Nat → Nat) → List τ → List (τ × Nat) × Option (τ × Nat) × List τ
  | _, [] => ([], none, [])
  | clock, x :: queue =>
      if late (clock 0) x then
        let (dropped, taken, rest) := takeValid late (fun i => clock (i + 1)) queue
        ((x, clock 0) :: dropped, taken, rest)
      else ([], some (x, clock 0), queue)

variable {late : Nat → τ → Bool}

/-- What is dropped was late when it was looked at, and what is taken was not. Nothing else leaves the
queue, and its order stays. -/
theorem takeValid_spec (clock : Nat → Nat) (queue : List τ) :
    (∀ e ∈ (takeValid late clock queue).1, late e.2 e.1 = true) ∧
      (∀ e ∈ (takeValid late clock queue).2.1, late e.2 e.1 = false) ∧
      queue = (takeValid late clock queue).1.map Prod.fst ++
        ((takeValid late clock queue).2.1.toList.map Prod.fst ++
          (takeValid late clock queue).2.2) := by
  induction queue generalizing clock with
  | nil => simp [takeValid]
  | cons x queue ih =>
      rw [takeValid]
      cases isLate : late (clock 0) x with
      | true =>
          obtain ⟨dropped, taken, split⟩ := ih fun i => clock (i + 1)
          rw [if_pos rfl]
          refine ⟨?_, taken, ?_⟩
          · intro e member
            rcases List.mem_cons.mp member with rfl | later
            · exact isLate
            · exact dropped e later
          · rw [List.map_cons, List.cons_append, ← split]
      | false =>
          rw [if_neg Bool.false_ne_true]
          refine ⟨fun e member => absurd member List.not_mem_nil, ?_, rfl⟩
          intro e member
          obtain rfl := Option.some.inj member
          exact isLate

/-- If nothing is taken, then nothing is left. -/
theorem takeValid_none {clock : Nat → Nat} {queue : List τ}
    (none' : (takeValid late clock queue).2.1 = none) : (takeValid late clock queue).2.2 = [] := by
  induction queue generalizing clock with
  | nil => rfl
  | cons x queue ih =>
      rw [takeValid] at none' ⊢
      cases isLate : late (clock 0) x with
      | true =>
          rw [isLate, if_pos rfl] at none'
          rw [if_pos rfl]
          exact ih none'
      | false =>
          rw [isLate, if_neg Bool.false_ne_true] at none'
          cases none'

end MlsImgSearch.Lib.Fifo
