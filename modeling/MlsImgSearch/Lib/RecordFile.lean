import Mathlib.Algebra.Order.Ring.Int
import Mathlib.Data.List.Basic
import Mathlib.Tactic.Common

/-!
# Files of records

A file is a sequence of records of known sizes behind a header. A position is a
number of bytes; reading makes sense at the boundaries of records only.
-/

namespace MlsImgSearch.Lib.RecordFile

variable {α : Type*} {size : α → Nat}

/-- The bytes of some records. -/
def bytes (size : α → Nat) (records : List α) : Nat := (records.map size).sum

/-- The records from position `pos` on, when the first of them lies at `base`; `none` when no record
starts or ends there. -/
def recordsFrom (size : α → Nat) : List α → Nat → Nat → Option (List α)
  | [], base, pos => if pos = base then some [] else none
  | r :: records, base, pos =>
      if pos = base then some (r :: records) else recordsFrom size records (base + size r) pos

@[simp] theorem bytes_nil : bytes size ([] : List α) = 0 := rfl

theorem bytes_cons (r : α) (records : List α) :
    bytes size (r :: records) = size r + bytes size records := rfl

theorem bytes_append (front back : List α) :
    bytes size (front ++ back) = bytes size front + bytes size back := by
  rw [bytes, List.map_append, List.sum_append]
  rfl

theorem bytes_concat (front : List α) (r : α) :
    bytes size (front ++ [r]) = bytes size front + size r := by
  rw [bytes_append, bytes_cons, bytes_nil, Nat.add_zero]

/-- Behind the records in front of a position come the others. -/
theorem recordsFrom_append (positive : ∀ r, 0 < size r) (front back : List α) (base : Nat) :
    recordsFrom size (front ++ back) base (base + bytes size front) = some back := by
  induction front generalizing base with
  | nil =>
      cases back with
      | nil => exact if_pos rfl
      | cons r back => exact if_pos rfl
  | cons r front ih =>
      have some' := positive r
      have later := ih (base + size r)
      rw [Nat.add_assoc, ← bytes_cons] at later
      rw [List.cons_append, recordsFrom, if_neg (by rw [bytes_cons]; omega), later]

/-- A record of a longer file is the last one, or lies in the file before. -/
theorem split_of_concat {records front back : List α} {last r : α}
    (split : records ++ [last] = front ++ r :: back) :
    front = records ∨ ∃ more, records = front ++ r :: more := by
  rcases List.append_eq_append_iff.mp split with ⟨more, isFront, isLast⟩ | ⟨more, isRecords, isBack⟩
  · cases more with
    | nil => exact Or.inl (isFront.trans (List.append_nil _))
    | cons first more =>
        have lengths := congrArg List.length isLast
        simp at lengths
  · cases more with
    | nil => exact Or.inl (isRecords.trans (List.append_nil _)).symm
    | cons first more =>
        rw [List.cons_append] at isBack
        obtain ⟨rfl, -⟩ := List.cons.inj isBack
        exact Or.inr ⟨more, isRecords⟩

/-- The boundaries of a file are ordered like the records in front of them. -/
theorem prefix_of_bytes_le (positive : ∀ r, 0 < size r) {front back front' back' : List α}
    (same : front ++ back = front' ++ back') (less : bytes size front ≤ bytes size front') :
    front <+: front' := by
  rcases List.prefix_or_prefix_of_prefix (List.prefix_append front back)
    (same ▸ List.prefix_append front' back') with shorter | longer
  · exact shorter
  · obtain ⟨between, rfl⟩ := longer
    rw [bytes_append] at less
    cases between with
    | nil => simp
    | cons r between =>
        have some' := positive r
        rw [bytes_cons] at less
        omega

end MlsImgSearch.Lib.RecordFile
