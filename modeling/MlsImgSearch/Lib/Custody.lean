import Mathlib.Algebra.Order.Ring.Int
import Mathlib.Data.List.Nodup
import Mathlib.Logic.Function.Basic

/-!
# Items that are each in one place

Items are numbered in the order of their creation. Each one is either written down
in a list of records, whose order does not matter, or held by one of the holders,
who hold at most one item at a time.
-/

namespace MlsImgSearch.Lib.Custody

variable {κ : Type*} {next n : Nat} {records records' : List Nat} {holds : κ → Option Nat} {k : κ}

/-- Each item below `next` is in exactly one place. -/
structure Placed (next : Nat) (records : List Nat) (holds : κ → Option Nat) : Prop where
  once : records.Nodup
  old : ∀ n ∈ records, n < next
  held : ∀ k n, holds k = some n → n < next ∧ n ∉ records
  apart : ∀ k k' n, holds k = some n → holds k' = some n → k = k'
  found : ∀ n < next, n ∈ records ∨ ∃ k, holds k = some n

theorem placed_nil : Placed 0 [] (fun _ : κ => none) :=
  ⟨List.nodup_nil, nofun, nofun, nofun, nofun⟩

theorem Placed.perm (placed : Placed next records holds) (same : records.Perm records') :
    Placed next records' holds where
  once := same.nodup_iff.mp placed.once
  old n mem := placed.old n (same.mem_iff.mpr mem)
  held k n holdsN := by
    obtain ⟨old, other⟩ := placed.held k n holdsN
    exact ⟨old, fun mem => other (same.mem_iff.mpr mem)⟩
  apart := placed.apart
  found n old := (placed.found n old).imp_left same.mem_iff.mp

/-- A new item is written down. -/
theorem Placed.record (placed : Placed next records holds) :
    Placed (next + 1) (next :: records) holds where
  once := by
    refine List.nodup_cons.mpr ⟨fun mem => ?_, placed.once⟩
    exact absurd (placed.old next mem) (Nat.lt_irrefl next)
  old n mem := by
    rcases List.mem_cons.mp mem with rfl | mem
    · exact Nat.lt_succ_self n
    · exact Nat.lt_succ_of_lt (placed.old n mem)
  held k n holdsN := by
    obtain ⟨old, other⟩ := placed.held k n holdsN
    refine ⟨Nat.lt_succ_of_lt old, fun mem => ?_⟩
    rcases List.mem_cons.mp mem with rfl | mem
    · exact Nat.lt_irrefl n old
    · exact other mem
  apart := placed.apart
  found n new := by
    rcases Nat.lt_succ_iff_lt_or_eq.mp new with old | rfl
    · exact (placed.found n old).imp_left (List.mem_cons_of_mem next)
    · exact Or.inl List.mem_cons_self

variable [DecidableEq κ]

/-- A holder writes its item down. -/
theorem Placed.putDown (placed : Placed next records holds) (holdsN : holds k = some n) :
    Placed next (n :: records) (Function.update holds k none) where
  once := List.nodup_cons.mpr ⟨(placed.held k n holdsN).2, placed.once⟩
  old n' mem := by
    rcases List.mem_cons.mp mem with rfl | mem
    · exact (placed.held k n' holdsN).1
    · exact placed.old n' mem
  held k' n' holdsN' := by
    by_cases same : k' = k
    · rw [same, Function.update_self] at holdsN'
      exact absurd holdsN' (by simp)
    · rw [Function.update_of_ne same] at holdsN'
      obtain ⟨old, other⟩ := placed.held k' n' holdsN'
      refine ⟨old, fun mem => ?_⟩
      rcases List.mem_cons.mp mem with rfl | mem
      · exact same (placed.apart k' k n' holdsN' holdsN)
      · exact other mem
  apart k₁ k₂ n' first second := by
    have kept : ∀ k', Function.update holds k none k' = some n' → holds k' = some n' := by
      intro k' holdsN'
      by_cases same : k' = k
      · rw [same, Function.update_self] at holdsN'
        exact absurd holdsN' (by simp)
      · rwa [Function.update_of_ne same] at holdsN'
    exact placed.apart k₁ k₂ n' (kept k₁ first) (kept k₂ second)
  found n' old := by
    rcases placed.found n' old with mem | ⟨k', holdsN'⟩
    · exact Or.inl (List.mem_cons_of_mem n mem)
    · by_cases same : k' = k
      · rw [same, holdsN] at holdsN'
        rw [Option.some.inj holdsN']
        exact Or.inl List.mem_cons_self
      · exact Or.inr ⟨k', by rwa [Function.update_of_ne same]⟩

/-- A holder takes an item that was written down. -/
theorem Placed.pickUp (placed : Placed next (n :: records) holds) (free : holds k = none) :
    Placed next records (Function.update holds k (some n)) where
  once := placed.once.of_cons
  old n' mem := placed.old n' (List.mem_cons_of_mem n mem)
  held k' n' holdsN' := by
    by_cases same : k' = k
    · rw [same, Function.update_self] at holdsN'
      obtain rfl := Option.some.inj holdsN'
      exact ⟨placed.old n List.mem_cons_self, (List.nodup_cons.mp placed.once).1⟩
    · rw [Function.update_of_ne same] at holdsN'
      obtain ⟨old, other⟩ := placed.held k' n' holdsN'
      exact ⟨old, fun mem => other (List.mem_cons_of_mem n mem)⟩
  apart k₁ k₂ n' first second := by
    -- the new item was held by nobody
    have unheld : ∀ k', holds k' = some n → False := fun k' holdsN' =>
      (placed.held k' n holdsN').2 List.mem_cons_self
    by_cases isFirst : k₁ = k <;> by_cases isSecond : k₂ = k
    · rw [isFirst, isSecond]
    · rw [isFirst, Function.update_self] at first
      rw [Function.update_of_ne isSecond, ← first] at second
      exact (unheld k₂ second).elim
    · rw [isSecond, Function.update_self] at second
      rw [Function.update_of_ne isFirst, ← second] at first
      exact (unheld k₁ first).elim
    · rw [Function.update_of_ne isFirst] at first
      rw [Function.update_of_ne isSecond] at second
      exact placed.apart k₁ k₂ n' first second
  found n' old := by
    rcases placed.found n' old with mem | ⟨k', holdsN'⟩
    · rcases List.mem_cons.mp mem with rfl | mem
      · exact Or.inr ⟨k, Function.update_self ..⟩
      · exact Or.inl mem
    · have other : k' ≠ k := by
        rintro rfl
        exact absurd (free.symm.trans holdsN') (by simp)
      exact Or.inr ⟨k', by rwa [Function.update_of_ne other]⟩

/-- A holder gets a new item. -/
theorem Placed.give (placed : Placed next records holds) (free : holds k = none) :
    Placed (next + 1) records (Function.update holds k (some next)) :=
  placed.record.pickUp free

end MlsImgSearch.Lib.Custody
