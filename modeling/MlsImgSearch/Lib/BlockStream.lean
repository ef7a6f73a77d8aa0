import Mathlib.Algebra.Order.Ring.Int
import Mathlib.Data.List.Basic
import Mathlib.Tactic.Common

/-!
# Streams that are consumed in blocks

A consumer takes whole blocks only and keeps what does not fill a block yet.
What it has consumed depends on the stream and not on the pieces in which the
stream arrived.
-/

namespace MlsImgSearch.Lib.BlockStream

variable {σ α : Type*}

/-- The consumer's state and the elements that wait for a full block. -/
structure Absorbed (σ α : Type*) where
  chain : σ
  pending : List α

variable (size : Nat) (compress : σ → List α → σ)

/-- One more element; a full block is consumed at once. -/
def push (s : Absorbed σ α) (x : α) : Absorbed σ α :=
  if s.pending.length + 1 = size then ⟨compress s.chain (s.pending ++ [x]), []⟩
  else ⟨s.chain, s.pending ++ [x]⟩

def absorb (s : Absorbed σ α) (data : List α) : Absorbed σ α :=
  data.foldl (push size compress) s

@[simp]
theorem absorb_nil (s : Absorbed σ α) : absorb size compress s [] = s := rfl

/-- The pieces of a stream do not matter. -/
theorem absorb_append (s : Absorbed σ α) (first second : List α) :
    absorb size compress s (first ++ second) =
      absorb size compress (absorb size compress s first) second := by
  unfold absorb
  exact List.foldl_append

variable {size compress}

/-- What does not fill a block only waits. -/
theorem absorb_short {s : Absorbed σ α} {data : List α}
    (short : s.pending.length + data.length < size) :
    absorb size compress s data = ⟨s.chain, s.pending ++ data⟩ := by
  induction data generalizing s with
  | nil => simp
  | cons x data ih =>
      rw [List.length_cons] at short
      have room : s.pending.length + 1 ≠ size := by omega
      have first : push size compress s x = ⟨s.chain, s.pending ++ [x]⟩ := if_neg room
      have later := ih (s := ⟨s.chain, s.pending ++ [x]⟩) (by
        rw [List.length_append, List.length_singleton]
        omega)
      calc absorb size compress s (x :: data)
          = absorb size compress (push size compress s x) data := rfl
        _ = ⟨s.chain, s.pending ++ [x] ++ data⟩ := by rw [first, later]
        _ = ⟨s.chain, s.pending ++ x :: data⟩ := by rw [List.append_assoc, List.singleton_append]

/-- What completes the block is consumed together with what waited. -/
theorem absorb_fill {s : Absorbed σ α} {fill : List α} (nonempty : fill ≠ [])
    (full : s.pending.length + fill.length = size) :
    absorb size compress s fill = ⟨compress s.chain (s.pending ++ fill), []⟩ := by
  obtain ⟨front, last, rfl⟩ := (List.eq_nil_or_concat' fill).resolve_left nonempty
  rw [List.length_append, List.length_singleton] at full
  have waiting : absorb size compress s front = ⟨s.chain, s.pending ++ front⟩ :=
    absorb_short (by omega)
  have closes : (s.pending ++ front).length + 1 = size := by
    rw [List.length_append]
    omega
  rw [absorb_append, waiting]
  calc absorb size compress ⟨s.chain, s.pending ++ front⟩ [last]
      = push size compress ⟨s.chain, s.pending ++ front⟩ last := rfl
    _ = ⟨compress s.chain (s.pending ++ front ++ [last]), []⟩ := if_pos closes
    _ = ⟨compress s.chain (s.pending ++ (front ++ [last])), []⟩ := by rw [List.append_assoc]

theorem absorb_block {chain : σ} {block : List α} (positive : 0 < size)
    (whole : block.length = size) :
    absorb size compress ⟨chain, []⟩ block = ⟨compress chain block, []⟩ := by
  have nonempty : block ≠ [] := List.ne_nil_of_length_pos (by omega)
  have filled : absorb size compress ⟨chain, []⟩ block = ⟨compress chain ([] ++ block), []⟩ :=
    absorb_fill nonempty (by simpa using whole)
  rwa [List.nil_append] at filled

/-- How many elements wait follows from the length of the stream. -/
theorem length_pending {s : Absorbed σ α} (room : s.pending.length < size) (data : List α) :
    (absorb size compress s data).pending.length = (s.pending.length + data.length) % size := by
  induction data generalizing s with
  | nil => exact (Nat.mod_eq_of_lt room).symm
  | cons x data ih =>
      have unfolded : absorb size compress s (x :: data) =
          absorb size compress (push size compress s x) data := rfl
      rw [unfolded, List.length_cons]
      by_cases closes : s.pending.length + 1 = size
      · have consumed : push size compress s x = ⟨compress s.chain (s.pending ++ [x]), []⟩ :=
          if_pos closes
        rw [consumed, ih (by simpa using by omega), ← Nat.add_assoc, Nat.add_right_comm, closes,
          Nat.add_comm size, Nat.add_mod_right]
        simp
      · have waits : push size compress s x = ⟨s.chain, s.pending ++ [x]⟩ := if_neg closes
        have longer : (s.pending ++ [x]).length = s.pending.length + 1 := by simp
        rw [waits, ih (by rw [longer]; omega), longer]
        congr 1
        omega

end MlsImgSearch.Lib.BlockStream
