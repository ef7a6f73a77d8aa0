import MlsImgSearch.Lib.Bytes

/-!
# Stream decoders under arbitrary segmentation

A decoder offers a buffer of some length; its reader stores a piece of the
stream there and reports it. `deliver` is one such exchange. A decoder law about
segmentation quantifies over every list of pieces that a reader can deliver.
-/

namespace MlsImgSearch.Lib.Segmentation

/-- `offered` is the buffer length, `deliver` one exchange; `none` is an error code. -/
structure Decoder (σ μ : Type) where
  offered : σ → Option Nat
  deliver : σ → List UInt8 → Option (σ × List μ)

namespace Decoder

variable {σ μ : Type} (d : Decoder σ μ)

/-- Deliver all pieces and collect the messages. -/
def feedAll : σ → List (List UInt8) → Option (σ × List μ)
  | s, [] => some (s, [])
  | s, piece :: rest =>
      (d.deliver s piece).bind fun (s', out) =>
        (feedAll s' rest).map fun (s'', outs) => (s'', out ++ outs)

/-- Every piece is non-empty and fits into the buffer that the decoder offers for it. -/
def Fits : σ → List (List UInt8) → Prop
  | _, [] => True
  | s, piece :: rest =>
      piece ≠ [] ∧ (∃ n, d.offered s = some n ∧ piece.length ≤ n) ∧
        ∀ s' out, d.deliver s piece = some (s', out) → Fits s' rest

/-- Whenever an exchange emits a message, it ends in the state `home`. -/
def ReturnsTo (home : σ) : σ → List (List UInt8) → Prop
  | _, [] => True
  | s, piece :: rest =>
      ∀ s' out, d.deliver s piece = some (s', out) →
        (out ≠ [] → s' = home) ∧ ReturnsTo home s' rest

/-- Every piece meets a condition on the state that receives it. -/
def Always (cond : σ → List UInt8 → Prop) : σ → List (List UInt8) → Prop
  | _, [] => True
  | s, piece :: rest =>
      cond s piece ∧ ∀ s' out, d.deliver s piece = some (s', out) → Always cond s' rest

/-- A reader delivers some bytes, and no more than there is room for. -/
def Within : σ → List (List UInt8) → Prop :=
  d.Always fun s piece => piece ≠ [] ∧ ∀ n, d.offered s = some n → piece.length ≤ n

theorem feedAll_cons {s s' : σ} {piece : List UInt8} {out : List μ} (rest : List (List UInt8))
    (first : d.deliver s piece = some (s', out)) :
    d.feedAll s (piece :: rest) = (d.feedAll s' rest).map fun (s'', outs) => (s'', out ++ outs) := by
  rw [feedAll, first]
  rfl

theorem feedAll_append (s : σ) (first second : List (List UInt8)) :
    d.feedAll s (first ++ second) =
      (d.feedAll s first).bind fun (s', out) =>
        (d.feedAll s' second).map fun (s'', outs) => (s'', out ++ outs) := by
  induction first generalizing s with
  | nil =>
      rw [List.nil_append, feedAll, Option.bind_some]
      simp
  | cons piece first ih =>
      rw [List.cons_append, feedAll, feedAll, Option.bind_assoc]
      refine congrArg _ (funext fun (s', out) => ?_)
      dsimp only
      rw [ih, Option.map_bind, Option.bind_map]
      refine congrArg _ (funext fun (s'', outs) => ?_)
      dsimp only [Function.comp]
      rw [Option.map_map]
      refine congrArg (Option.map · (d.feedAll s'' second)) (funext fun rest => ?_)
      simp only [Function.comp, List.append_assoc]

variable {d}

theorem feedAll_cons_none {s : σ} {piece : List UInt8} {rest : List (List UInt8)}
    (first : d.deliver s piece = none) : d.feedAll s (piece :: rest) = none := by
  rw [feedAll, first]
  rfl

theorem Fits.cons {s : σ} {piece : List UInt8} {rest : List (List UInt8)} {n : Nat}
    (nonempty : piece ≠ []) (offer : d.offered s = some n) (bound : piece.length ≤ n)
    (result : d.deliver s piece = none ∨
      ∃ s' out, d.deliver s piece = some (s', out) ∧ d.Fits s' rest) :
    d.Fits s (piece :: rest) := by
  refine ⟨nonempty, ⟨n, offer, bound⟩, fun s'' out'' first => ?_⟩
  rcases result with failed | ⟨s', out, done, later⟩
  · rw [failed] at first
    cases first
  · rw [done] at first
    obtain ⟨rfl, -⟩ := Prod.mk.inj (Option.some.inj first)
    exact later

/-- Whether the pieces fit is found by running the decoder. -/
instance decidableFits : (s : σ) → (pieces : List (List UInt8)) → Decidable (d.Fits s pieces)
  | _, [] => isTrue trivial
  | s, piece :: rest =>
      match found : d.deliver s piece, offer : d.offered s with
      | _, none => isFalse fun fits => by
          obtain ⟨n, same, _⟩ := fits.2.1
          rw [offer] at same
          cases same
      | none, some n =>
          decidable_of_iff (piece ≠ [] ∧ piece.length ≤ n) ⟨
            fun ⟨nonempty, bound⟩ => Fits.cons nonempty offer bound (Or.inl found),
            fun fits => ⟨fits.1, by
              obtain ⟨k, same, bound⟩ := fits.2.1
              rw [offer] at same
              exact Option.some.inj same ▸ bound⟩⟩
      | some (s', out), some n =>
          haveI := decidableFits s' rest
          decidable_of_iff (piece ≠ [] ∧ piece.length ≤ n ∧ d.Fits s' rest) ⟨
            fun ⟨nonempty, bound, later⟩ =>
              Fits.cons nonempty offer bound (Or.inr ⟨s', out, found, later⟩),
            fun fits => ⟨fits.1, by
              obtain ⟨k, same, bound⟩ := fits.2.1
              rw [offer] at same
              exact Option.some.inj same ▸ bound, fits.2.2 s' out found⟩⟩

/-- A condition on all pieces is found by running the decoder. -/
instance decidableAlways (cond : σ → List UInt8 → Prop) [∀ s piece, Decidable (cond s piece)] :
    (s : σ) → (pieces : List (List UInt8)) → Decidable (d.Always cond s pieces)
  | _, [] => isTrue trivial
  | s, piece :: rest =>
      match found : d.deliver s piece with
      | none =>
          decidable_of_iff (cond s piece) ⟨
            fun holds => ⟨holds, fun s' out done => by
              rw [found] at done
              cases done⟩, And.left⟩
      | some (s', out) =>
          haveI := decidableAlways cond s' rest
          decidable_of_iff (cond s piece ∧ d.Always cond s' rest) ⟨
            fun ⟨holds, later⟩ => ⟨holds, fun s'' out' done => by
              rw [found] at done
              obtain ⟨rfl, -⟩ := Prod.mk.inj (Option.some.inj done)
              exact later⟩,
            fun ⟨holds, later⟩ => ⟨holds, later s' out found⟩⟩

instance decidableWithin (s : σ) (pieces : List (List UInt8)) : Decidable (d.Within s pieces) :=
  haveI : ∀ (s : σ) (piece : List UInt8),
      Decidable (piece ≠ [] ∧ ∀ n, d.offered s = some n → piece.length ≤ n) := fun s piece =>
    decidable_of_iff (piece ≠ [] ∧ (d.offered s).all (piece.length ≤ ·) = true) (by
      cases d.offered s <;> simp)
  decidableAlways (fun s piece => piece ≠ [] ∧ ∀ n, d.offered s = some n → piece.length ≤ n) s pieces

theorem Within.tail {s s' : σ} {piece : List UInt8} {rest : List (List UInt8)} {out : List μ}
    (within : d.Within s (piece :: rest)) (first : d.deliver s piece = some (s', out)) :
    d.Within s' rest :=
  within.2 s' out first

theorem Within.eq_nil_of_flatten {s : σ} {pieces : List (List UInt8)} (within : d.Within s pieces)
    (empty : pieces.flatten = []) : pieces = [] := by
  cases pieces with
  | nil => rfl
  | cons piece rest => exact absurd (List.append_eq_nil_iff.mp empty).1 within.1.1

theorem Fits.eq_nil_of_flatten {s : σ} {pieces : List (List UInt8)} (fits : d.Fits s pieces)
    (empty : pieces.flatten = []) : pieces = [] := by
  cases pieces with
  | nil => rfl
  | cons piece rest => exact absurd (List.append_eq_nil_iff.mp empty).1 fits.1

/-- All pieces are taken, and the messages are `out`. -/
def Emits (d : Decoder σ μ) (s : σ) (pieces : List (List UInt8)) (out : List μ) : Prop :=
  ∃ s', d.feedAll s pieces = some (s', out)

theorem emits_nil {s : σ} {out : List μ} : d.Emits s [] out ↔ out = [] := by
  constructor
  · rintro ⟨s', done⟩
    exact (Prod.mk.inj (Option.some.inj done)).2.symm
  · rintro rfl
    exact ⟨s, rfl⟩

theorem not_emits {s : σ} {piece : List UInt8} {rest : List (List UInt8)} {out : List μ}
    (first : d.deliver s piece = none) : ¬ d.Emits s (piece :: rest) out := by
  rintro ⟨s', done⟩
  rw [feedAll_cons_none first] at done
  cases done

theorem not_emits_of_isNone {s : σ} {pieces : List (List UInt8)} {out : List μ}
    (failed : (d.feedAll s pieces).isNone) : ¬ d.Emits s pieces out := by
  rintro ⟨s', done⟩
  rw [done] at failed
  cases failed

/-- The messages of a first piece come in front of the others. -/
theorem emits_cons_iff {s s' : σ} {piece : List UInt8} {rest : List (List UInt8)}
    {first out : List μ} (taken : d.deliver s piece = some (s', first)) :
    d.Emits s (piece :: rest) out ↔ ∃ later, out = first ++ later ∧ d.Emits s' rest later := by
  unfold Emits
  rw [feedAll_cons d rest taken]
  constructor
  · rintro ⟨s'', done⟩
    obtain ⟨⟨last, outs⟩, later, same⟩ := Option.map_eq_some_iff.mp done
    obtain ⟨rfl, joined⟩ := Prod.mk.inj same
    exact ⟨outs, joined.symm, last, later⟩
  · rintro ⟨later, rfl, s'', done⟩
    exact ⟨s'', by rw [done]; rfl⟩

theorem emits_cons {s s' : σ} {piece : List UInt8} {rest : List (List UInt8)} {first out : List μ}
    (taken : d.deliver s piece = some (s', first)) :
    d.Emits s (piece :: rest) (first ++ out) ↔ d.Emits s' rest out := by
  rw [emits_cons_iff taken]
  constructor
  · rintro ⟨later, same, emits⟩
    rwa [List.append_cancel_left same]
  · exact fun emits => ⟨out, rfl, emits⟩

theorem emits_cons_nil {s s' : σ} {piece : List UInt8} {rest : List (List UInt8)} {out : List μ}
    (taken : d.deliver s piece = some (s', [])) :
    d.Emits s (piece :: rest) out ↔ d.Emits s' rest out :=
  emits_cons taken

theorem emits_cons_one {s s' : σ} {piece : List UInt8} {rest : List (List UInt8)} {msg : μ}
    {out : List μ} (taken : d.deliver s piece = some (s', [msg])) :
    d.Emits s (piece :: rest) (msg :: out) ↔ d.Emits s' rest out :=
  emits_cons taken

end Decoder

/-- Stream offsets at which the pieces end, counted from `base`. -/
def cutsFrom : Nat → List (List UInt8) → List Nat
  | _, [] => []
  | base, piece :: rest => (base + piece.length) :: cutsFrom (base + piece.length) rest

theorem le_of_mem_cutsFrom {base cut : Nat} {pieces : List (List UInt8)}
    (member : cut ∈ cutsFrom base pieces) : base ≤ cut := by
  induction pieces generalizing base with
  | nil => cases member
  | cons piece rest ih =>
      rcases List.mem_cons.mp member with rfl | later
      · exact Nat.le_add_right _ _
      · exact Nat.le_trans (Nat.le_add_right _ _) (ih later)

/-- A piece that stays inside the current unit of the stream continues that unit. -/
theorem isPrefix_of_flatten {taken piece unit : List UInt8} {rest : List (List UInt8)}
    {later : List UInt8} (stream : taken ++ (piece :: rest).flatten = unit ++ later)
    (inside : taken.length + piece.length ≤ unit.length) : taken ++ piece <+: unit := by
  rw [List.flatten_cons, ← List.append_assoc] at stream
  have first : taken ++ piece <+: unit ++ later := stream ▸ List.prefix_append _ _
  have second : unit <+: unit ++ later := List.prefix_append _ _
  exact List.prefix_of_prefix_length_le first second (by rw [List.length_append]; exact inside)

/-! ## Cutting a stream -/

/-- The pieces of a stream, with the given lengths. -/
def cutInto : List Nat → List UInt8 → List (List UInt8)
  | [], _ => []
  | size :: sizes, stream => stream.take size :: cutInto sizes (stream.drop size)

/-- The offsets at which pieces of the given lengths end, counted from `base`. -/
def sizeCuts : Nat → List Nat → List Nat
  | _, [] => []
  | base, size :: sizes => (base + size) :: sizeCuts (base + size) sizes

theorem flatten_cutInto {sizes : List Nat} {stream : List UInt8}
    (total : sizes.sum = stream.length) : (cutInto sizes stream).flatten = stream := by
  induction sizes generalizing stream with
  | nil => exact (List.length_eq_zero_iff.mp total.symm).symm
  | cons size sizes ih =>
      rw [List.sum_cons] at total
      have rest : sizes.sum = (stream.drop size).length := by
        rw [List.length_drop]
        omega
      rw [cutInto, List.flatten_cons, ih rest, List.take_append_drop]

theorem sizeCuts_append (base : Nat) (inner outer : List Nat) :
    sizeCuts base (inner ++ outer) = sizeCuts base inner ++ sizeCuts (base + inner.sum) outer := by
  induction inner generalizing base with
  | nil => rfl
  | cons size inner ih =>
      rw [List.cons_append, sizeCuts, ih, sizeCuts, List.sum_cons, Nat.add_assoc, List.cons_append]

theorem mem_sizeCuts_bounds {base cut : Nat} {sizes : List Nat} (member : cut ∈ sizeCuts base sizes) :
    base ≤ cut ∧ cut ≤ base + sizes.sum := by
  induction sizes generalizing base with
  | nil => cases member
  | cons size sizes ih =>
      rw [List.sum_cons]
      rcases List.mem_cons.mp member with rfl | later
      · omega
      · have bounds := ih later
        omega

end MlsImgSearch.Lib.Segmentation
