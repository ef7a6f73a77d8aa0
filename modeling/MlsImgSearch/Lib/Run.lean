import Mathlib.Algebra.Order.Ring.Int
import Mathlib.Data.List.Basic
import Mathlib.Tactic.Common

/-!
# Runs of a partial step function

A system is a partial function from a state and a label to the next state;
labels carry every choice that the environment makes. `none` means that the
label is not possible in that state, or that the program stopped there.
-/

namespace MlsImgSearch.Lib.Run

variable {σ ι : Type*}

/-- Execute a list of labels. -/
def exec (step : σ → ι → Option σ) : σ → List ι → Option σ
  | s, [] => some s
  | s, i :: rest => (step s i).bind fun s' => exec step s' rest

/-- Every step taken along the execution meets `cond` in the state before it. -/
def Meets (step : σ → ι → Option σ) (cond : σ → ι → Prop) : σ → List ι → Prop
  | _, [] => True
  | s, i :: rest => cond s i ∧ ∀ s', step s i = some s' → Meets step cond s' rest

variable {step : σ → ι → Option σ} {cond : σ → ι → Prop}

instance decidableMeets [∀ s i, Decidable (cond s i)] :
    ∀ (s : σ) (labels : List ι), Decidable (Meets step cond s labels)
  | _, [] => isTrue trivial
  | s, i :: rest =>
      match taken : step s i with
      | none => decidable_of_iff (cond s i) (by simp [Meets, taken])
      | some s' =>
          have : Decidable (Meets step cond s' rest) := decidableMeets s' rest
          decidable_of_iff (cond s i ∧ Meets step cond s' rest) (by simp [Meets, taken])

theorem exec_append (s : σ) (first second : List ι) :
    exec step s (first ++ second) = (exec step s first).bind fun s' => exec step s' second := by
  induction first generalizing s with
  | nil => rfl
  | cons i first ih =>
      rw [List.cons_append, exec, exec, Option.bind_assoc]
      exact congrArg _ (funext fun s' => ih s')

/-- A run that meets a condition goes on with another one. -/
theorem Meets.append {s s' : σ} {first second : List ι} (meets : Meets step cond s first)
    (ran : exec step s first = some s') (later : Meets step cond s' second) :
    Meets step cond s (first ++ second) := by
  induction first generalizing s with
  | nil =>
      obtain rfl : s = s' := Option.some.inj ran
      exact later
  | cons i first ih =>
      obtain ⟨mid, taken, rest⟩ := Option.bind_eq_some_iff.mp ran
      refine ⟨meets.1, fun mid' taken' => ?_⟩
      obtain rfl : mid = mid' := Option.some.inj (taken.symm.trans taken')
      exact ih (meets.2 mid taken) rest

/-- A condition on the labels alone. -/
theorem meets_of_forall {allowed : ι → Prop} {s : σ} {labels : List ι}
    (all : ∀ i ∈ labels, allowed i) : Meets step (fun _ i => allowed i) s labels := by
  induction labels generalizing s with
  | nil => exact trivial
  | cons i rest ih =>
      exact ⟨all i (List.mem_cons_self ..), fun _ _ =>
        ih fun j member => all j (List.mem_cons_of_mem i member)⟩

/-- A condition that holds of every permitted step holds along every permitted run. -/
theorem meets_imp {cond' : σ → ι → Prop} {Inv : σ → Prop}
    (holds : ∀ s i, Inv s → cond s i → cond' s i)
    (keep : ∀ s i s', Inv s → cond s i → step s i = some s' → Inv s')
    {s : σ} {labels : List ι} (start : Inv s) (meets : Meets step cond s labels) :
    Meets step cond' s labels := by
  induction labels generalizing s with
  | nil => exact trivial
  | cons i rest ih =>
      exact ⟨holds s i start meets.1, fun s' taken =>
        ih (keep s i s' start meets.1 taken) (meets.2 s' taken)⟩

/-- Two conditions that agree wherever a permitted run leads permit the same runs. -/
theorem meets_congr {cond' : σ → ι → Prop} {Inv : σ → Prop}
    (agree : ∀ s i, Inv s → (cond s i ↔ cond' s i))
    (keep : ∀ s i s', Inv s → cond s i → step s i = some s' → Inv s')
    {s : σ} {labels : List ι} (start : Inv s) :
    Meets step cond s labels ↔ Meets step cond' s labels := by
  constructor
  · exact meets_imp (fun s i inv => (agree s i inv).mp) keep start
  · refine meets_imp (fun s i inv => (agree s i inv).mpr) (fun s i s' inv allowed => ?_) start
    exact keep s i s' inv ((agree s i inv).mpr allowed)

/-- An invariant that every permitted step keeps holds at the end of every permitted run. -/
theorem exec_invariant {Inv : σ → Prop}
    (keep : ∀ s i s', Inv s → cond s i → step s i = some s' → Inv s')
    {s s' : σ} {labels : List ι} (start : Inv s) (meets : Meets step cond s labels)
    (ran : exec step s labels = some s') : Inv s' := by
  induction labels generalizing s with
  | nil =>
      obtain rfl : s = s' := by simpa [exec] using ran
      exact start
  | cons i rest ih =>
      obtain ⟨mid, first, later⟩ := Option.bind_eq_some_iff.mp ran
      exact ih (keep s i mid start meets.1 first) (meets.2 mid first) later

/-- If every permitted step is possible and keeps the invariant, permitted runs do not stop. -/
theorem exec_progress {Inv : σ → Prop}
    (advance : ∀ s i, Inv s → cond s i → ∃ s', step s i = some s' ∧ Inv s')
    {s : σ} {labels : List ι} (start : Inv s) (meets : Meets step cond s labels) :
    ∃ s', exec step s labels = some s' ∧ Inv s' := by
  induction labels generalizing s with
  | nil => exact ⟨s, rfl, start⟩
  | cons i rest ih =>
      obtain ⟨mid, first, midInv⟩ := advance s i start meets.1
      obtain ⟨last, later, lastInv⟩ := ih midInv (meets.2 mid first)
      exact ⟨last, by rw [exec, first]; exact later, lastInv⟩

/-! ## Conditions on the labels before a label -/

/-- Each label meets `cond` after the labels before it; `done` came before all of them. -/
def Along (cond : List ι → ι → Prop) (done labels : List ι) : Prop :=
  ∀ earlier i later, labels = earlier ++ i :: later → cond (done ++ earlier) i

theorem along_nil (cond : List ι → ι → Prop) (done : List ι) : Along cond done [] :=
  fun earlier i later split => absurd split.symm (by simp)

theorem along_cons {cond : List ι → ι → Prop} {done rest : List ι} {i : ι} :
    Along cond done (i :: rest) ↔ cond done i ∧ Along cond (done ++ [i]) rest := by
  constructor
  · intro along
    refine ⟨?_, fun earlier j later split => ?_⟩
    · simpa using along [] i rest rfl
    · rw [List.append_assoc]
      exact along (i :: earlier) j later (by rw [split]; rfl)
  · rintro ⟨first, others⟩ earlier j later split
    cases earlier with
    | nil =>
        obtain ⟨rfl, rfl⟩ := List.cons.inj split
        simpa using first
    | cons head earlier =>
        obtain ⟨rfl, rest⟩ := List.cons.inj split
        simpa using others earlier j later rest

/-- If a step succeeds exactly under a condition on the labels before it, then so does a run. -/
theorem exec_along (cond : List ι → ι → Prop) (Inv : List ι → σ → Prop) (valid : ι → Prop)
    (fails : ∀ done s i, valid i → Inv done s → ¬ cond done i → step s i = none)
    (works : ∀ done s i, valid i → Inv done s → cond done i →
      ∃ s', step s i = some s' ∧ Inv (done ++ [i]) s')
    (done : List ι) {s : σ} {labels : List ι} (allValid : ∀ i ∈ labels, valid i)
    (start : Inv done s) :
    (¬ Along cond done labels → exec step s labels = none) ∧
      (Along cond done labels → ∃ s', exec step s labels = some s' ∧ Inv (done ++ labels) s') := by
  induction labels generalizing done s with
  | nil =>
      refine ⟨fun clash => absurd (along_nil cond done) clash, fun _ => ⟨s, rfl, ?_⟩⟩
      rwa [List.append_nil]
  | cons i rest ih =>
      obtain ⟨iValid, restValid⟩ := List.forall_mem_cons.mp allValid
      rw [along_cons, exec]
      by_cases first : cond done i
      · obtain ⟨mid, taken, midInv⟩ := works done s i iValid start first
        rw [taken, Option.bind_some, and_iff_right first]
        obtain ⟨restFails, restWorks⟩ := ih (done ++ [i]) restValid midInv
        refine ⟨restFails, fun along => ?_⟩
        obtain ⟨last, ran, lastInv⟩ := restWorks along
        exact ⟨last, ran, by rwa [List.append_assoc] at lastInv⟩
      · rw [fails done s i iValid start first, Option.bind_none]
        exact ⟨fun _ => rfl, fun both => absurd both.1 first⟩

end MlsImgSearch.Lib.Run
