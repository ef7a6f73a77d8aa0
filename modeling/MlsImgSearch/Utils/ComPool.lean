import MlsImgSearch.Lib.Ledger
import MlsImgSearch.Lib.Run

/-!
# A pool of objects that are borrowed

A semaphore counts the idle objects of a pool, and each object has a state of its
own. Calls run at the same time; a section under the mutex is one step, and so is an
operation on the semaphore.
-/

namespace MlsImgSearch.Utils.ComPool

open Lib.Ledger Lib.Run

/-! ## The state -/

inductive Stat where
  | idle
  | busy
  deriving DecidableEq

/-- `node` is a pointer, and `none` is the null pointer. -/
structure ComNode where
  stat : Stat
  node : Option Nat
  deriving DecidableEq

structure Timespec where
  sec : Nat
  nsec : Nat
  deriving DecidableEq

def calcSemTime (now : Timespec) (mswait : Nat) : Timespec :=
  ⟨now.sec + mswait / 1000, now.nsec + mswait % 1000 * 1000⟩

/-- A `Borrow` in progress. -/
inductive Call where
  /-- The time at which the wait ends, if it does. -/
  | waiting (ends : Option Timespec)
  /-- The wait is over, and has lowered the semaphore or not. -/
  | looking (waited : Bool)
  deriving DecidableEq

/-- A `Borrow` that has returned `com`, and whether it has changed the state of a node. -/
structure Borrowed where
  waited : Bool
  com : Option Nat
  changed : Bool
  deriving DecidableEq

/-- `held` are the pointers that borrowers have. -/
structure Pool where
  maxNodes : Int
  comNodes : List ComNode
  sem : Nat
  calls : List Call
  held : List Nat
  returned : List Borrowed
  deriving DecidableEq

/-- `Init` has returned. -/
def Pool.initial (maxNodes : Int) : Pool := ⟨maxNodes, [], 0, [], [], []⟩

/-! ## The operations -/

def push (p : Pool) (call : Call) : Pool := { p with calls := call :: p.calls }

def add (p : Pool) (com : Option Nat) : Pool :=
  if p.maxNodes ≤ p.comNodes.length then p
  else { p with comNodes := p.comNodes ++ [⟨.idle, com⟩], sem := p.sem + 1 }

/-- `CalcSemTime` takes the waiting time as an unsigned number. -/
def borrow (p : Pool) (waitms : Int) (now : Timespec) : Pool :=
  if waitms ≠ 0 then push p (.waiting (some (calcSemTime now (waitms % 2 ^ 32).toNat)))
  else push p (.waiting none)

/-- The loop of `Borrow` over the nodes; `none` if it finds no idle one. -/
def takeIdle : List ComNode → Option (Option Nat × List ComNode)
  | [] => none
  | n :: rest =>
      if n.stat = .idle then some (n.node, ⟨.busy, n.node⟩ :: rest)
      else (takeIdle rest).map fun taken => (taken.1, n :: taken.2)

/-- The section of `Borrow`. -/
def look (p : Pool) (waited : Bool) : Pool :=
  match takeIdle p.comNodes with
  | none => { p with returned := p.returned ++ [⟨waited, none, false⟩] }
  | some (com, nodes) =>
      { p with
        comNodes := nodes
        held := com.toList ++ p.held
        returned := p.returned ++ [⟨waited, com, true⟩] }

/-- The loop of `Release`; `none` if it does not find the pointer. -/
def putIdle (com : Nat) : List ComNode → Option (List ComNode)
  | [] => none
  | n :: rest =>
      if n.node = some com then some (⟨.idle, n.node⟩ :: rest)
      else (putIdle com rest).map fun rest => n :: rest

def release (p : Pool) (com : Nat) : Pool :=
  match putIdle com p.comNodes with
  | none => p
  | some nodes => { p with comNodes := nodes, sem := p.sem + 1 }

/-! ## Steps -/

/-- How a wait goes on. -/
inductive Wait where
  | succeeds
  | interrupted
  | timesOut
  /-- `EINVAL`, for a time that is not normalised. -/
  | invalid
  deriving DecidableEq

/-- The next step of a call that waits, which is not among the calls of `p`. -/
def wait (p : Pool) (ends : Option Timespec) : Wait → Option Pool
  | .succeeds =>
      if 0 < p.sem then some (push { p with sem := p.sem - 1 } (.looking true)) else none
  | .interrupted => some (push p (.waiting ends))
  | .timesOut => if ends.isSome ∧ p.sem = 0 then some (push p (.looking false)) else none
  | .invalid => if ∃ t ∈ ends, 10 ^ 9 ≤ t.nsec then some (push p (.looking false)) else none

inductive Label where
  | add (com : Option Nat)
  | borrow (waitms : Int) (now : Timespec)
  /-- The pointer with this number among those that borrowers have is released. -/
  | release (i : Nat)
  /-- The call with this number goes on. -/
  | wait (i : Nat) (outcome : Wait)
  | look (i : Nat)
  deriving DecidableEq

def step (p : Pool) : Label → Option Pool
  | .add com => some (add p com)
  | .borrow waitms now => some (borrow p waitms now)
  | .release i => p.held[i]?.map fun com => release { p with held := p.held.eraseIdx i } com
  | .wait i outcome =>
      match p.calls[i]? with
      | some (.waiting ends) => wait { p with calls := p.calls.eraseIdx i } ends outcome
      | _ => none
  | .look i =>
      match p.calls[i]? with
      | some (.looking waited) => some (look { p with calls := p.calls.eraseIdx i } waited)
      | _ => none

/-! ## What is wanted -/

def idleNodes (nodes : List ComNode) : List ComNode := nodes.filter fun n => n.stat = .idle

structure Correct (p : Pool) : Prop where
  /-- A node has at most one borrower. -/
  once : p.held.Nodup
  sem : p.calls = [] → p.sem = (idleNodes p.comNodes).length
  waited : ∀ b ∈ p.returned, b.waited = true → b.com ≠ none
  failed : ∀ b ∈ p.returned, b.waited = false → b.com = none ∧ b.changed = false

/-- A new pointer is added, and a `Borrow` whose wait has failed finds no idle node. -/
def Allowed (p : Pool) : Label → Prop
  | .add com => com ≠ none ∧ com ∉ p.comNodes.map ComNode.node
  | .look i => p.calls[i]? = some (.looking false) → idleNodes p.comNodes = []
  | _ => True

instance decidableAllowed (p : Pool) : ∀ label, Decidable (Allowed p label)
  | .add _ => inferInstanceAs (Decidable (_ ∧ _))
  | .borrow _ _ => isTrue trivial
  | .release _ => isTrue trivial
  | .wait _ _ => isTrue trivial
  | .look _ => inferInstanceAs (Decidable (_ → _))

/-! ## The loops -/

section Loops

variable {nodes nodes' : List ComNode} {com : Nat}

/-- The pointers of the nodes that are lent. -/
def lent (nodes : List ComNode) : List (Option Nat) :=
  (nodes.filter fun n => n.stat = .busy).map ComNode.node

theorem takeIdle_none_iff : takeIdle nodes = none ↔ idleNodes nodes = [] := by
  induction nodes with
  | nil => exact ⟨fun _ => rfl, fun _ => rfl⟩
  | cons n rest ih =>
      cases isStat : n.stat with
      | idle => simp [takeIdle, idleNodes, isStat]
      | busy => simpa [takeIdle, idleNodes, isStat] using ih

/-- The first idle node is lent. -/
theorem takeIdle_some {taken : Option Nat × List ComNode} (found : takeIdle nodes = some taken) :
    taken.2.map ComNode.node = nodes.map ComNode.node ∧ taken.1 ∈ nodes.map ComNode.node ∧
      (lent taken.2).Perm (taken.1 :: lent nodes) ∧
      (idleNodes taken.2).length + 1 = (idleNodes nodes).length := by
  induction nodes generalizing taken with
  | nil => cases found
  | cons n rest ih =>
      cases isStat : n.stat with
      | idle =>
          rw [takeIdle, if_pos isStat] at found
          obtain rfl := Option.some.inj found
          simp [lent, idleNodes, isStat]
      | busy =>
          rw [takeIdle, if_neg (by simp [isStat])] at found
          obtain ⟨later, foundLater, rfl⟩ := Option.map_eq_some_iff.mp found
          obtain ⟨same, member, moved, fewer⟩ := ih foundLater
          refine ⟨by rw [List.map_cons, List.map_cons, same], List.mem_cons_of_mem _ member, ?_, ?_⟩
          · have lentCons : ∀ nodes, lent (n :: nodes) = n.node :: lent nodes := fun nodes => by
              simp [lent, isStat]
            rw [lentCons, lentCons]
            exact (moved.cons n.node).trans (List.Perm.swap ..)
          · simpa [idleNodes, isStat] using fewer

/-- A pointer that is lent, and in the pool once, is found. -/
theorem putIdle_lent (nodup : (nodes.map ComNode.node).Nodup) (isLent : some com ∈ lent nodes) :
    ∃ nodes', putIdle com nodes = some nodes' ∧
      nodes'.map ComNode.node = nodes.map ComNode.node ∧
      (lent nodes).Perm (some com :: lent nodes') ∧
      (idleNodes nodes').length = (idleNodes nodes).length + 1 := by
  induction nodes with
  | nil => exact absurd isLent List.not_mem_nil
  | cons n rest ih =>
      obtain ⟨fresh, nodup⟩ := List.nodup_cons.mp nodup
      by_cases same : n.node = some com
      · have isBusy : n.stat = .busy := by
          cases isStat : n.stat with
          | busy => rfl
          | idle =>
              have later : some com ∈ lent rest := by simpa [lent, isStat] using isLent
              obtain ⟨m, member, isNode⟩ := List.mem_map.mp later
              refine absurd ?_ fresh
              rw [same, ← isNode]
              exact List.mem_map_of_mem (List.mem_of_mem_filter member)
        rw [putIdle, if_pos same]
        refine ⟨_, rfl, rfl, ?_, ?_⟩
        · simp [lent, isBusy, same]
        · simp [idleNodes, isBusy]
      · have later : some com ∈ lent rest := by
          cases isStat : n.stat with
          | idle => simpa [lent, isStat] using isLent
          | busy => simpa [lent, isStat, Ne.symm same] using isLent
        obtain ⟨nodes', found, isSame, moved, more⟩ := ih nodup later
        rw [putIdle, if_neg same, found]
        refine ⟨_, rfl, by rw [List.map_cons, List.map_cons, isSame], ?_, ?_⟩
        · cases isStat : n.stat with
          | idle => simpa [lent, isStat] using moved
          | busy =>
              have lentCons : ∀ nodes, lent (n :: nodes) = n.node :: lent nodes := fun nodes => by
                simp [lent, isStat]
              rw [lentCons, lentCons]
              exact (moved.cons n.node).trans (List.Perm.swap ..)
        · cases isStat : n.stat with
          | idle => simpa [idleNodes, isStat] using more
          | busy => simpa [idleNodes, isStat] using more

end Loops

/-! ## The invariant -/

/-- The semaphore and the waits that have lowered it make up the idle nodes. -/
structure Inv (p : Pool) : Prop where
  nodup : (p.comNodes.map ComNode.node).Nodup
  real : none ∉ p.comNodes.map ComNode.node
  held : (p.held.map some).Perm (lent p.comNodes)
  sem : p.sem + p.calls.count (.looking true) = (idleNodes p.comNodes).length
  waited : ∀ b ∈ p.returned, b.waited = true → b.com ≠ none
  failed : ∀ b ∈ p.returned, b.waited = false → b.com = none ∧ b.changed = false

section Calls

variable {p p' : Pool} {call call' : Call}

/-- The order of the calls does not matter. -/
theorem Inv.perm {calls : List Call} (inv : Inv p) (same : calls.Perm p.calls) :
    Inv { p with calls := calls } :=
  { inv with
    sem := by
      rw [same.count_eq]
      exact inv.sem }

theorem Inv.sem_push (inv : Inv (push p call)) :
    p.sem + (p.calls.count (.looking true) + if call = .looking true then 1 else 0) =
      (idleNodes p.comNodes).length := by
  have sem := inv.sem
  simp only [push, List.count_cons, beq_iff_eq] at sem
  exact sem

/-- A call that has not lowered the semaphore begins, or goes on. -/
theorem Inv.start (inv : Inv p) (other : call ≠ .looking true) : Inv (push p call) :=
  { inv with
    sem := by
      rw [push, List.count_cons_of_ne other]
      exact inv.sem }

theorem Inv.drop (inv : Inv (push p call)) (other : call ≠ .looking true) : Inv p :=
  { inv with
    sem := by
      have sem := inv.sem_push
      rwa [if_neg other] at sem }

theorem wait_inv {ends : Option Timespec} {outcome : Wait} (inv : Inv (push p (.waiting ends)))
    (taken : wait p ends outcome = some p') : Inv p' := by
  have dropped := inv.drop nofun
  cases outcome with
  | succeeds =>
      obtain ⟨positive, isPool⟩ := Option.ite_none_right_eq_some.mp taken
      obtain rfl := Option.some.inj isPool
      exact
        { dropped with
          sem := by
            have sem := dropped.sem
            simp only [push, List.count_cons_self]
            omega }
  | interrupted =>
      obtain rfl := Option.some.inj taken
      exact inv
  | timesOut =>
      obtain ⟨-, isPool⟩ := Option.ite_none_right_eq_some.mp taken
      obtain rfl := Option.some.inj isPool
      exact dropped.start nofun
  | invalid =>
      obtain ⟨-, isPool⟩ := Option.ite_none_right_eq_some.mp taken
      obtain rfl := Option.some.inj isPool
      exact dropped.start nofun

theorem look_inv {waited : Bool} (inv : Inv (push p (.looking waited)))
    (allowed : waited = false → idleNodes p.comNodes = []) : Inv (look p waited) := by
  have sem := inv.sem_push
  unfold look
  cases waited with
  | false =>
      rw [takeIdle_none_iff.mpr (allowed rfl)]
      have dropped := inv.drop nofun
      exact
        { dropped with
          waited := by
            intro b member
            rcases List.mem_append.mp member with old | new
            · exact inv.waited b old
            · rw [List.mem_singleton.mp new]
              exact nofun
          failed := by
            intro b member
            rcases List.mem_append.mp member with old | new
            · exact inv.failed b old
            · rw [List.mem_singleton.mp new]
              exact fun _ => ⟨rfl, rfl⟩ }
  | true =>
      rw [if_pos rfl] at sem
      cases found : takeIdle p.comNodes with
      | none =>
          rw [takeIdle_none_iff.mp found, List.length_nil] at sem
          omega
      | some taken =>
          obtain ⟨same, member, moved, fewer⟩ := takeIdle_some found
          have real : taken.1 ≠ none := fun isNull => inv.real (isNull ▸ member)
          have held : ((taken.1.toList ++ p.held).map some).Perm (lent taken.2) := by
            obtain ⟨com, isCom⟩ := Option.ne_none_iff_exists'.mp real
            rw [isCom] at moved ⊢
            exact (inv.held.cons (some com)).trans moved.symm
          exact
            { nodup := by
                rw [same]
                exact inv.nodup
              real := by
                rw [same]
                exact inv.real
              held := held
              sem := by
                simp only
                omega
              waited := by
                intro b isReturned
                rcases List.mem_append.mp isReturned with old | new
                · exact inv.waited b old
                · rw [List.mem_singleton.mp new]
                  exact fun _ => real
              failed := by
                intro b isReturned
                rcases List.mem_append.mp isReturned with old | new
                · exact inv.failed b old
                · rw [List.mem_singleton.mp new]
                  exact nofun }

theorem add_inv {com : Option Nat} (inv : Inv p) (real : com ≠ none)
    (fresh : com ∉ p.comNodes.map ComNode.node) : Inv (add p com) := by
  unfold add
  split
  · exact inv
  · have nodes : (p.comNodes ++ [ComNode.mk .idle com]).map ComNode.node =
        p.comNodes.map ComNode.node ++ [com] := by simp
    have isLent : lent (p.comNodes ++ [ComNode.mk .idle com]) = lent p.comNodes := by
      simp [lent]
    exact
      { inv with
        nodup := by
          rw [nodes]
          refine (List.perm_append_singleton com _).nodup_iff.mpr ?_
          exact List.nodup_cons.mpr ⟨fresh, inv.nodup⟩
        real := by
          rw [nodes, List.mem_append, List.mem_singleton, not_or]
          exact ⟨inv.real, Ne.symm real⟩
        held := by
          rw [isLent]
          exact inv.held
        sem := by
          have sem := inv.sem
          simp only [idleNodes, List.filter_append, List.length_append] at sem ⊢
          simp only [List.filter_cons, decide_true, if_true, List.filter_nil, List.length_singleton]
          omega }

theorem release_inv {i com : Nat} (inv : Inv p) (atIndex : p.held[i]? = some com) :
    Inv (release { p with held := p.held.eraseIdx i } com) := by
  have others := perm_cons_eraseIdx atIndex
  have held : (some com :: (p.held.eraseIdx i).map some).Perm (lent p.comNodes) :=
    (others.map some).symm.trans inv.held
  have isLent : some com ∈ lent p.comNodes := held.mem_iff.mp List.mem_cons_self
  obtain ⟨nodes, found, same, moved, more⟩ := putIdle_lent inv.nodup isLent
  unfold release
  rw [found]
  exact
    { inv with
      nodup := by
        rw [same]
        exact inv.nodup
      real := by
        rw [same]
        exact inv.real
      held := (held.trans moved).cons_inv
      sem := by
        have sem := inv.sem
        simp only at sem ⊢
        omega }

end Calls

/-! ## Runs -/

section Runs

variable {p p' : Pool}

theorem step_inv {label : Label} (inv : Inv p) (allowed : Allowed p label)
    (taken : step p label = some p') : Inv p' := by
  cases label with
  | add com =>
      obtain rfl := Option.some.inj taken
      exact add_inv inv allowed.1 allowed.2
  | borrow waitms now =>
      obtain rfl := Option.some.inj taken
      unfold borrow
      split
      · exact inv.start nofun
      · exact inv.start nofun
  | release i =>
      obtain ⟨com, atIndex, rfl⟩ := Option.map_eq_some_iff.mp taken
      exact release_inv inv atIndex
  | wait i outcome =>
      rw [step] at taken
      split at taken
      · rename_i ends atIndex
        have opened : Inv (push { p with calls := p.calls.eraseIdx i } (.waiting ends)) :=
          inv.perm (perm_cons_eraseIdx atIndex).symm
        exact wait_inv opened taken
      · cases taken
  | look i =>
      rw [step] at taken
      split at taken
      · rename_i waited atIndex
        obtain rfl := Option.some.inj taken
        have opened : Inv (push { p with calls := p.calls.eraseIdx i } (.looking waited)) :=
          inv.perm (perm_cons_eraseIdx atIndex).symm
        exact look_inv opened fun failed => allowed (failed ▸ atIndex)
      · cases taken

/-- The pool is right in every state of a run whose steps are allowed. -/
theorem comPool_of_allowed (maxNodes : Int) (labels : List Label) (p : Pool)
    (allowed : Meets step Allowed (Pool.initial maxNodes) labels)
    (ran : exec step (Pool.initial maxNodes) labels = some p) : Correct p := by
  have start : Inv (Pool.initial maxNodes) :=
    ⟨List.nodup_nil, List.not_mem_nil, List.Perm.refl _, rfl, nofun, nofun⟩
  have inv := exec_invariant (fun p label p' inv => step_inv inv) start allowed ran
  refine ⟨?_, fun noCalls => ?_, inv.waited, inv.failed⟩
  · have lentOnce : (lent p.comNodes).Nodup := by
      refine List.Nodup.sublist ?_ inv.nodup
      exact List.filter_sublist.map ComNode.node
    exact (inv.held.nodup_iff.mpr lentOnce).of_map some
  · have sem := inv.sem
    rwa [noCalls, List.count_nil, add_zero] at sem

/-- A wait for a tenth of a second. -/
def timed : Label := .borrow 100 ⟨0, 0⟩

/-- One node is borrowed; another `Borrow` times out, and the node is released and borrowed again. -/
def lentRun : List Label :=
  [.add (some 1), timed, .wait 0 .succeeds, .look 0, timed, .wait 0 .timesOut, .look 0, .release 0,
    .borrow 0 ⟨0, 0⟩, .wait 0 .interrupted, .wait 0 .succeeds, .look 0]

theorem comPool_of_allowed_lent :
    ∃ p, exec step (Pool.initial 1) lentRun = some p ∧ p.held = [1] ∧ p.sem = 0 ∧
      p.returned = [⟨true, some 1, true⟩, ⟨false, none, false⟩, ⟨true, some 1, true⟩] ∧
      Correct p := by
  have allowed : Meets step Allowed (Pool.initial 1) lentRun := by decide
  exact ⟨_, rfl, rfl, rfl, rfl, comPool_of_allowed 1 lentRun _ allowed rfl⟩

/-- The node is released after a wait has timed out and before that `Borrow` looks. -/
def lateRun : List Label :=
  [.add (some 1), timed, .wait 0 .succeeds, .look 0, timed, .wait 0 .timesOut, .release 0, .look 0]

/-- A `Borrow` whose wait has timed out gets a node, the semaphore counts one more than there are
idle nodes, and the next `Borrow` gets none although its wait succeeds. -/
theorem timeout_takes :
    (∃ p, exec step (Pool.initial 1) lateRun = some p ∧ p.calls = [] ∧ p.sem = 1 ∧
      idleNodes p.comNodes = [] ∧ ⟨false, some 1, true⟩ ∈ p.returned ∧ ¬ Correct p) ∧
    ∃ p, exec step (Pool.initial 1) (lateRun ++ [timed, .wait 0 .succeeds, .look 0]) = some p ∧
      ⟨true, none, false⟩ ∈ p.returned ∧ ¬ Correct p := by
  refine ⟨⟨_, rfl, rfl, rfl, rfl, by decide, fun correct => ?_⟩,
    ⟨_, rfl, by decide, fun correct => ?_⟩⟩
  · exact absurd (correct.sem rfl) (by decide)
  · exact correct.waited ⟨true, none, false⟩ (by decide) rfl rfl

end Runs

end MlsImgSearch.Utils.ComPool
