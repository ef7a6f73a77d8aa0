import MlsImgSearch.Blitz.Framework

/-!
# Handles of closed connections

A task must reach no connection but the one that was registered under the
identifier the task carries. `SendMsg` compares the whole identifier with the
slot. `CloseIO` and `ReactivateIO` look at the file descriptor alone, so that a
queued task of an old connection meets whatever holds the slot by then.
-/

namespace MlsImgSearch.Blitz.StaleHandle

open MlsImgSearch.Lib.Run
open MlsImgSearch.Blitz.Framework

variable {η μ : Type}

/-! ## The table -/

/-- Slots in use hold registered connections, all other slots are blank. -/
structure TableInv (m : FdManager η) (registered : List (BitVec 64 × η)) : Prop where
  small : m.maxCount ≤ 2 ^ 24
  held : ∀ fd, (m.items fd).inUse = true →
    IoId.getFd (m.items fd).descriptor.ioId = fd ∧ (m.items fd).descriptor.ev = true ∧
      ∃ handler, (m.items fd).descriptor.handler = some handler ∧
        ((m.items fd).descriptor.ioId, handler) ∈ registered
  free : ∀ fd, (m.items fd).inUse = false → (m.items fd).descriptor = {}

/-- An effect of a task for `ioId` reaches a connection that was registered under `ioId`. -/
def Reaches (registered : List (BitVec 64 × η)) (ioId : BitVec 64) (e : Effect η μ) : Prop :=
  ∀ d, e.target = some d →
    d.ioId = ioId ∧ ∃ handler, d.handler = some handler ∧ (ioId, handler) ∈ registered

variable {m : FdManager η} {registered : List (BitVec 64 × η)}

theorem TableInv.initial (maxCount : Nat) (small : maxCount ≤ 2 ^ 24) :
    TableInv (FdManager.init maxCount : FdManager η) [] :=
  ⟨small, fun _ used => Bool.noConfusion used, fun _ _ => rfl⟩

theorem TableInv.mono {more : List (BitVec 64 × η)} (table : TableInv m registered)
    (sub : registered ⊆ more) : TableInv m more := by
  refine ⟨table.small, fun fd used => ?_, table.free⟩
  obtain ⟨home, ev, handler, isHandler, member⟩ := table.held fd used
  exact ⟨home, ev, handler, isHandler, sub member⟩

/-- Replacing one item keeps the invariant if the new item satisfies it. -/
theorem TableInv.setItem {item : Item η} {fd : Nat} (table : TableInv m registered)
    (held : item.inUse = true → IoId.getFd item.descriptor.ioId = fd ∧ item.descriptor.ev = true ∧
      ∃ handler, item.descriptor.handler = some handler ∧
        (item.descriptor.ioId, handler) ∈ registered)
    (free : item.inUse = false → item.descriptor = {}) :
    TableInv (m.setItem fd item) registered := by
  refine ⟨table.small, fun other used => ?_, fun other unused => ?_⟩
  · by_cases same : other = fd
    · subst same
      rw [FdManager.setItem_self] at used ⊢
      exact held used
    · rw [FdManager.setItem_other m item same] at used ⊢
      exact table.held other used
  · by_cases same : other = fd
    · subst same
      rw [FdManager.setItem_self] at unused ⊢
      exact free unused
    · rw [FdManager.setItem_other m item same] at unused ⊢
      exact table.free other unused

theorem TableInv.freeFd (table : TableInv m registered) (fd : Nat) :
    TableInv (m.freeFd fd) registered := by
  unfold FdManager.freeFd
  split
  · exact table
  · exact table.setItem (fun used => Bool.noConfusion used) (fun _ => rfl)

/-- Freeing a slot that is free already changes nothing. -/
theorem TableInv.freeFd_eq_self (table : TableInv m registered) {fd : Nat}
    (unused : (m.items fd).inUse = false) : m.freeFd fd = m := by
  unfold FdManager.freeFd
  split
  · rfl
  · have same : ({ m.items fd with inUse := false, descriptor := {} } : Item η) = m.items fd := by
      rw [← table.free fd unused, ← unused]
    rw [same, FdManager.setItem, Function.update_eq_self]

theorem nextSalt_freeFd (m : FdManager η) (fd other : Nat) :
    ((m.freeFd fd).items other).nextSalt = (m.items other).nextSalt := by
  unfold FdManager.freeFd
  split
  · rfl
  · by_cases same : other = fd
    · subst same
      rw [FdManager.setItem_self]
    · rw [FdManager.setItem_other m _ same]

theorem maxCount_freeFd (m : FdManager η) (fd : Nat) : (m.freeFd fd).maxCount = m.maxCount := by
  unfold FdManager.freeFd
  split <;> rfl

/-! ## One task -/

theorem target_of_mem_dismantle {d : FdDescriptor η} {e : Effect η μ} (member : e ∈ dismantle d) :
    e.target = some d := by
  rcases List.mem_append.mp member with event | handler
  · split at event
    · rw [List.mem_singleton.mp event]
      rfl
    · cases event
  · split at handler
    · rw [List.mem_singleton.mp handler]
      rfl
    · cases handler

/-- What `CloseIO` and `ReactivateIO` tasks must find in the slot of their file descriptor. -/
def CleanTask (m : FdManager η) : Task η μ → Prop
  | .closeIo ioId =>
      IoId.getFd ioId < m.maxCount ∧
        ((m.items (IoId.getFd ioId)).inUse = true →
          (m.items (IoId.getFd ioId)).descriptor.ioId = ioId)
  | .reactivateIo ioId =>
      IoId.getFd ioId = 0 ∨
        (IoId.getFd ioId < m.maxCount ∧ (m.items (IoId.getFd ioId)).inUse = true ∧
          (m.items (IoId.getFd ioId)).descriptor.ioId = ioId)
  | _ => True

/-- The task ran to its end, kept the table in order and touched nothing foreign. -/
structure Permitted (m : FdManager η) (registered : List (BitVec 64 × η)) (task : Task η μ)
    (o : Outcome η μ) : Prop where
  table : TableInv o.table (registered ++ registration task o.code)
  salts : ∀ fd, (o.table.items fd).nextSalt = (m.items fd).nextSalt
  count : o.table.maxCount = m.maxCount
  reaches : ∀ e ∈ o.effects, Reaches (registered ++ registration task o.code) task.ioId e
  gone : task.adds = none → m.getByIoId task.ioId = none →
    o.table = m ∧ ∀ e ∈ o.effects, e.target = none

theorem registration_of_adds_none {task : Task η μ} (noAdd : task.adds = none) (code : Int) :
    registration task code = [] := by
  rw [registration, noAdd]

/-- The same for a task that adds no connection. -/
theorem Permitted.ofNoAdd {task : Task η μ} {o : Outcome η μ} (noAdd : task.adds = none)
    (table : TableInv o.table registered)
    (salts : ∀ fd, (o.table.items fd).nextSalt = (m.items fd).nextSalt)
    (count : o.table.maxCount = m.maxCount)
    (reaches : ∀ e ∈ o.effects, Reaches registered task.ioId e)
    (gone : m.getByIoId task.ioId = none → o.table = m ∧ ∀ e ∈ o.effects, e.target = none) :
    Permitted m registered task o := by
  have same : registered ++ registration task o.code = registered := by
    rw [registration_of_adds_none noAdd, List.append_nil]
  exact ⟨by rw [same]; exact table, salts, count, by rw [same]; exact reaches, fun _ => gone⟩

/-- Effects on the descriptor that `GetByIoId` returns. -/
theorem TableInv.reaches_of_found (table : TableInv m registered) {ioId : BitVec 64}
    {d : FdDescriptor η} (found : m.getByIoId ioId = some d) {e : Effect η μ}
    (target : e.target = some d) : Reaches registered ioId e := by
  obtain ⟨-, used, rfl, same⟩ := FdManager.getByIoId_eq_some found
  obtain ⟨-, -, handler, isHandler, member⟩ := table.held _ used
  intro d' target'
  obtain rfl := Option.some.inj (target.symm.trans target')
  refine ⟨same, handler, isHandler, ?_⟩
  rw [same] at member
  exact member

theorem realSendMsg_permitted (table : TableInv m registered) (ioId : BitVec 64) (msg : μ)
    (sent : Bool) :
    ∃ o, realSendMsg m ioId msg sent = some o ∧
      Permitted m registered (.sendMsg ioId msg) o := by
  cases found : m.getByIoId ioId with
  | none =>
      refine ⟨⟨-1, m, [.release msg]⟩, by simp only [realSendMsg, found], ?_⟩
      refine .ofNoAdd rfl table (fun _ => rfl) rfl (fun e member d target => ?_)
        fun _ => ⟨rfl, fun e member => ?_⟩
      · rw [List.mem_singleton.mp member] at target
        cases target
      · rw [List.mem_singleton.mp member]
        rfl
  | some d =>
      obtain ⟨inside, used, isSlot, -⟩ := FdManager.getByIoId_eq_some found
      obtain ⟨-, -, handler, isHandler, -⟩ := table.held _ used
      have notNull : ¬ d.handler.isNone = true := by
        rw [isSlot, isHandler]
        exact Bool.false_ne_true
      have notGone : m.getByIoId ioId ≠ none := by
        rw [found]
        exact Option.some_ne_none d
      cases sent with
      | true =>
          refine ⟨⟨0, m, [.sendMsg d msg]⟩, by simp only [realSendMsg, found, if_neg notNull, if_true],
            ?_⟩
          refine .ofNoAdd rfl table (fun _ => rfl) rfl (fun e member => ?_)
            fun missing => absurd missing notGone
          rw [List.mem_singleton.mp member]
          exact table.reaches_of_found found rfl
      | false =>
          have slot : m.getFd (IoId.getFd ioId) = some d := by
            rw [FdManager.getFd, if_neg (Nat.not_le.mpr inside), isSlot]
          refine ⟨⟨0, m.freeFd (IoId.getFd ioId), .sendMsg d msg :: dismantle d⟩, ?_, ?_⟩
          · simp only [realSendMsg, found, if_neg notNull, Bool.false_eq_true, if_false, realDelFd,
              slot, Option.map_some]
          · refine .ofNoAdd rfl (table.freeFd _) (nextSalt_freeFd m _) (maxCount_freeFd m _)
              (fun e member => ?_) fun missing => absurd missing notGone
            refine table.reaches_of_found found ?_
            rcases List.mem_cons.mp member with rfl | later
            · rfl
            · exact target_of_mem_dismantle later

/-- `FdManager::GetByIoId` succeeds on a slot in use that holds the identifier. -/
theorem getByIoId_of_slot {ioId : BitVec 64} (inside : IoId.getFd ioId < m.maxCount)
    (used : (m.items (IoId.getFd ioId)).inUse = true)
    (same : (m.items (IoId.getFd ioId)).descriptor.ioId = ioId) :
    m.getByIoId ioId = some (m.items (IoId.getFd ioId)).descriptor := by
  rw [FdManager.getByIoId, if_neg (Nat.not_le.mpr inside), if_neg (by rw [used]; exact Bool.noConfusion),
    if_neg (not_not_intro same)]

theorem closeIO_permitted (table : TableInv m registered) {ioId : BitVec 64}
    (clean : CleanTask m (.closeIo ioId : Task η μ)) :
    ∃ o, realDelFd m (IoId.getFd ioId) = some o ∧
      Permitted m registered (.closeIo ioId : Task η μ) o := by
  obtain ⟨inside, own⟩ := clean
  have slot : m.getFd (IoId.getFd ioId) = some (m.items (IoId.getFd ioId)).descriptor := by
    rw [FdManager.getFd, if_neg (Nat.not_le.mpr inside)]
  refine ⟨_, by rw [realDelFd, slot]; rfl, ?_⟩
  refine .ofNoAdd rfl (table.freeFd _) (nextSalt_freeFd m _) (maxCount_freeFd m _) ?_ ?_
  · intro e member
    cases used : (m.items (IoId.getFd ioId)).inUse with
    | true =>
        exact table.reaches_of_found (getByIoId_of_slot inside used (own used))
          (target_of_mem_dismantle member)
    | false =>
        rw [table.free _ used] at member
        cases member
  · intro missing
    have unused : (m.items (IoId.getFd ioId)).inUse = false := by
      cases used : (m.items (IoId.getFd ioId)).inUse with
      | false => rfl
      | true =>
          have found := getByIoId_of_slot inside used (own used)
          exact absurd (found.symm.trans missing) (Option.some_ne_none _)
    refine ⟨table.freeFd_eq_self unused, fun e member => ?_⟩
    rw [table.free _ unused] at member
    cases member

/-- `RealCloseIO`, which compares the whole identifier, needs no condition on the slot. -/
theorem realCloseIO_permitted (table : TableInv m registered) (ioId : BitVec 64) :
    Permitted m registered (.closeIo ioId : Task η μ) (realCloseIo m ioId) := by
  unfold realCloseIo
  split
  · exact .ofNoAdd rfl table (fun _ => rfl) rfl (fun e member => by cases member)
      fun _ => ⟨rfl, fun e member => (by cases member)⟩
  · cases found : m.getByIoId ioId with
    | none =>
        exact .ofNoAdd rfl table (fun _ => rfl) rfl (fun e member => by cases member)
          fun _ => ⟨rfl, fun e member => (by cases member)⟩
    | some d =>
        refine .ofNoAdd rfl (table.freeFd _) (nextSalt_freeFd m _) (maxCount_freeFd m _)
          (fun e member => ?_) fun missing => ?_
        · exact table.reaches_of_found found (target_of_mem_dismantle member)
        · exact absurd (found.symm.trans missing) (Option.some_ne_none d)

theorem reactivateIO_permitted (table : TableInv m registered) {ioId : BitVec 64}
    (clean : CleanTask m (.reactivateIo ioId : Task η μ)) :
    ∃ o, realReaddFd m (IoId.getFd ioId) = some o ∧
      Permitted m registered (.reactivateIo ioId : Task η μ) o := by
  by_cases zero : IoId.getFd ioId ≤ 0
  · refine ⟨_, by rw [realReaddFd, if_pos zero], ?_⟩
    exact .ofNoAdd rfl table (fun _ => rfl) rfl (fun e member => by cases member)
      fun _ => ⟨rfl, fun e member => (by cases member)⟩
  · obtain ⟨inside, used, own⟩ : IoId.getFd ioId < m.maxCount ∧ _ ∧ _ :=
      clean.resolve_left fun isZero => zero (Nat.le_of_eq isZero)
    have found := getByIoId_of_slot inside used own
    have slot : m.getFd (IoId.getFd ioId) = some (m.items (IoId.getFd ioId)).descriptor := by
      rw [FdManager.getFd, if_neg (Nat.not_le.mpr inside)]
    have ev := (table.held _ used).2.1
    refine ⟨_, by rw [realReaddFd, if_neg zero, slot, Option.bind_some, if_pos ev], ?_⟩
    refine .ofNoAdd rfl table (fun _ => rfl) rfl (fun e member => ?_) fun missing => ?_
    · rw [List.mem_singleton.mp member]
      exact table.reaches_of_found found rfl
    · exact absurd (found.symm.trans missing) (Option.some_ne_none _)

/-- The item of a connection that takes the slot of a file descriptor. -/
def takenItem (m : FdManager η) (ioId : BitVec 64) (handler : η) (fnFree : Bool) : Item η :=
  { m.items (IoId.getFd ioId) with inUse := true, descriptor := describe ioId handler fnFree }

theorem TableInv.taken (table : TableInv m registered) (ioId : BitVec 64) (handler : η)
    (fnFree : Bool) :
    TableInv (m.setItem (IoId.getFd ioId) (takenItem m ioId handler fnFree))
      (registered ++ [(ioId, handler)]) := by
  refine (table.mono (List.subset_append_left _ _)).setItem (fun _ => ?_)
    (fun unused => Bool.noConfusion unused)
  exact ⟨rfl, rfl, handler, rfl, List.mem_append_right _ (List.mem_singleton_self _)⟩

theorem nextSalt_taken (m : FdManager η) (ioId : BitVec 64) (handler : η) (fnFree : Bool)
    (fd : Nat) :
    ((m.setItem (IoId.getFd ioId) (takenItem m ioId handler fnFree)).items fd).nextSalt =
      (m.items fd).nextSalt := by
  by_cases here : fd = IoId.getFd ioId
  · subst here
    rw [FdManager.setItem_self, takenItem]
  · rw [FdManager.setItem_other m _ here]

/-- `RealAddFd` on a free slot. -/
theorem realAddFd_free {ioId : BitVec 64} {m' : FdManager η} (valid : ¬ IoId.isValid ioId = false)
    (taken : m.use (IoId.getFd ioId) = some m') (handler : η) (fnFree : Bool) :
    (realAddFd m ioId handler fnFree true : Option (Outcome η μ)) =
        some ⟨0, m.setItem (IoId.getFd ioId) (takenItem m ioId handler fnFree), []⟩ ∧
      (realAddFd m ioId handler fnFree false : Option (Outcome η μ)) =
        some ⟨-3, (m.setItem (IoId.getFd ioId) (takenItem m ioId handler fnFree)).freeFd
          (IoId.getFd ioId), dismantle (describe ioId handler fnFree)⟩ := by
  obtain ⟨inside, rfl⟩ := FdManager.use_eq_some taken
  have slot : (m.setItem (IoId.getFd ioId) (takenItem m ioId handler fnFree)).getFd
      (IoId.getFd ioId) = some (describe ioId handler fnFree) := by
    rw [FdManager.getFd, FdManager.setItem_maxCount, if_neg (Nat.not_le.mpr inside),
      FdManager.setItem_self, takenItem]
  have filled : ({ m.items (IoId.getFd ioId) with
      inUse := true, descriptor := describe ioId handler fnFree } : Item η) =
      takenItem m ioId handler fnFree := rfl
  constructor
  · simp only [realAddFd, if_neg valid, taken, FdManager.setItem_self, FdManager.setItem_setItem,
      if_true, filled]
  · simp only [realAddFd, if_neg valid, taken, FdManager.setItem_self, FdManager.setItem_setItem,
      Bool.false_eq_true, if_false, realDelFd, filled, slot, Option.map_some]

theorem addCallback_permitted (table : TableInv m registered) (task : Task η μ) {handler : η}
    (adds : task.adds = some handler) (fnFree : Bool) {before : List (Effect η μ)}
    (harmless : ∀ e ∈ before, e.target = none) (added : Bool) :
    ∃ o, addCallback m task.ioId handler fnFree before added = some o ∧
      Permitted m registered task o := by
  have plain : ∀ (code : Int) (more : List (BitVec 64 × η)) (e : Effect η μ),
      e ∈ before ++ (if code ≠ 0 && fnFree then [.freeArgument handler] else []) →
        Reaches more task.ioId e := by
    intro code more e member d target
    rcases List.mem_append.mp member with first | last
    · rw [harmless e first] at target
      cases target
    · split at last
      · rw [List.mem_singleton.mp last] at target
        cases target
      · cases last
  have notGone : task.adds ≠ none := by
    rw [adds]
    exact Option.some_ne_none handler
  unfold addCallback
  by_cases invalid : IoId.isValid task.ioId = false
  · have failed : (realAddFd m task.ioId handler fnFree added : Option (Outcome η μ)) =
        some ⟨kInvalidParam, m, []⟩ := by rw [realAddFd, if_pos invalid]
    refine ⟨_, by rw [failed]; rfl, table.mono (List.subset_append_left _ _), fun _ => rfl, rfl,
      fun e member => plain kInvalidParam _ e member, fun noAdd => absurd noAdd notGone⟩
  · cases taken : m.use (IoId.getFd task.ioId) with
    | none =>
        have failed : (realAddFd m task.ioId handler fnFree added : Option (Outcome η μ)) =
            some ⟨-2, m, []⟩ := by simp only [realAddFd, if_neg invalid, taken]
        refine ⟨_, by rw [failed]; rfl, table.mono (List.subset_append_left _ _), fun _ => rfl, rfl,
          fun e member => plain (-2) _ e member, fun noAdd => absurd noAdd notGone⟩
    | some m' =>
        have grown : ∀ code : Int, code = 0 ∨ code = -3 →
            registration task code = [(task.ioId, handler)] := fun code early => by
          simp only [registration, adds, if_pos early]
        obtain ⟨succeeds, fails⟩ :=
          (realAddFd_free invalid taken handler fnFree : _ = some (_ : Outcome η μ) ∧ _)
        have table' := table.taken task.ioId handler fnFree
        cases added with
        | true =>
            refine ⟨_, by rw [succeeds]; rfl, ?_, nextSalt_taken m _ _ _, rfl,
              fun e member => plain 0 _ e member, fun noAdd => absurd noAdd notGone⟩
            rw [grown _ (Or.inl rfl)]
            exact table'
        | false =>
            refine ⟨_, by rw [fails]; rfl, ?_, ?_, maxCount_freeFd _ _, ?_,
              fun noAdd => absurd noAdd notGone⟩
            · rw [grown _ (Or.inr rfl)]
              exact table'.freeFd _
            · intro fd
              rw [nextSalt_freeFd, nextSalt_taken]
            · dsimp only
              intro e member
              rw [List.append_assoc] at member
              rcases List.mem_append.mp member with own | rest
              · intro d target
                obtain rfl := Option.some.inj ((target_of_mem_dismantle own).symm.trans target)
                refine ⟨rfl, handler, rfl, ?_⟩
                rw [grown _ (Or.inr rfl)]
                exact List.mem_append_right _ (List.mem_singleton_self _)
              · exact plain (-3) _ e rest

/-- Every task that finds its slot in order ends and keeps to its own connection. -/
theorem callback_permitted (table : TableInv m registered) (task : Task η μ) (ok : Bool)
    (clean : CleanTask m task) :
    ∃ o, callback m ok task = some o ∧ Permitted m registered task o := by
  cases task with
  | sendMsg ioId msg => exact realSendMsg_permitted table ioId msg ok
  | closeIo ioId => exact closeIO_permitted table clean
  | reactivateIo ioId => exact reactivateIO_permitted table clean
  | addIo ioId handler fnFree =>
      exact addCallback_permitted table (.addIo ioId handler fnFree) rfl fnFree
        (fun e member => by cases member) ok
  | addAcceptTcp ioId conn =>
      refine addCallback_permitted table (.addAcceptTcp ioId conn) rfl true (fun e member => ?_) ok
      rw [List.mem_singleton.mp member]
      rfl
  | addTcpConn ioId conn =>
      exact addCallback_permitted table (.addTcpConn ioId conn) rfl true
        (fun e member => by cases member) ok
  | addTcpServ ioId serv =>
      exact addCallback_permitted table (.addTcpServ ioId serv) rfl true
        (fun e member => by cases member) ok

/-! ## Identifiers are used once -/

/-- `1` if the task registers a connection under `ioId`. -/
def addsFor (ioId : BitVec 64) (task : Task η μ) : Nat :=
  if task.adds.isSome ∧ task.ioId = ioId then 1 else 0

/-- The tasks of a queue that register a connection under `ioId`. -/
def adding (ioId : BitVec 64) (queue : List (Task η μ)) : Nat := (queue.map (addsFor ioId)).sum

/-- How often an identifier was, or can still be, registered. -/
def uses (s : State η μ) (ioId : BitVec 64) : Nat :=
  s.issued.count ioId + adding ioId (s.taskQueue (IoId.getFd ioId % s.threadCount)) +
    (s.registered.map Prod.fst).count ioId

/-- The salt of the identifier was handed out for its file descriptor. -/
def Issued (m : FdManager η) (ioId : BitVec 64) : Prop :=
  IoId.getFd ioId < m.maxCount ∧
    (IoId.getSalt ioId).toNat ≤ (m.items (IoId.getFd ioId)).nextSalt.toNat

structure Inv (s : State η μ) : Prop where
  alive : s.crashed = false
  table : TableInv s.fdManager s.registered
  homes : ∀ thread, ∀ task ∈ s.taskQueue thread, thread = IoId.getFd task.ioId % s.threadCount
  once : ∀ ioId, uses s ioId ≤ 1
  issued : ∀ ioId, 0 < uses s ioId → Issued s.fdManager ioId
  applied : ∀ a ∈ s.applied, Reaches s.registered a.1 a.2

theorem Inv.initial {maxCount : Nat} (small : maxCount ≤ 2 ^ 24) (threadCount : Nat) :
    Inv (State.initial maxCount threadCount : State η μ) :=
  ⟨rfl, TableInv.initial maxCount small, fun _ _ member => (by cases member),
    fun _ => Nat.zero_le _, fun _ positive => absurd positive (Nat.lt_irrefl 0),
    fun _ member => (by cases member)⟩

theorem addsFor_eq_zero {task : Task η μ} (noAdd : task.adds = none) (ioId : BitVec 64) :
    addsFor ioId task = 0 := by
  rw [addsFor, if_neg]
  rintro ⟨isSome, -⟩
  rw [noAdd] at isSome
  cases isSome

theorem Reaches.mono {more : List (BitVec 64 × η)} {ioId : BitVec 64} {e : Effect η μ}
    (reaches : Reaches registered ioId e) (sub : registered ⊆ more) : Reaches more ioId e := by
  intro d target
  obtain ⟨same, handler, isHandler, member⟩ := reaches d target
  exact ⟨same, handler, isHandler, sub member⟩

/-- A task registers its connection at most once. -/
theorem count_registration_le (task : Task η μ) (code : Int) (ioId : BitVec 64) :
    ((registration task code).map Prod.fst).count ioId ≤ addsFor ioId task := by
  unfold registration addsFor
  cases task.adds with
  | none => exact Nat.zero_le _
  | some handler =>
      dsimp only
      split
      · by_cases same : task.ioId = ioId
        · simp [same]
        · simp [same]
      · exact Nat.zero_le _

variable {s : State η μ}

theorem uses_postTask (s : State η μ) (task : Task η μ) (ioId : BitVec 64) :
    uses (postTask s task) ioId = uses s ioId + addsFor ioId task := by
  unfold uses postTask
  dsimp only
  by_cases home : IoId.getFd ioId % s.threadCount = IoId.getFd task.ioId % s.threadCount
  · rw [home, Function.update_self]
    simp only [adding, List.map_append, List.sum_append, List.map_cons, List.map_nil,
      List.sum_cons, List.sum_nil]
    omega
  · have other : addsFor ioId task = 0 := by
      rw [addsFor, if_neg]
      rintro ⟨-, rfl⟩
      exact home rfl
    rw [Function.update_of_ne home, other]
    rfl

theorem homes_postTask (inv : Inv s) (task : Task η μ) :
    ∀ thread, ∀ t ∈ (postTask s task).taskQueue thread,
      thread = IoId.getFd t.ioId % s.threadCount := by
  intro thread t member
  unfold postTask at member
  dsimp only at member
  by_cases here : thread = IoId.getFd task.ioId % s.threadCount
  · subst here
    rw [Function.update_self] at member
    rcases List.mem_append.mp member with old | new
    · exact inv.homes _ t old
    · rw [List.mem_singleton.mp new]
  · rw [Function.update_of_ne here] at member
    exact inv.homes thread t member

/-- Posting keeps the invariant while the identifier of an added connection is unused. -/
theorem postTask_inv (inv : Inv s) {task : Task η μ}
    (fresh : ∀ ioId, uses s ioId + addsFor ioId task ≤ 1)
    (known : ∀ ioId, 0 < addsFor ioId task → Issued s.fdManager ioId) : Inv (postTask s task) := by
  refine ⟨inv.alive, inv.table, homes_postTask inv task, fun ioId => ?_, fun ioId positive => ?_,
    inv.applied⟩
  · rw [uses_postTask]
    exact fresh ioId
  · rw [uses_postTask] at positive
    rcases Nat.eq_zero_or_pos (uses s ioId) with unused | used
    · exact known ioId (by omega)
    · exact inv.issued ioId used

theorem postTask_inv_of_noAdd (inv : Inv s) {task : Task η μ} (noAdd : task.adds = none) :
    Inv (postTask s task) := by
  refine postTask_inv inv (fun ioId => ?_) (fun ioId positive => ?_)
  · rw [addsFor_eq_zero noAdd]
    exact inv.once ioId
  · rw [addsFor_eq_zero noAdd] at positive
    exact absurd positive (Nat.lt_irrefl 0)

theorem postValid_inv (inv : Inv s) {task : Task η μ} (posted : Inv (postTask s task)) :
    Inv (postValid s task) := by
  unfold postValid
  split
  · exact posted
  · exact inv

/-- A task is taken from its queue, or called directly, and runs. -/
theorem perform_inv (inv : Inv s) {queue : Nat → List (Task η μ)} {task : Task η μ} (ok : Bool)
    (shorter : ∀ thread, queue thread ⊆ s.taskQueue thread)
    (budget : ∀ ioId, adding ioId (queue (IoId.getFd ioId % s.threadCount)) + addsFor ioId task ≤
      adding ioId (s.taskQueue (IoId.getFd ioId % s.threadCount)))
    (clean : CleanTask s.fdManager task) :
    Inv (perform { s with taskQueue := queue } task ok) := by
  obtain ⟨o, done, permitted⟩ := callback_permitted inv.table task ok clean
  have result : perform { s with taskQueue := queue } task ok =
      { s with
        taskQueue := queue
        fdManager := o.table
        registered := s.registered ++ registration task o.code
        applied := s.applied ++ o.effects.map fun e => (task.ioId, e) } := by
    simp only [perform, done]
  have within : ∀ ioId, uses (perform { s with taskQueue := queue } task ok) ioId ≤ uses s ioId := by
    intro ioId
    have own := count_registration_le task o.code ioId
    have left := budget ioId
    rw [result]
    simp only [uses, List.map_append, List.count_append]
    omega
  refine ⟨?_, ?_, ?_, fun ioId => Nat.le_trans (within ioId) (inv.once ioId),
    fun ioId positive => ?_, ?_⟩
  · rw [result]
    exact inv.alive
  · rw [result]
    exact permitted.table
  · rw [result]
    exact fun thread t member => inv.homes thread t (shorter thread member)
  · obtain ⟨inside, salt⟩ := inv.issued ioId (Nat.lt_of_lt_of_le positive (within ioId))
    rw [result]
    refine ⟨by rw [permitted.count]; exact inside, ?_⟩
    rw [permitted.salts]
    exact salt
  · rw [result]
    intro a member
    rcases List.mem_append.mp member with old | new
    · exact (inv.applied a old).mono (List.subset_append_left _ _)
    · obtain ⟨e, isEffect, rfl⟩ := List.mem_map.mp new
      exact permitted.reaches e isEffect

/-! ## Issuing identifiers -/

theorem addsFor_le_one (ioId : BitVec 64) (task : Task η μ) : addsFor ioId task ≤ 1 := by
  unfold addsFor
  split <;> decide

theorem ioId_of_addsFor {ioId : BitVec 64} {task : Task η μ} (positive : 0 < addsFor ioId task) :
    task.ioId = ioId := by
  unfold addsFor at positive
  split at positive
  · next both => exact both.2
  · cases positive

/-- Posting the add task of an identifier that nothing uses yet. -/
theorem postFresh_inv (inv : Inv s) {task : Task η μ} (unused : uses s task.ioId = 0)
    (known : Issued s.fdManager task.ioId) : Inv (postTask s task) := by
  refine postTask_inv inv (fun ioId => ?_) (fun ioId positive => ?_)
  · by_cases same : task.ioId = ioId
    · subst same
      rw [unused, Nat.zero_add]
      exact addsFor_le_one _ task
    · have other : addsFor ioId task = 0 := by rw [addsFor, if_neg fun both => same both.2]
      rw [other]
      exact inv.once ioId
  · rw [← ioId_of_addsFor positive]
    exact known

/-- `AssignFdIoId` hands out an identifier that nothing used before, as long as the salt of the
file descriptor does not wrap around. -/
theorem assignFdIoId_fresh (inv : Inv s) {fd : Nat} (inside : fd < s.fdManager.maxCount)
    (room : (s.fdManager.items fd).nextSalt.toNat + 1 < 2 ^ 32)
    (next : State η μ → BitVec 64 → State η μ) :
    ∃ m' ioId, assignFdIoId s fd next = next { s with fdManager := m' } ioId ∧
      Inv { s with fdManager := m' } ∧ uses s ioId = 0 ∧ Issued m' ioId := by
  have fdSmall : fd < 2 ^ 24 := Nat.lt_of_lt_of_le inside inv.table.small
  have salted : s.fdManager.nextSalt fd = some ((s.fdManager.items fd).nextSalt + 1,
      s.fdManager.setItem fd
        { s.fdManager.items fd with nextSalt := (s.fdManager.items fd).nextSalt + 1 }) := by
    rw [FdManager.nextSalt, if_neg (Nat.not_le.mpr inside)]
  have value : ((s.fdManager.items fd).nextSalt + 1).toNat =
      (s.fdManager.items fd).nextSalt.toNat + 1 := by
    rw [BitVec.toNat_add]
    exact Nat.mod_eq_of_lt room
  have isFd := IoId.getFd_ioIdFromFd fdSmall ((s.fdManager.items fd).nextSalt + 1)
  have isSalt := IoId.getSalt_ioIdFromFd fdSmall ((s.fdManager.items fd).nextSalt + 1)
  refine ⟨_, _, by rw [assignFdIoId, salted], ?_, ?_, ?_⟩
  · refine ⟨inv.alive, ?_, inv.homes, inv.once, fun ioId positive => ?_, inv.applied⟩
    · exact inv.table.setItem (inv.table.held fd) (inv.table.free fd)
    · obtain ⟨inRange, salt⟩ := inv.issued ioId positive
      refine ⟨inRange, ?_⟩
      dsimp only
      by_cases here : IoId.getFd ioId = fd
      · rw [here] at salt ⊢
        rw [FdManager.setItem_self, value]
        exact Nat.le_succ_of_le salt
      · rw [FdManager.setItem_other _ _ here]
        exact salt
  · refine Nat.eq_zero_of_not_pos fun positive => ?_
    have old := (inv.issued _ positive).2
    rw [isFd, isSalt, value] at old
    omega
  · refine ⟨by rw [isFd]; exact inside, ?_⟩
    refine Nat.le_of_eq ?_
    rw [isFd, isSalt, FdManager.setItem_self]

theorem issue_inv (inv : Inv s) {ioId : BitVec 64} (unused : uses s ioId = 0)
    (known : Issued s.fdManager ioId) : Inv { s with issued := ioId :: s.issued } := by
  have grown : ∀ other, uses { s with issued := ioId :: s.issued } other =
      uses s other + if ioId = other then 1 else 0 := by
    intro other
    simp only [uses, List.count_cons, beq_iff_eq]
    omega
  refine ⟨inv.alive, inv.table, inv.homes, fun other => ?_, fun other positive => ?_, inv.applied⟩
  · rw [grown]
    by_cases same : ioId = other
    · refine Nat.le_of_eq ?_
      rw [← same, unused, if_pos rfl]
    · rw [if_neg same]
      exact inv.once other
  · rw [grown] at positive
    by_cases same : ioId = other
    · rw [← same]
      exact known
    · rw [if_neg same] at positive
      exact inv.issued other positive

/-- `AddIO` takes its identifier out of the issued ones. -/
theorem addIO_inv (inv : Inv s) {ioId : BitVec 64} (pending : ioId ∈ s.issued) (handler : η)
    (fnFree : Bool) :
    Inv (postValid { s with issued := s.issued.filter (· ≠ ioId) } (.addIo ioId handler fnFree)) := by
  have own : 0 < s.issued.count ioId := List.count_pos_iff.mpr pending
  have less : ∀ other, uses { s with issued := s.issued.filter (· ≠ ioId) } other +
      (if ioId = other then 1 else 0) ≤ uses s other := by
    intro other
    simp only [uses]
    by_cases same : ioId = other
    · subst same
      have none' : (s.issued.filter (· ≠ ioId)).count ioId = 0 :=
        List.count_eq_zero.mpr fun member => by simp at member
      rw [none', if_pos rfl]
      omega
    · have smaller : (s.issued.filter (· ≠ ioId)).count other ≤ s.issued.count other :=
        List.Sublist.count_le _ List.filter_sublist
      rw [if_neg same]
      omega
  have kept : Inv { s with issued := s.issued.filter (· ≠ ioId) } := by
    refine ⟨inv.alive, inv.table, inv.homes, fun other => ?_, fun other positive => ?_, inv.applied⟩
    · exact Nat.le_trans (Nat.le_of_add_right_le (less other)) (inv.once other)
    · exact inv.issued other (Nat.lt_of_lt_of_le positive (Nat.le_of_add_right_le (less other)))
  have budget : ∀ other, addsFor other (.addIo ioId handler fnFree : Task η μ) =
      if ioId = other then 1 else 0 := by
    intro other
    simp [addsFor, Task.adds, Task.ioId]
  refine postValid_inv kept (postTask_inv kept (fun other => ?_) fun other positive => ?_)
  · rw [budget]
    exact Nat.le_trans (less other) (inv.once other)
  · refine inv.issued other (Nat.lt_of_lt_of_le ?_ (less other))
    rw [← budget]
    exact Nat.lt_of_lt_of_le positive (Nat.le_add_left _ _)

/-! ## Runs -/

/-- Fewer than `2 ^ 32` identifiers for each file descriptor of the table, and `AddIO` is called
with an identifier that `AssignFdIoId` returned, once. -/
def InDomain (s : State η μ) : Label η μ → Prop
  | .assignFdIoId fd | .connect fd _ _ | .bind fd _ | .accept fd _ =>
      fd < s.fdManager.maxCount ∧ (s.fdManager.items fd).nextSalt.toNat + 1 < 2 ^ 32
  | .addIo ioId _ _ => ioId ∈ s.issued
  | _ => True

/-- The task that runs next finds its slot in order. -/
def Clean (s : State η μ) : Label η μ → Prop
  | .runTask thread _ => ∀ task ∈ (s.taskQueue thread).head?, CleanTask s.fdManager task
  | _ => True

instance decidableCleanTask (m : FdManager η) : DecidablePred (CleanTask m : Task η μ → Prop)
  | .closeIo _ => inferInstanceAs (Decidable (_ ∧ _))
  | .reactivateIo _ => inferInstanceAs (Decidable (_ ∨ _))
  | .sendMsg .. | .addIo .. | .addAcceptTcp .. | .addTcpConn .. | .addTcpServ .. => isTrue trivial

instance decidableInDomain (s : State η μ) : DecidablePred (InDomain s)
  | .assignFdIoId _ | .connect .. | .bind .. | .accept .. => inferInstanceAs (Decidable (_ ∧ _))
  | .addIo ioId _ _ => inferInstanceAs (Decidable (ioId ∈ s.issued))
  | .sendMsg .. | .closeIo _ | .reactivateIo _ | .runTask .. | .libeventCallback .. => isTrue trivial

instance decidableClean (s : State η μ) : DecidablePred (Clean s)
  | .runTask thread _ =>
      inferInstanceAs (Decidable (∀ task ∈ (s.taskQueue thread).head?, CleanTask s.fdManager task))
  | .assignFdIoId _ | .connect .. | .bind .. | .accept .. | .addIo .. | .sendMsg .. | .closeIo _
  | .reactivateIo _ | .libeventCallback .. => isTrue trivial

theorem step_inv {s' : State η μ} {label : Label η μ} (inv : Inv s)
    (permitted : InDomain s label ∧ Clean s label) (done : next s label = some s') : Inv s' := by
  obtain ⟨domain, clean⟩ := permitted
  rw [next, inv.alive, if_neg Bool.false_ne_true] at done
  cases label with
  | assignFdIoId fd =>
      obtain ⟨m', ioId, assigned, kept, unused, known⟩ := assignFdIoId_fresh inv domain.1 domain.2
        fun s' ioId => { s' with issued := ioId :: s'.issued }
      rw [step, assigned] at done
      obtain rfl := Option.some.inj done
      exact issue_inv kept unused known
  | connect fd conn connected =>
      obtain ⟨m', ioId, assigned, kept, unused, known⟩ := assignFdIoId_fresh inv domain.1 domain.2
        fun s' ioId => if connected then postTask s' (.addTcpConn ioId conn) else s'
      rw [step, assigned] at done
      obtain rfl := Option.some.inj done
      split
      · exact postFresh_inv kept unused known
      · exact kept
  | bind fd serv =>
      obtain ⟨m', ioId, assigned, kept, unused, known⟩ := assignFdIoId_fresh inv domain.1 domain.2
        fun s' ioId => postTask s' (.addTcpServ ioId serv)
      rw [step, assigned] at done
      obtain rfl := Option.some.inj done
      exact postFresh_inv kept unused known
  | accept fd conn =>
      obtain ⟨m', ioId, assigned, kept, unused, known⟩ :=
        assignFdIoId_fresh inv domain.1 domain.2
          fun s' ioId => postValid s' (.addAcceptTcp ioId conn)
      rw [step, assigned] at done
      obtain rfl := Option.some.inj done
      exact postValid_inv kept (postFresh_inv kept unused known)
  | addIo ioId handler fnFree =>
      rw [step] at done
      obtain rfl := Option.some.inj done
      exact addIO_inv inv domain handler fnFree
  | sendMsg thread ioId msg sent =>
      rw [step] at done
      split at done
      · obtain rfl := Option.some.inj done
        exact inv
      · split at done
        · obtain rfl := Option.some.inj done
          exact perform_inv inv sent (fun _ => List.Subset.refl _)
            (fun other => Nat.le_of_eq (by rw [addsFor_eq_zero rfl, Nat.add_zero])) trivial
        · obtain rfl := Option.some.inj done
          exact postTask_inv_of_noAdd inv rfl
  | closeIo ioId =>
      rw [step] at done
      obtain rfl := Option.some.inj done
      exact postValid_inv inv (postTask_inv_of_noAdd inv rfl)
  | reactivateIo ioId =>
      rw [step] at done
      obtain rfl := Option.some.inj done
      exact postValid_inv inv (postTask_inv_of_noAdd inv rfl)
  | runTask thread ok =>
      rw [step] at done
      cases queued : s.taskQueue thread with
      | nil =>
          rw [queued] at done
          cases done
      | cons task rest =>
          rw [queued] at done
          obtain rfl := Option.some.inj done
          have home := inv.homes thread task (by rw [queued]; exact List.mem_cons_self ..)
          refine perform_inv inv ok (fun other => ?_) (fun ioId => ?_)
            (clean task (by rw [queued]; rfl))
          · by_cases here : other = thread
            · subst here
              rw [Function.update_self, queued]
              exact List.subset_cons_self ..
            · rw [Function.update_of_ne here]
              exact List.Subset.refl _
          · by_cases here : IoId.getFd ioId % s.threadCount = thread
            · rw [here, Function.update_self, queued]
              simp only [adding, List.map_cons, List.sum_cons]
              omega
            · have other : addsFor ioId task = 0 := by
                rw [addsFor, if_neg]
                rintro ⟨-, rfl⟩
                exact here home.symm
              rw [Function.update_of_ne here, other]
              exact Nat.le_refl _
  | libeventCallback fd ok =>
      rw [step] at done
      split at done
      · cases done
      · next live =>
          split at done
          · obtain rfl := Option.some.inj done
            exact inv
          · have inside : fd < s.fdManager.maxCount := Nat.lt_of_not_le fun out => live (Or.inl out)
            have deleted : (realDelFd s.fdManager fd : Option (Outcome η μ)) =
                some ⟨0, s.fdManager.freeFd fd, dismantle (s.fdManager.items fd).descriptor⟩ := by
              rw [realDelFd, FdManager.getFd, if_neg (Nat.not_le.mpr inside)]
              rfl
            rw [deleted] at done
            obtain rfl := Option.some.inj done
            refine ⟨inv.alive, inv.table.freeFd fd, inv.homes, inv.once, fun ioId positive => ?_,
              inv.applied⟩
            obtain ⟨inRange, salt⟩ := inv.issued ioId positive
            refine ⟨by rw [maxCount_freeFd]; exact inRange, ?_⟩
            rw [nextSalt_freeFd]
            exact salt

/-- Every effect of a task reached the one connection that was registered under its identifier. -/
def OwnEffects (s : State η μ) : Prop :=
  ∀ a ∈ s.applied, ∀ d, a.2.target = some d →
    d.ioId = a.1 ∧ ∃ handler, d.handler = some handler ∧
      ∀ other, (a.1, other) ∈ s.registered ↔ other = handler

/-- The task that a label runs, from a queue or directly. -/
def running (s : State η μ) : Label η μ → Option (Task η μ)
  | .runTask thread _ => (s.taskQueue thread).head?
  | .sendMsg thread ioId msg _ =>
      if IoId.isValid ioId = true ∧ (IoId.getFd ioId % s.threadCount : Nat) = thread then
        some (.sendMsg ioId msg)
      else none
  | _ => none

/-- No connection is reached and the table stays as it is. -/
def Untouched (s s' : State η μ) : Prop :=
  s'.crashed = false ∧ s'.fdManager = s.fdManager ∧ s'.registered = s.registered ∧
    ∃ new, s'.applied = s.applied ++ new ∧ ∀ a ∈ new, a.2.target = none

/-- A message, a close or a reactivation for a connection that is gone changes nothing. -/
def GoneIsNoop (s : State η μ) : Prop :=
  ∀ label task s', InDomain s label ∧ Clean s label → running s label = some task →
    task.adds = none → s.fdManager.getByIoId task.ioId = none → next s label = some s' →
      Untouched s s'

theorem snd_eq_of_count {α β : Type} [DecidableEq α] {l : List (α × β)} {a : α} {b c : β}
    (once : (l.map Prod.fst).count a ≤ 1) (first : (a, b) ∈ l) (second : (a, c) ∈ l) : b = c := by
  induction l with
  | nil => cases first
  | cons x rest ih =>
      rw [List.map_cons, List.count_cons] at once
      have here : ∀ y, (a, y) ∈ rest → 0 < (rest.map Prod.fst).count a := fun y member =>
        List.count_pos_iff.mpr (List.mem_map.mpr ⟨(a, y), member, rfl⟩)
      rcases List.mem_cons.mp first with rfl | first'
      · rcases List.mem_cons.mp second with same | second'
        · exact (congrArg Prod.snd same).symm
        · have := here c second'
          simp only [beq_self_eq_true, if_true] at once
          omega
      · rcases List.mem_cons.mp second with rfl | second'
        · have := here b first'
          simp only [beq_self_eq_true, if_true] at once
          omega
        · exact ih (by omega) first' second'

theorem Inv.ownEffects (inv : Inv s) : OwnEffects s := by
  intro a member d target
  obtain ⟨same, handler, isHandler, isRegistered⟩ := inv.applied a member d target
  refine ⟨same, handler, isHandler, fun other => ⟨fun also => ?_, fun isOther => ?_⟩⟩
  · exact snd_eq_of_count (Nat.le_trans (Nat.le_add_left _ _) (inv.once a.1)) also isRegistered
  · rw [isOther]
    exact isRegistered

theorem perform_untouched (inv : Inv s) {queue : Nat → List (Task η μ)} {task : Task η μ}
    (ok : Bool) (clean : CleanTask s.fdManager task) (noAdd : task.adds = none)
    (gone : s.fdManager.getByIoId task.ioId = none) :
    Untouched s (perform { s with taskQueue := queue } task ok) := by
  obtain ⟨o, done, permitted⟩ := callback_permitted inv.table task ok clean
  obtain ⟨same, harmless⟩ := permitted.gone noAdd gone
  simp only [perform, done]
  refine ⟨inv.alive, same, ?_, o.effects.map fun e => (task.ioId, e), rfl, fun a member => ?_⟩
  · rw [registration_of_adds_none noAdd, List.append_nil]
  · obtain ⟨e, isEffect, rfl⟩ := List.mem_map.mp member
    exact harmless e isEffect

theorem Inv.goneIsNoop (inv : Inv s) : GoneIsNoop s := by
  intro label task s' permitted runs noAdd gone done
  rw [next, inv.alive, if_neg Bool.false_ne_true] at done
  cases label with
  | runTask thread ok =>
      rw [step] at done
      cases queued : s.taskQueue thread with
      | nil =>
          rw [queued] at done
          cases done
      | cons first rest =>
          rw [running, queued] at runs
          obtain rfl : first = task := Option.some.inj runs
          rw [queued] at done
          obtain rfl := Option.some.inj done
          exact perform_untouched inv ok (permitted.2 first (by rw [queued]; rfl)) noAdd gone
  | sendMsg thread ioId msg sent =>
      rw [running] at runs
      split at runs
      · next direct =>
          obtain rfl := Option.some.inj runs
          rw [step, if_neg (by rw [direct.1]; exact Bool.noConfusion), if_pos direct.2] at done
          obtain rfl := Option.some.inj done
          exact perform_untouched inv sent trivial noAdd gone
      · cases runs
  | assignFdIoId _ | connect _ _ _ | bind _ _ | accept _ _ | addIo _ _ _ | closeIo _
  | reactivateIo _ | libeventCallback _ _ => cases runs

/-- A connection is used and closed, its file descriptor is issued again, and a message for the
old connection arrives after the new one took the slot. -/
def reuseRun : List (Label Nat Nat) :=
  [.accept 5 1, .runTask 1 true, .sendMsg 0 0x101000005 7 true, .closeIo 0x101000005,
    .runTask 1 true, .runTask 1 true, .accept 5 2, .sendMsg 0 0x101000005 8 true, .runTask 1 true,
    .runTask 1 true]

/-- The peer closes the first connection, a second one gets its file descriptor, and only then
the owner of the first handle calls `CloseIO` with it. -/
def staleCloseRun : List (Label Nat Nat) :=
  [.accept 5 1, .runTask 1 true, .libeventCallback 5 false, .accept 5 2, .runTask 1 true,
    .closeIo 0x101000005, .runTask 1 true]

end MlsImgSearch.Blitz.StaleHandle
