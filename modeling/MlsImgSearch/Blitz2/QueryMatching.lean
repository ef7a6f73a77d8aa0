import MlsImgSearch.Blitz2.HalfDuplexService
import MlsImgSearch.Lib.Custody

/-!
# Each query gets its own answer

The invariant of the service: each query is in one place, each query in work has a
timer, and an open connection has answers for all requests but that of the query
in work.
-/

namespace MlsImgSearch.Blitz2.QueryMatching

open Lib.Run Lib.Custody HalfDuplexService
open StreamSocketChannel (Channel OutMsg Pieces Writev ConnectResult)

/-! ## The timers -/

/-- The queries in work and the timers that are not removed belong together. The query of the
connect `active` is being ended, and may have lost its timer. -/
structure Timed (timers : List Timer) (timerId : Nat) (infos : Nat → Option QueryInfo)
    (active : Option Nat) : Prop where
  distinct : (timers.map Timer.id).Nodup
  old : ∀ t ∈ timers, t.id ≤ timerId
  live : ∀ t ∈ timers, t.removed = false →
    ∃ info, infos t.conn = some info ∧ info.timerId = t.id
  held : ∀ c info, active ≠ some c → infos c = some info →
    ∃ t ∈ timers, t.id = info.timerId ∧ t.conn = c ∧ t.removed = false

/-- The connect has no timer any more. -/
def Spent (timers : List Timer) (c : Nat) : Prop := ∀ t ∈ timers, t.conn = c → t.removed = true

section Timers

variable {timers : List Timer} {timerId c n : Nat} {infos : Nat → Option QueryInfo}
  {active : Option Nat} {info : QueryInfo}

theorem Timed.eq_of_id (timed : Timed timers timerId infos active) {t t' : Timer}
    (mem : t ∈ timers) (mem' : t' ∈ timers) (same : t.id = t'.id) : t = t' :=
  List.inj_on_of_nodup_map timed.distinct mem mem' same

theorem Timed.add (timed : Timed timers timerId infos active) (free : infos c = none) :
    Timed (timers ++ [⟨timerId + 1, c, false⟩]) (timerId + 1)
      (Function.update infos c (some ⟨n, timerId + 1⟩)) active where
  distinct := by
    rw [List.map_append, List.nodup_append]
    refine ⟨timed.distinct, List.nodup_singleton _, fun id mem id' mem' => ?_⟩
    obtain ⟨t, tMem, rfl⟩ := List.mem_map.mp mem
    rw [List.map_singleton, List.mem_singleton] at mem'
    rw [mem']
    exact Nat.ne_of_lt (Nat.lt_succ_of_le (timed.old t tMem))
  old t mem := by
    rcases List.mem_append.mp mem with mem | mem
    · exact Nat.le_succ_of_le (timed.old t mem)
    · rw [List.mem_singleton.mp mem]
  live t mem kept := by
    rcases List.mem_append.mp mem with mem | mem
    · obtain ⟨info, held, same⟩ := timed.live t mem kept
      have other : t.conn ≠ c := by
        intro isC
        rw [isC, free] at held
        exact absurd held (by simp)
      exact ⟨info, by rwa [Function.update_of_ne other], same⟩
    · rw [List.mem_singleton.mp mem]
      exact ⟨_, Function.update_self .., rfl⟩
  held c' info other held := by
    by_cases isC : c' = c
    · rw [isC, Function.update_self] at held
      obtain rfl := Option.some.inj held
      exact ⟨⟨timerId + 1, c, false⟩, by simp, rfl, isC.symm, rfl⟩
    · rw [Function.update_of_ne isC] at held
      obtain ⟨t, mem, facts⟩ := timed.held c' info other held
      exact ⟨t, List.mem_append_left _ mem, facts⟩

theorem mem_removeTimer {id : Nat} {t : Timer} (mem : t ∈ removeTimer id timers)
    (kept : t.removed = false) : t ∈ timers ∧ t.id ≠ id := by
  obtain ⟨t', mem', rfl⟩ := List.mem_map.mp mem
  split at kept
  · exact absurd kept (by simp)
  · rename_i other
    rw [if_neg other]
    exact ⟨mem', other⟩

theorem removeTimer_ids (id : Nat) (timers : List Timer) :
    (removeTimer id timers).map Timer.id = timers.map Timer.id := by
  rw [removeTimer, List.map_map]
  refine List.map_congr_left fun t _ => ?_
  show Timer.id (if t.id = id then _ else t) = t.id
  split <;> rfl

/-- `RemoveTimer` of the query that is being ended. -/
theorem Timed.remove (timed : Timed timers timerId infos active)
    (mine : ∃ t ∈ timers, t.id = info.timerId ∧ t.conn = c)
    (others : ∀ c', c' ≠ c → active ≠ some c') :
    Timed (removeTimer info.timerId timers) timerId infos (some c) where
  distinct := by
    rw [removeTimer_ids]
    exact timed.distinct
  old t mem := by
    obtain ⟨t', mem', rfl⟩ := List.mem_map.mp mem
    split
    · exact timed.old t' mem'
    · exact timed.old t' mem'
  live t mem kept := timed.live t (mem_removeTimer mem kept).1 kept
  held c' info' other held' := by
    have isOther : c' ≠ c := fun same => other (by rw [same])
    obtain ⟨t, mem, same, conn, kept⟩ := timed.held c' info' (others c' isOther) held'
    obtain ⟨t₀, mem₀, same₀, conn₀⟩ := mine
    have different : t.id ≠ info.timerId := by
      intro clash
      obtain rfl := timed.eq_of_id mem mem₀ (clash.trans same₀.symm)
      exact isOther (conn.symm.trans conn₀)
    refine ⟨t, List.mem_map.mpr ⟨t, mem, if_neg different⟩, same, conn, kept⟩

theorem Timed.spent_remove (timed : Timed timers timerId infos active)
    (held : infos c = some info) : Spent (removeTimer info.timerId timers) c := by
  intro t mem conn
  by_contra kept
  obtain ⟨mem', other⟩ := mem_removeTimer mem (by simpa using kept)
  obtain ⟨info', held', same⟩ := timed.live t mem' (by simpa using kept)
  rw [conn, held] at held'
  obtain rfl := Option.some.inj held'
  exact other same.symm

theorem Timed.clear (timed : Timed timers timerId infos (some c)) (spent : Spent timers c) :
    Timed timers timerId (Function.update infos c none) (some c) where
  distinct := timed.distinct
  old := timed.old
  live t mem kept := by
    have other : t.conn ≠ c := by
      intro conn
      rw [spent t mem conn] at kept
      exact absurd kept (by simp)
    rw [Function.update_of_ne other]
    exact timed.live t mem kept
  held c' info other held := by
    have isOther : c' ≠ c := fun same => other (by rw [same])
    rw [Function.update_of_ne isOther] at held
    exact timed.held c' info other held

/-- A timer is handled. -/
theorem Timed.erase {active' : Option Nat} (timed : Timed timers timerId infos active) (t : Timer)
    (others : ∀ c, active' ≠ some c → active ≠ some c ∧ (t.removed = true ∨ t.conn ≠ c)) :
    Timed (timers.erase t) timerId infos active' where
  distinct := (timed.distinct.sublist (List.erase_sublist.map _))
  old t' mem := timed.old t' (List.mem_of_mem_erase mem)
  live t' mem kept := timed.live t' (List.mem_of_mem_erase mem) kept
  held c info other held := by
    obtain ⟨notActive, fine⟩ := others c other
    obtain ⟨t', mem, same, conn, kept⟩ := timed.held c info notActive held
    have different : t' ≠ t := by
      rintro rfl
      rcases fine with removed | elsewhere
      · exact absurd (removed.symm.trans kept) (by simp)
      · exact elsewhere conn
    exact ⟨t', (List.mem_erase_of_ne different).mpr mem, same, conn, kept⟩

theorem Timed.spent_erase (timed : Timed timers timerId infos active) {t : Timer}
    (mem : t ∈ timers) (held : infos t.conn = some info) (same : info.timerId = t.id) :
    Spent (timers.erase t) t.conn := by
  intro t' mem' conn
  by_contra kept
  have member := List.mem_of_mem_erase mem'
  obtain ⟨info', held', same'⟩ := timed.live t' member (by simpa using kept)
  rw [conn, held] at held'
  obtain rfl := Option.some.inj held'
  obtain rfl := timed.eq_of_id member mem (same'.symm.trans same)
  have distinct : timers.Nodup := List.Nodup.of_map _ timed.distinct
  exact distinct.not_mem_erase mem'

end Timers

/-! ## The invariant -/

/-- The connect whose query is being ended. -/
def active (s : Service) : Option Nat := s.running.map Frame.conn

/-- The query that a connect works on. -/
def holds (s : Service) (c : Nat) : Option Nat :=
  if active s = some c then none else (s.conns c).queryInfo.map QueryInfo.number

/-- The queue, without the query whose callback is running. -/
def waiting (queries : List QueuedQuery) : Option Frame → List QueuedQuery
  | some (.expired _ _) => queries.tail
  | _ => queries

def taskNumber : Task → Option Nat
  | .callback number => some number
  | _ => none

/-- The queries that no connect works on. -/
def records (s : Service) : List Nat :=
  s.log.map Prod.fst ++
    ((waiting s.queries s.running).map QueuedQuery.number ++ s.tasks.filterMap taskNumber)

/-- All requests are answered. -/
def Answered (conn : HalfDuplexConnect) : Prop :=
  conn.channel.status ≠ .closed → conn.answered = conn.requests.length

/-- All requests are answered but that of the query in work. -/
def Asked (conn : HalfDuplexConnect) : Prop :=
  conn.channel.status ≠ .closed →
    match conn.queryInfo with
    | none => conn.answered = conn.requests.length
    | some info => ∃ earlier, conn.requests = earlier ++ [info.number] ∧
        conn.answered = earlier.length

structure Sound (conn : HalfDuplexConnect) : Prop where
  channel : StreamSocketChannel.Inv conn.channel
  requests : conn.requests.length = conn.channel.passed.length

def FrameOk (timers : List Timer) (conns : Nat → HalfDuplexConnect) : Option Frame → Prop
  | none => True
  | some (.msgArrived c) => Spent timers c ∧ Answered (conns c)
  | some (.closed c) => (conns c).channel.status = .closed ∧
      ∃ info, (conns c).queryInfo = some info ∧ ∃ t ∈ timers, t.id = info.timerId ∧ t.conn = c
  | some (.timeout c) => Spent timers c
  | some (.expired c _) => (conns c).queryInfo = none ∧ Answered (conns c)
  | some (.tryQuery c _) => (conns c).queryInfo = none ∧ Answered (conns c)

/-- The invariant, apart from the places of the queries. -/
structure Base (s : Service) : Prop where
  timed : Timed s.timers s.timerId (fun c => (s.conns c).queryInfo) (active s)
  sound : ∀ c, Sound (s.conns c)
  asked : ∀ c, active s ≠ some c → Asked (s.conns c)
  frame : FrameOk s.timers s.conns s.running
  answers : ∀ n answer, (n, Result.success answer) ∈ s.log → answer = some n
  idleOnce : s.idleConns.Nodup
  idleFree : ∀ c ∈ s.idleConns, active s ≠ some c ∧ (s.conns c).queryInfo = none
  unused : ∀ c, s.connCount ≤ c →
    (s.conns c).queryInfo = none ∧ active s ≠ some c ∧ c ∉ s.idleConns
  small : ∀ q ∈ s.queries, Small q.pieces
  safe : s.aborted = false
  front : ∀ c curTime, s.running = some (.expired c curTime) → s.queries ≠ []

structure Inv (s : Service) : Prop extends Base s where
  placed : Placed s.nextQuery (records s) (holds s)

theorem Asked.of_answered {conn : HalfDuplexConnect} (free : conn.queryInfo = none)
    (answered : Answered conn) : Asked conn := by
  intro isOpen
  rw [free]
  exact answered isOpen

theorem Asked.answered {conn : HalfDuplexConnect} (asked : Asked conn)
    (free : conn.queryInfo = none) : Answered conn := by
  intro isOpen
  have all := asked isOpen
  rwa [free] at all

theorem asked_of_closed {conn : HalfDuplexConnect} (closed : conn.channel.status = .closed) :
    Asked conn := fun isOpen => absurd closed isOpen

theorem answered_of_closed {conn : HalfDuplexConnect} (closed : conn.channel.status = .closed) :
    Answered conn := fun isOpen => absurd closed isOpen

/-- The next answer on an open connection is that to the query in work, and the last one. -/
theorem Asked.answer {conn : HalfDuplexConnect} {number : Nat} (asked : Asked conn)
    (isOpen : conn.channel.status ≠ .closed)
    (request : conn.requests[conn.answered]? = some number) :
    ∃ info, conn.queryInfo = some info ∧ info.number = number ∧
      conn.answered + 1 = conn.requests.length := by
  have all := asked isOpen
  cases held : conn.queryInfo with
  | none =>
      rw [held] at all
      rw [List.getElem?_eq_none (Nat.le_of_eq (Eq.symm all))] at request
      exact absurd request (by simp)
  | some info =>
      rw [held] at all
      obtain ⟨earlier, requests, answered⟩ := all
      rw [requests, answered, List.getElem?_concat_length] at request
      refine ⟨info, rfl, Option.some.inj request, ?_⟩
      rw [answered, requests, List.length_append]
      rfl

/-- The invariant gives all that is wanted. -/
theorem Inv.correct {s : Service} (inv : Inv s) : Correct s where
  atMostOnce n := by
    refine List.nodup_iff_count_le_one.mp ?_ n
    exact (List.nodup_append.mp inv.placed.once).1
  exactlyOnce quiet n old := by
    obtain ⟨removed, noTasks, noQueries⟩ := quiet
    have noWaiting : waiting s.queries s.running = [] := by
      rw [noQueries]
      unfold waiting
      split <;> rfl
    have isLog : records s = s.log.map Prod.fst := by
      rw [records, noWaiting, noTasks]
      simp
    have mem : n ∈ s.log.map Prod.fst := by
      rcases inv.placed.found n old with mem | ⟨c, held⟩
      · rwa [isLog] at mem
      · unfold holds at held
        split at held
        · exact absurd held (by simp)
        · rename_i other
          obtain ⟨info, isInfo, -⟩ := Option.map_eq_some_iff.mp held
          obtain ⟨t, tMem, -, -, kept⟩ := inv.timed.held c info other isInfo
          exact absurd ((removed t tMem).symm.trans kept) (by simp)
    refine List.count_eq_one_of_mem ?_ mem
    exact (List.nodup_append.mp inv.placed.once).1
  answers := inv.answers
  idleOnce := inv.idleOnce
  idleFree c mem := (inv.idleFree c mem).2
  safe := inv.safe

/-! ## Changes of one connect -/

section Conn

variable {s s' : Service} {c : Nat} {conn : HalfDuplexConnect}

theorem infos_update (conns : Nat → HalfDuplexConnect) (c : Nat) (conn : HalfDuplexConnect) :
    (fun c' => (Function.update conns c conn c').queryInfo) =
      Function.update (fun c' => (conns c').queryInfo) c conn.queryInfo := by
  funext c'
  by_cases isC : c' = c
  · rw [isC, Function.update_self, Function.update_self]
  · rw [Function.update_of_ne isC, Function.update_of_ne isC]

theorem infos_same {conns : Nat → HalfDuplexConnect}
    (same : conn.queryInfo = (conns c).queryInfo) :
    (fun c' => (Function.update conns c conn c').queryInfo) = fun c' => (conns c').queryInfo := by
  rw [infos_update, same, Function.update_eq_self]

theorem frameOk_update {timers : List Timer} {conns : Nat → HalfDuplexConnect}
    {running : Option Frame} (other : running.map Frame.conn ≠ some c)
    (frame : FrameOk timers conns running) :
    FrameOk timers (Function.update conns c conn) running := by
  cases running with
  | none => trivial
  | some f =>
      have same : Function.update conns c conn f.conn = conns f.conn :=
        Function.update_of_ne (fun isC => other (congrArg some isC)) ..
      cases f <;> (simp only [Frame.conn] at same; simpa only [FrameOk, same] using frame)

/-- A property of all connects but the active one. -/
theorem forall_update {P : HalfDuplexConnect → Prop} {conns : Nat → HalfDuplexConnect}
    (excluded : Nat → Prop) (all : ∀ c', ¬ excluded c' → P (conns c'))
    (new : ¬ excluded c → P conn) :
    ∀ c', ¬ excluded c' → P (Function.update conns c conn c') := by
  intro c' included
  by_cases isC : c' = c
  · rw [isC, Function.update_self]
    exact new (isC ▸ included)
  · rw [Function.update_of_ne isC]
    exact all c' included

/-- The connect gets another channel or other counts. -/
theorem Base.setConn (base : Base s) (same : conn.queryInfo = (s.conns c).queryInfo)
    (sound : Sound conn) (asked : active s ≠ some c → Asked conn)
    (frame : FrameOk s.timers (Function.update s.conns c conn) s.running) :
    Base (setConn s c conn) := by
  have infos := infos_same same
  have infoAt : ∀ c', (Function.update s.conns c conn c').queryInfo = (s.conns c').queryInfo :=
    fun c' => congrFun infos c'
  refine ⟨?_, ?_, ?_, frame, base.answers, base.idleOnce, ?_, ?_, base.small, base.safe,
    base.front⟩
  · show Timed s.timers s.timerId (fun c' => (Function.update s.conns c conn c').queryInfo) (active s)
    rw [infos]
    exact base.timed
  · intro c'
    exact forall_update (fun _ => False) (fun c' _ => base.sound c') (fun _ => sound) c' not_false
  · exact forall_update (fun c' => active s = some c') base.asked asked
  · intro c' mem
    show active s ≠ some c' ∧ (Function.update s.conns c conn c').queryInfo = none
    rw [infoAt]
    exact base.idleFree c' mem
  · intro c' behind
    show (Function.update s.conns c conn c').queryInfo = none ∧ _
    rw [infoAt]
    exact base.unused c' behind

theorem holds_setConn (same : conn.queryInfo = (s.conns c).queryInfo) :
    holds (setConn s c conn) = holds s := by
  funext c'
  have infoAt : (Function.update s.conns c conn c').queryInfo = (s.conns c').queryInfo :=
    congrFun (infos_same same) c'
  show (if active s = some c' then none
    else (Function.update s.conns c conn c').queryInfo.map QueryInfo.number) = _
  rw [infoAt]
  rfl

theorem Base.postTask {task : Task} (base : Base s) : Base (postTask s task) :=
  ⟨base.timed, base.sound, base.asked, base.frame, base.answers, base.idleOnce, base.idleFree,
    base.unused, base.small, base.safe, base.front⟩

theorem tasks_postTask {task : Task} (none : taskNumber task = none) :
    (HalfDuplexService.postTask s task).tasks.filterMap taskNumber =
      s.tasks.filterMap taskNumber := by
  show (s.tasks ++ [task]).filterMap taskNumber = _
  rw [List.filterMap_append, List.filterMap_cons_none none, List.filterMap_nil, List.append_nil]

/-- What a connect that gets a query leaves as it is. -/
structure Aside (s s' : Service) : Prop where
  now : s'.now = s.now
  idleConns : s'.idleConns = s.idleConns
  connCount : s'.connCount = s.connCount
  queries : s'.queries = s.queries
  running : s'.running = s.running
  nextQuery : s'.nextQuery = s.nextQuery
  log : s'.log = s.log
  tasks : s'.tasks.filterMap taskNumber = s.tasks.filterMap taskNumber

theorem Aside.records (aside : Aside s s') : records s' = records s := by
  rw [QueryMatching.records, aside.log, aside.queries, aside.running, aside.tasks]
  rfl

theorem connect_spec {result : ConnectResult} (base : Base s)
    (free : (s.conns c).queryInfo = none) (other : active s ≠ some c)
    (clean : Clean s c result) :
    Base (connect s c result) ∧ Aside s (connect s c result) ∧
      ((connect s c result).conns c).queryInfo = none ∧ holds (connect s c result) = holds s ∧
      (connect s c result).timerId = s.timerId := by
  unfold connect
  simp only
  split
  · rename_i closed
    obtain ⟨new, isNew⟩ : ∃ new : HalfDuplexConnect, new = { s.conns c with
      channel := StreamSocketChannel.connect result (s.conns c).channel
      requests := []
      answered := 0 } := ⟨_, rfl⟩
    have info : new.queryInfo = (s.conns c).queryInfo := by rw [isNew]
    have connected : new.channel.passed = [] → Base (HalfDuplexService.setConn s c new) := by
      intro none
      have channel : StreamSocketChannel.Inv new.channel := by
        rw [isNew]
        exact StreamSocketChannel.inv_connect (base.sound c).channel clean
      refine base.setConn info ⟨channel, ?_⟩ (fun _ => ?_) (frameOk_update other base.frame)
      · rw [none, isNew]
        rfl
      · refine Asked.of_answered (info.trans free) fun _ => ?_
        rw [isNew]
        rfl
    have freeNew : (Function.update s.conns c new c).queryInfo = none := by
      rw [Function.update_self, info, free]
    rw [← isNew]
    cases result with
    | connected =>
        have next := connected (by rw [isNew, StreamSocketChannel.connect, if_pos closed])
        exact ⟨next.postTask, ⟨rfl, rfl, rfl, rfl, rfl, rfl, rfl, tasks_postTask rfl⟩, freeNew,
          holds_setConn info, rfl⟩
    | inProgress =>
        have next := connected (by rw [isNew, StreamSocketChannel.connect, if_pos closed])
        exact ⟨next, ⟨rfl, rfl, rfl, rfl, rfl, rfl, rfl, rfl⟩, freeNew, holds_setConn info, rfl⟩
    | failed =>
        exact ⟨base.postTask, ⟨rfl, rfl, rfl, rfl, rfl, rfl, rfl, tasks_postTask rfl⟩, free, rfl, rfl⟩
  · exact ⟨base, ⟨rfl, rfl, rfl, rfl, rfl, rfl, rfl, rfl⟩, free, rfl, rfl⟩

theorem spent_add {timers : List Timer} {c' : Nat} {t : Timer} (spent : Spent timers c')
    (other : t.conn ≠ c') : Spent (timers ++ [t]) c' := by
  intro t' mem conn
  rcases List.mem_append.mp mem with mem | mem
  · exact spent t' mem conn
  · rw [List.mem_singleton.mp mem] at conn
    exact absurd conn other

theorem frameOk_add {timers : List Timer} {conns : Nat → HalfDuplexConnect}
    {running : Option Frame} {t : Timer} (other : running.map Frame.conn ≠ some t.conn)
    (frame : FrameOk timers conns running) : FrameOk (timers ++ [t]) conns running := by
  cases running with
  | none => trivial
  | some f =>
      have isOther : t.conn ≠ f.conn := fun same => other (congrArg some same.symm)
      cases f with
      | msgArrived c' => exact ⟨spent_add frame.1 isOther, frame.2⟩
      | closed c' =>
          obtain ⟨closed, info, held, t', mem, facts⟩ := frame
          exact ⟨closed, info, held, t', List.mem_append_left _ mem, facts⟩
      | timeout c' => exact spent_add frame isOther
      | expired c' curTime => exact frame
      | tryQuery c' curTime => exact frame

/-- The connect gets a query and its timer. -/
theorem Base.ask {n : Nat} (base : Base s) (conn : HalfDuplexConnect) (free : (s.conns c).queryInfo = none)
    (other : active s ≠ some c) (notIdle : c ∉ s.idleConns) (isConn : c < s.connCount)
    (info : conn.queryInfo = some ⟨n, s.timerId + 1⟩) (sound : Sound conn) (asked : Asked conn) :
    Base { HalfDuplexService.setConn s c conn with
      timerId := s.timerId + 1, timers := s.timers ++ [⟨s.timerId + 1, c, false⟩] } := by
  have elsewhere : ∀ c', c' ≠ c → Function.update s.conns c conn c' = s.conns c' :=
    fun c' isOther => Function.update_of_ne isOther ..
  refine ⟨?_, ?_, ?_, ?_, base.answers, base.idleOnce, ?_, ?_, base.small, base.safe,
    base.front⟩
  · show Timed _ _ (fun c' => (Function.update s.conns c conn c').queryInfo) (active s)
    rw [infos_update, info]
    exact base.timed.add free
  · intro c'
    exact forall_update (fun _ => False) (fun c' _ => base.sound c') (fun _ => sound) c' not_false
  · exact forall_update (fun c' => active s = some c') base.asked fun _ => asked
  · exact frameOk_update other (frameOk_add other base.frame)
  · intro c' mem
    have isOther : c' ≠ c := fun same => notIdle (same ▸ mem)
    show active s ≠ some c' ∧ (Function.update s.conns c conn c').queryInfo = none
    rw [elsewhere c' isOther]
    exact base.idleFree c' mem
  · intro c' behind
    have behind' : s.connCount ≤ c' := behind
    have isOther : c' ≠ c := by omega
    show (Function.update s.conns c conn c').queryInfo = none ∧ _
    rw [elsewhere c' isOther]
    exact base.unused c' behind

theorem holds_ask {n timerId : Nat} (other : active s ≠ some c)
    (info : conn.queryInfo = some ⟨n, timerId⟩) :
    holds (HalfDuplexService.setConn s c conn) = Function.update (holds s) c (some n) := by
  funext c'
  show (if active s = some c' then none
    else (Function.update s.conns c conn c').queryInfo.map QueryInfo.number) = _
  by_cases isC : c' = c
  · rw [isC, if_neg other, Function.update_self, Function.update_self, info]
    rfl
  · rw [Function.update_of_ne isC, Function.update_of_ne isC]
    rfl

theorem connQuery_spec {n : Nat} {pieces : Pieces} {results : List Writev} (base : Base s)
    (free : (s.conns c).queryInfo = none) (other : active s ≠ some c)
    (notIdle : c ∉ s.idleConns) (isConn : c < s.connCount) (ids : s.timerId + 1 < 2 ^ 32)
    (small : Small pieces) (ran : connQuery s c n pieces results = some s') :
    Base s' ∧ Aside s s' ∧ holds s' = Function.update (holds s) c (some n) := by
  have id : (s.timerId + 1) % 2 ^ 32 = s.timerId + 1 := Nat.mod_eq_of_lt ids
  rw [connQuery] at ran
  simp only [free, id] at ran
  rw [if_neg (by simp), if_neg (by omega)] at ran
  obtain ⟨channel, sent, rfl⟩ := Option.map_eq_some_iff.mp ran
  have sound := base.sound c
  have channelInv := StreamSocketChannel.inv_sendMsg sound.channel small sent
  by_cases closed : (s.conns c).channel.status = .closed
  · -- nothing is sent, and a posted task or the timer ends the query
    rw [StreamSocketChannel.sendMsg_closed closed] at sent
    obtain rfl := Option.some.inj sent
    simp only [closed, ne_eq, not_true_eq_false, false_and, if_false]
    refine ⟨base.ask _ free other notIdle isConn rfl ⟨channelInv, sound.requests⟩
      (asked_of_closed closed), ⟨rfl, rfl, rfl, rfl, rfl, rfl, rfl, rfl⟩, holds_ask other rfl⟩
  · obtain ⟨passed, status⟩ := StreamSocketChannel.sendMsg_open closed sent
    simp only [ne_eq, closed, not_false_eq_true, true_and, if_true]
    have answered := (base.asked c other).answered free closed
    have asked := base.ask { s.conns c with
        channel := channel
        requests := (s.conns c).requests ++ [n]
        queryInfo := some ⟨n, s.timerId + 1⟩ } free other notIdle isConn rfl
      ⟨channelInv, by rw [passed, List.length_append, sound.requests]; rfl⟩
      (fun _ => ⟨(s.conns c).requests, rfl, answered⟩)
    split
    · exact ⟨asked.postTask, ⟨rfl, rfl, rfl, rfl, rfl, rfl, rfl, tasks_postTask rfl⟩,
        holds_ask other rfl⟩
    · exact ⟨asked, ⟨rfl, rfl, rfl, rfl, rfl, rfl, rfl, rfl⟩, holds_ask other rfl⟩

theorem Aside.trans {s'' : Service} (first : Aside s s') (second : Aside s' s'') :
    Aside s s'' where
  now := second.now.trans first.now
  idleConns := second.idleConns.trans first.idleConns
  connCount := second.connCount.trans first.connCount
  queries := second.queries.trans first.queries
  running := second.running.trans first.running
  nextQuery := second.nextQuery.trans first.nextQuery
  log := second.log.trans first.log
  tasks := second.tasks.trans first.tasks

/-- `Connect` and `Query` of a free connect. -/
theorem issue_spec {n : Nat} {pieces : Pieces} {result : ConnectResult} {results : List Writev}
    (base : Base s) (free : (s.conns c).queryInfo = none) (other : active s ≠ some c)
    (notIdle : c ∉ s.idleConns) (isConn : c < s.connCount) (ids : s.timerId + 1 < 2 ^ 32)
    (clean : Clean s c result) (small : Small pieces)
    (ran : connQuery (connect s c result) c n pieces results = some s') :
    Base s' ∧ Aside s s' ∧ holds s' = Function.update (holds s) c (some n) := by
  obtain ⟨connected, aside, free', holds', timerId⟩ := connect_spec base free other clean
  obtain ⟨asked, aside', holds''⟩ := connQuery_spec connected free'
    (by rw [active, aside.running]; exact other) (by rw [aside.idleConns]; exact notIdle)
    (by rw [aside.connCount]; exact isConn) (by rw [timerId]; exact ids) small ran
  exact ⟨asked, aside.trans aside', by rw [holds'', holds']⟩

end Conn

/-! ## Queries -/

section Queries

variable {s s' : Service}

theorem holds_of_free {c : Nat} (free : (s.conns c).queryInfo = none) : holds s c = none := by
  rw [holds, free]
  split <;> rfl

theorem waiting_append {queries : List QueuedQuery} {running : Option Frame} {q : QueuedQuery}
    (front : ∀ c curTime, running = some (.expired c curTime) → queries ≠ []) :
    waiting (queries ++ [q]) running = waiting queries running ++ [q] := by
  unfold waiting
  split
  · exact List.tail_append_of_ne_nil (front _ _ rfl)
  · rfl

theorem inv_query {call : Call} (inv : Inv s) (allowed : AllowedCall s call)
    (ran : query s call = some s') : Inv s' := by
  obtain ⟨ids, small, clean⟩ := allowed
  unfold query at ran
  simp only at ran
  split at ran
  · -- an idle connect
    rename_i c rest idle
    have mem : c ∈ s.idleConns := by rw [idle]; exact List.mem_cons_self
    obtain ⟨other, free⟩ := inv.idleFree c mem
    have isConn : c < s.connCount := by
      by_contra behind
      exact (inv.unused c (by omega)).2.2 mem
    have once := inv.idleOnce
    rw [idle] at once
    obtain ⟨notIdle, restOnce⟩ := List.nodup_cons.mp once
    have fewer : ∀ c' ∈ rest, c' ∈ s.idleConns := fun c' mem' => by
      rw [idle]
      exact List.mem_cons_of_mem c mem'
    have base : Base { s with nextQuery := s.nextQuery + 1, idleConns := rest } :=
      ⟨inv.timed, inv.sound, inv.asked, inv.frame, inv.answers, restOnce,
        fun c' mem' => inv.idleFree c' (fewer c' mem'),
        fun c' behind => ⟨(inv.unused c' behind).1, (inv.unused c' behind).2.1,
          fun mem' => (inv.unused c' behind).2.2 (fewer c' mem')⟩,
        inv.small, inv.safe, inv.front⟩
    obtain ⟨asked, aside, held⟩ := issue_spec base free other notIdle isConn ids
      (clean c (by rw [idle]; rfl)) small ran
    refine ⟨asked, ?_⟩
    rw [aside.nextQuery, aside.records, held]
    exact inv.placed.give (holds_of_free free)
  · rename_i idle
    split at ran
    · -- a new connect
      obtain ⟨free, other, notIdle⟩ := inv.unused s.connCount (Nat.le_refl _)
      have new : Base (setConn s s.connCount .new) := inv.toBase.setConn free.symm
        ⟨StreamSocketChannel.inv_initial, rfl⟩ (fun _ => asked_of_closed rfl)
        (frameOk_update other inv.frame)
      have base : Base (setConn { s with
          nextQuery := s.nextQuery + 1, connCount := s.connCount + 1 } s.connCount .new) :=
        ⟨new.timed, new.sound, new.asked, new.frame, new.answers, new.idleOnce, new.idleFree,
          fun c' behind => new.unused c' (Nat.le_of_succ_le behind), new.small, new.safe,
          new.front⟩
      have freeNew : (Function.update s.conns s.connCount .new s.connCount).queryInfo = none := by
        rw [Function.update_self]
        rfl
      have clean' : Clean (setConn { s with
          nextQuery := s.nextQuery + 1, connCount := s.connCount + 1 } s.connCount .new)
          s.connCount call.result := by
        show StreamSocketChannel.Allowed (Function.update s.conns s.connCount .new
          s.connCount).channel _
        rw [Function.update_self]
        cases call.result with
        | connected => exact fun _ => rfl
        | inProgress => trivial
        | failed => trivial
      obtain ⟨asked, aside, held⟩ := issue_spec base freeNew other notIdle (Nat.lt_succ_self _) ids
        clean' small ran
      refine ⟨asked, ?_⟩
      rw [aside.nextQuery, aside.records, held]
      have same : holds (setConn { s with
          nextQuery := s.nextQuery + 1, connCount := s.connCount + 1 } s.connCount .new) =
          holds s := holds_setConn free.symm
      rw [same]
      exact inv.placed.give (holds_of_free free)
    · -- the query waits
      obtain rfl := Option.some.inj ran
      refine ⟨⟨inv.timed, inv.sound, inv.asked, inv.frame, inv.answers, inv.idleOnce, inv.idleFree,
        inv.unused, ?_, inv.safe, fun _ _ _ => by simp⟩, ?_⟩
      · intro q mem
        rcases List.mem_append.mp mem with mem | mem
        · exact inv.small q mem
        · rw [List.mem_singleton.mp mem]
          exact small
      · refine inv.placed.record.perm ?_
        unfold records
        rw [waiting_append inv.front, List.map_append, List.map_singleton]
        refine List.perm_iff_count.mpr fun n => ?_
        simp only [List.count_append, List.count_cons, List.count_nil]
        omega

theorem inv_queryWithExpire {call : Call} (inv : Inv s)
    (allowed : s.now < call.timeout → AllowedCall s call)
    (ran : queryWithExpire s call = some s') : Inv s' := by
  unfold queryWithExpire at ran
  split at ran
  · rename_i early
    have allowed' : AllowedCall s { call with timeout := (call.timeout - s.now) % 2 ^ 32 } :=
      allowed early
    exact inv_query inv allowed' ran
  · obtain rfl := Option.some.inj ran
    refine ⟨⟨inv.timed, inv.sound, inv.asked, inv.frame, inv.answers, inv.idleOnce, inv.idleFree,
      inv.unused, inv.small, inv.safe, inv.front⟩, ?_⟩
    refine inv.placed.record.perm (List.perm_iff_count.mpr fun n => ?_)
    have posted : (s.tasks ++ [Task.callback s.nextQuery]).filterMap taskNumber =
        s.tasks.filterMap taskNumber ++ [s.nextQuery] := by simp [taskNumber]
    show _ = (s.log.map Prod.fst ++ ((waiting s.queries s.running).map QueuedQuery.number ++
      (s.tasks ++ [Task.callback s.nextQuery]).filterMap taskNumber)).count n
    rw [posted, records]
    simp only [List.count_append, List.count_cons, List.count_nil]
    omega

/-- A callback of the connect's query, or the code behind it, begins to run. -/
theorem Base.enter {f : Frame} {timers : List Timer} {log : List (Nat × Result)}
    {queries : List QueuedQuery} (base : Base s) (others : ∀ c, c ≠ f.conn → active s ≠ some c)
    (timed : Timed timers s.timerId (fun c => (s.conns c).queryInfo) (some f.conn))
    (frame : FrameOk timers s.conns (some f))
    (answers : ∀ n answer, (n, Result.success answer) ∈ log → answer = some n)
    (notIdle : f.conn ∉ s.idleConns) (isConn : f.conn < s.connCount)
    (small : ∀ q ∈ queries, Small q.pieces)
    (front : ∀ c curTime, f = .expired c curTime → queries ≠ []) :
    Base { s with timers := timers, log := log, queries := queries, running := some f } := by
  have different : ∀ c, some f.conn ≠ some c → c ≠ f.conn :=
    fun c other same => other (by rw [same])
  refine ⟨timed, base.sound, fun c other => ?_, frame, answers, base.idleOnce, fun c mem => ?_,
    fun c behind => ?_, small, base.safe, fun c curTime same => ?_⟩
  · exact base.asked c (others c (different c other))
  · refine ⟨fun same => ?_, (base.idleFree c mem).2⟩
    have same' : f.conn = c := Option.some.inj same
    exact notIdle (same' ▸ mem)
  · obtain ⟨free, -, notIdle'⟩ := base.unused c behind
    refine ⟨free, fun same => ?_, notIdle'⟩
    have same' : f.conn = c := Option.some.inj same
    exact absurd isConn (Nat.not_lt.mpr (same' ▸ behind))
  · exact front c curTime (Option.some.inj same)

theorem holds_enter {f : Frame} {timers : List Timer} {log : List (Nat × Result)}
    {queries : List QueuedQuery} (others : ∀ c, c ≠ f.conn → active s ≠ some c) :
    holds { s with timers := timers, log := log, queries := queries, running := some f } =
      Function.update (holds s) f.conn none := by
  funext c
  show (if some f.conn = some c then none else (s.conns c).queryInfo.map QueryInfo.number) = _
  by_cases isC : c = f.conn
  · rw [isC, if_pos rfl, Function.update_self]
  · rw [if_neg (fun same => isC (Option.some.inj same).symm), Function.update_of_ne isC, holds,
      if_neg (others c isC)]

theorem answers_append {log : List (Nat × Result)} {number : Nat} {result : Result}
    (answers : ∀ n answer, (n, Result.success answer) ∈ log → answer = some n)
    (new : ∀ answer, result = .success answer → answer = some number) :
    ∀ n answer, (n, Result.success answer) ∈ log ++ [(number, result)] → answer = some n := by
  intro n answer mem
  rcases List.mem_append.mp mem with mem | mem
  · exact answers n answer mem
  · obtain ⟨rfl, same⟩ := Prod.mk.inj (List.mem_singleton.mp mem)
    exact new answer same.symm

/-- A turn of `TryQuery`. -/
theorem inv_tryQuery {c curTime : Nat} {result : ConnectResult} {results : List Writev}
    (inv : Inv s) (running : s.running = some (.tryQuery c curTime))
    (ids : s.timerId + 1 < 2 ^ 32) (clean : Clean s c result)
    (ran : tryQuery s c curTime result results = some s') : Inv s' := by
  have isActive : active s = some c := by rw [active, running]; rfl
  have frame := inv.frame
  rw [running] at frame
  obtain ⟨free, answered⟩ := frame
  have notIdle : c ∉ s.idleConns := fun mem => (inv.idleFree c mem).1 isActive
  have isConn : c < s.connCount := by
    by_contra behind
    exact (inv.unused c (by omega)).2.1 isActive
  have others : ∀ c', c' ≠ c → active s ≠ some c' := by
    intro c' isOther same
    rw [isActive] at same
    exact isOther (Option.some.inj same).symm
  -- the connect is at hand again
  have base : Base { s with running := none } := by
    refine ⟨?_, inv.sound, fun c' _ => ?_, trivial, inv.answers, inv.idleOnce, fun c' mem =>
      ⟨by simp [active], (inv.idleFree c' mem).2⟩, fun c' behind => ⟨(inv.unused c' behind).1,
      by simp [active], (inv.unused c' behind).2.2⟩, inv.small, inv.safe, by simp⟩
    · refine ⟨inv.timed.distinct, inv.timed.old, inv.timed.live, fun c' info _ held => ?_⟩
      have isOther : c' ≠ c := by
        rintro rfl
        exact absurd (free.symm.trans held) (by simp)
      exact inv.timed.held c' info (others c' isOther) held
    · by_cases isC : c' = c
      · rw [isC]
        exact Asked.of_answered free answered
      · exact inv.asked c' (others c' isC)
  have held : holds { s with running := none } = holds s := by
    funext c'
    by_cases isC : c' = c
    · rw [isC, holds_of_free free]
      exact holds_of_free free
    · unfold holds
      rw [if_neg (others c' isC)]
      rfl
  have placed := inv.placed
  rw [records, running] at placed
  unfold tryQuery at ran
  split at ran
  · rename_i empty
    obtain rfl := Option.some.inj ran
    refine ⟨⟨base.timed, base.sound, base.asked, trivial, base.answers, ?_, ?_, ?_, base.small,
      base.safe, base.front⟩, ?_⟩
    · refine List.nodup_append.mpr ⟨inv.idleOnce, List.nodup_singleton c, ?_⟩
      intro c' mem c'' mem' same
      rw [same, List.mem_singleton.mp mem'] at mem
      exact notIdle mem
    · intro c' mem
      rcases List.mem_append.mp mem with mem | mem
      · exact base.idleFree c' mem
      · rw [List.mem_singleton.mp mem]
        exact ⟨by simp [active], free⟩
    · intro c' behind
      obtain ⟨free', other', notIdle'⟩ := base.unused c' behind
      refine ⟨free', other', fun mem => ?_⟩
      rcases List.mem_append.mp mem with mem | mem
      · exact notIdle' mem
      · rw [List.mem_singleton.mp mem] at behind
        exact absurd isConn (Nat.not_lt.mpr behind)
    · exact held ▸ placed
  · rename_i q rest queue
    have mem : q ∈ s.queries := by rw [queue]; exact List.mem_cons_self
    rw [queue] at placed
    split at ran
    · -- it is too late for the first query
      obtain rfl := Option.some.inj ran
      have timed := inv.timed
      rw [isActive] at timed
      refine ⟨inv.toBase.enter (f := .expired c curTime) others timed ⟨free, answered⟩
        (answers_append inv.answers nofun) notIdle isConn inv.small ?_, ?_⟩
      · intro _ _ _
        show s.queries ≠ []
        rw [queue]
        simp
      · have same : holds { s with
            log := s.log ++ [(q.number, .timeout)], running := some (.expired c curTime) } =
            holds s := by
          rw [holds_enter (f := .expired c curTime) others]
          exact Function.update_eq_self_iff.mpr (holds_of_free free).symm
        show Placed s.nextQuery _ (holds { s with
          log := s.log ++ [(q.number, .timeout)], running := some (.expired c curTime) })
        rw [same]
        refine placed.perm (List.perm_iff_count.mpr fun n => ?_)
        show _ = ((s.log ++ [(q.number, Result.timeout)]).map Prod.fst ++
          (s.queries.tail.map QueuedQuery.number ++ s.tasks.filterMap taskNumber)).count n
        rw [queue]
        simp only [waiting, List.map_append, List.map_cons, List.map_nil, List.tail_cons,
          List.count_append, List.count_cons, List.count_nil]
        omega
    · obtain ⟨next, issued, rfl⟩ := Option.map_eq_some_iff.mp ran
      obtain ⟨asked, aside, held'⟩ := issue_spec base free (by simp [active]) notIdle isConn ids clean
        (inv.small q mem) issued
      refine ⟨⟨asked.timed, asked.sound, asked.asked, asked.frame, asked.answers, asked.idleOnce,
        asked.idleFree, asked.unused, fun q' mem' => inv.small q' (by
          rw [queue]
          exact List.mem_cons_of_mem q mem'), asked.safe, fun _ _ same => ?_⟩, ?_⟩
      · exact absurd (aside.running.symm.trans same) (by simp)
      · have taken : Placed s.nextQuery (q.number :: (s.log.map Prod.fst ++
            (rest.map QueuedQuery.number ++ s.tasks.filterMap taskNumber))) (holds s) := by
          refine placed.perm (List.perm_iff_count.mpr fun n => ?_)
          simp only [waiting, List.map_cons, List.count_append, List.count_cons]
          omega
        have isHeld : holds { next with queries := rest } =
            Function.update (holds s) c (some q.number) := by rw [← held, ← held']; rfl
        have isRecords : records { next with queries := rest } = s.log.map Prod.fst ++
            (rest.map QueuedQuery.number ++ s.tasks.filterMap taskNumber) := by
          rw [records, aside.log, aside.running, aside.tasks]
          rfl
        rw [isHeld, isRecords]
        show Placed next.nextQuery _ _
        rw [aside.nextQuery]
        exact taken.pickUp (holds_of_free free)

end Queries

/-! ## Events -/

section Events

variable {s s' : Service} {c : Nat}

/-- The callback of the query in work on a connect begins to run. -/
theorem Inv.enter {f : Frame} {timers : List Timer} {info : QueryInfo} {result : Result}
    (inv : Inv s) (idle : s.running = none) (held : (s.conns f.conn).queryInfo = some info)
    (timed : Timed timers s.timerId (fun c => (s.conns c).queryInfo) (some f.conn))
    (frame : FrameOk timers s.conns (some f))
    (new : ∀ answer, result = .success answer → answer = some info.number)
    (user : ∀ c curTime, f ≠ .expired c curTime) :
    Inv { s with
      timers := timers, log := s.log ++ [(info.number, result)], running := some f } := by
  have noFrame : active s = none := by rw [active, idle]; rfl
  have others : ∀ c, c ≠ f.conn → active s ≠ some c := fun c _ => by rw [noFrame]; simp
  have notIdle : f.conn ∉ s.idleConns := fun mem =>
    absurd ((inv.idleFree f.conn mem).2.symm.trans held) (by simp)
  have isConn : f.conn < s.connCount := by
    by_contra behind
    exact absurd ((inv.unused f.conn (by omega)).1.symm.trans held) (by simp)
  have entered := inv.toBase.enter others timed frame (answers_append inv.answers new) notIdle
    isConn inv.small (fun c curTime same => absurd same (user c curTime))
  refine ⟨entered, ?_⟩
  have holdsNumber : holds s f.conn = some info.number := by
    rw [holds, noFrame, if_neg (by simp), held]
    rfl
  have isHeld : holds { s with
      timers := timers, log := s.log ++ [(info.number, result)], running := some f } =
      Function.update (holds s) f.conn none := holds_enter others
  rw [isHeld]
  refine (inv.placed.putDown holdsNumber).perm (List.perm_iff_count.mpr fun n => ?_)
  have queue : waiting s.queries (some f) = waiting s.queries s.running := by
    rw [idle]
    cases f with
    | expired c curTime => exact absurd rfl (user c curTime)
    | _ => rfl
  show _ = ((s.log ++ [(info.number, result)]).map Prod.fst ++
    ((waiting s.queries (some f)).map QueuedQuery.number ++ s.tasks.filterMap taskNumber)).count n
  rw [queue, records]
  simp only [List.map_append, List.map_cons, List.map_nil, List.count_append, List.count_cons,
    List.count_nil]
  omega

theorem inv_onClosed (inv : Inv s) (idle : s.running = none)
    (closed : (s.conns c).queryInfo ≠ none → (s.conns c).channel.status = .closed) :
    Inv (onClosed s c) := by
  unfold onClosed
  split
  · exact inv
  · rename_i info held
    have noFrame : active s ≠ some c := by rw [active, idle]; simp
    obtain ⟨t, mem, same, conn, -⟩ := inv.timed.held c info noFrame held
    have isClosed := closed (by rw [held]; simp)
    have timed : Timed s.timers s.timerId (fun c => (s.conns c).queryInfo) (some c) := by
      refine ⟨inv.timed.distinct, inv.timed.old, inv.timed.live, fun c' info' _ held' => ?_⟩
      exact inv.timed.held c' info' (by rw [active, idle]; simp) held'
    exact inv.enter (f := .closed c) idle held timed
      ⟨isClosed, info, held, t, mem, same, conn⟩ nofun (fun _ _ => by simp)

/-- The channel of a connect changes while no callback runs. -/
theorem Inv.setChannel {channel : Channel} (inv : Inv s) (idle : s.running = none)
    (channelInv : StreamSocketChannel.Inv channel)
    (passed : channel.passed = (s.conns c).channel.passed)
    (status : channel.status ≠ .closed → (s.conns c).channel.status ≠ .closed) :
    Inv (setConn s c { s.conns c with channel := channel }) := by
  have noFrame : active s ≠ some c := by rw [active, idle]; simp
  have asked : Asked { s.conns c with channel := channel } :=
    fun isOpen => inv.asked c noFrame (status isOpen)
  have sound : Sound { s.conns c with channel := channel } :=
    ⟨channelInv, by rw [passed]; exact (inv.sound c).requests⟩
  have frame : FrameOk s.timers (Function.update s.conns c { s.conns c with channel := channel })
      s.running := by rw [idle]; trivial
  refine ⟨inv.toBase.setConn rfl sound (fun _ => asked) frame, ?_⟩
  have same : holds (setConn s c { s.conns c with channel := channel }) = holds s :=
    holds_setConn rfl
  rw [same]
  exact inv.placed

theorem inv_close (inv : Inv s) (idle : s.running = none) : Inv (close s c) := by
  refine inv.setChannel idle (StreamSocketChannel.inv_realClose (inv.sound c).channel)
    (StreamSocketChannel.kept_realClose _).1 fun isOpen => ?_
  exact absurd (StreamSocketChannel.realClose_status _) isOpen

theorem inv_reply {stray : Bool} (inv : Inv s) (idle : s.running = none)
    (ran : reply s c stray = some s') : Inv s' := by
  have noFrame : active s ≠ some c := by rw [active, idle]; simp
  unfold reply at ran
  simp only at ran
  split at ran
  · exact absurd ran (by simp)
  rename_i connected
  split at ran
  · -- the peer got what was sent
    split at ran
    · rename_i garbled
      exact absurd (inv.sound c).channel.toBase.order garbled
    · exact absurd ran (by simp)
  split at ran
  · exact absurd ran (by simp)
  rename_i number request
  split at ran
  · obtain rfl := Option.some.inj ran
    have isOpen : (s.conns c).channel.status ≠ .closed := by
      intro closed
      rw [closed] at connected
      exact connected (by simp)
    obtain ⟨info, held, same, all⟩ := (inv.asked c noFrame).answer isOpen request
    obtain ⟨t, mem, id, conn, -⟩ := inv.timed.held c info noFrame held
    have timed := inv.timed.remove ⟨t, mem, id, conn⟩ (fun c' _ => by rw [active, idle]; simp)
    have spent := inv.timed.spent_remove held
    -- as long as the answer is not counted, only the timer is known to be removed
    have entered : Inv { s with
        timers := removeTimer info.timerId s.timers
        log := s.log ++ [(info.number, .success (some number))]
        running := some (.timeout c) } :=
      inv.enter (f := .timeout c) idle held timed spent
        (fun answer isAnswer => by rw [← Result.success.inj isAnswer, same]) (fun _ _ => by simp)
    have counted := entered.toBase.setConn
      (rfl : ({ s.conns c with answered := (s.conns c).answered + 1 } : HalfDuplexConnect).queryInfo =
        (s.conns c).queryInfo)
      ⟨(inv.sound c).channel, (inv.sound c).requests⟩ (fun other => absurd rfl other) spent
    have isArrived : onMsgArrived (setConn s c { s.conns c with
          answered := (s.conns c).answered + 1 }) c (some number) =
        { setConn s c { s.conns c with answered := (s.conns c).answered + 1 } with
          timers := removeTimer info.timerId s.timers
          log := s.log ++ [(info.number, .success (some number))]
          running := some (.msgArrived c) } := by
      have held' : ((setConn s c { s.conns c with
          answered := (s.conns c).answered + 1 }).conns c).queryInfo = some info := by
        show (Function.update s.conns c _ c).queryInfo = _
        rw [Function.update_self]
        exact held
      rw [onMsgArrived, held']
      rfl
    have others : ∀ c', c' ≠ c → some c ≠ some c' :=
      fun c' isOther isSame => isOther (Option.some.inj isSame).symm
    rw [isArrived]
    refine ⟨counted.enter (f := .msgArrived c) others counted.timed ⟨spent, fun _ => ?_⟩
      counted.answers (fun mem => (entered.idleFree c mem).1 rfl) ?_ counted.small nofun, ?_⟩
    · show (Function.update s.conns c _ c).answered = (Function.update s.conns c _ c).requests.length
      rw [Function.update_self]
      exact all
    · by_contra behind
      exact (entered.unused c (Nat.not_lt.mp behind)).2.1 rfl
    · have holdsSame := holds_setConn (s := { s with
          timers := removeTimer info.timerId s.timers
          log := s.log ++ [(info.number, .success (some number))]
          running := some (.timeout c) })
        (rfl : ({ s.conns c with answered := (s.conns c).answered + 1 } : HalfDuplexConnect).queryInfo =
          (s.conns c).queryInfo)
      exact holdsSame ▸ entered.placed
  · exact absurd ran (by simp)

theorem inv_handleTimerEvent {t : Timer} (inv : Inv s) (idle : s.running = none)
    (mem : t ∈ s.timers) : Inv (handleTimerEvent s t) := by
  have noFrame : ∀ c, active s ≠ some c := fun c => by rw [active, idle]; simp
  unfold handleTimerEvent
  simp only
  split
  · rename_i removed
    have timed := inv.timed.erase t (fun c' (_ : active s ≠ some c') =>
      ⟨noFrame c', Or.inl removed⟩)
    have frame : FrameOk (s.timers.erase t) s.conns s.running := by rw [idle]; trivial
    exact ⟨⟨timed, inv.sound, inv.asked, frame, inv.answers, inv.idleOnce, inv.idleFree, inv.unused,
      inv.small, inv.safe, inv.front⟩, inv.placed⟩
  · rename_i kept
    obtain ⟨info, held, same⟩ := inv.timed.live t mem (by simpa using kept)
    have timed := inv.timed.erase t (fun c' (other : some t.conn ≠ some c') =>
      ⟨noFrame c', Or.inr fun isSame => other (by rw [isSame])⟩)
    have noAnswer : ∀ answer, Result.timeout = .success answer → answer = some info.number := nofun
    have entered := inv.enter (f := .timeout t.conn) idle held timed
      (inv.timed.spent_erase mem held same) noAnswer (fun _ _ => by simp)
    rw [onTimeout, held]
    simp only
    rw [if_neg (not_not.mpr same)]
    exact entered

theorem inv_runTask {task : Task} {rest : List Task} (inv : Inv s) (idle : s.running = none)
    (tasks : s.tasks = task :: rest)
    (closed : ∀ c, task = .closed c → (s.conns c).queryInfo ≠ none →
      (s.conns c).channel.status = .closed) :
    Inv (runTask { s with tasks := rest } task) := by
  have base : Base { s with tasks := rest } :=
    ⟨inv.timed, inv.sound, inv.asked, inv.frame, inv.answers, inv.idleOnce, inv.idleFree,
      inv.unused, inv.small, inv.safe, inv.front⟩
  have placed := inv.placed
  rw [records, tasks] at placed
  cases task with
  | opened c => exact ⟨base, placed⟩
  | closed c =>
      have popped : Inv { s with tasks := rest } := ⟨base, placed⟩
      exact inv_onClosed popped idle (closed c rfl)
  | callback number =>
      refine ⟨⟨base.timed, base.sound, base.asked, base.frame, answers_append inv.answers nofun,
        base.idleOnce, base.idleFree, base.unused, base.small, base.safe, base.front⟩, ?_⟩
      refine placed.perm (List.perm_iff_count.mpr fun n => ?_)
      show _ = ((s.log ++ [(number, Result.timeout)]).map Prod.fst ++
        ((waiting s.queries s.running).map QueuedQuery.number ++
          rest.filterMap taskNumber)).count n
      have first : (Task.callback number :: rest).filterMap taskNumber =
          number :: rest.filterMap taskNumber := rfl
      rw [first]
      simp only [List.map_append, List.map_cons, List.map_nil, List.count_append, List.count_cons,
        List.count_nil]
      omega

theorem inv_onWrite {results : List Writev} (inv : Inv s) (idle : s.running = none)
    (ran : onWrite s c results = some s') : Inv s' := by
  unfold onWrite at ran
  simp only at ran
  split at ran
  · exact absurd ran (by simp)
  · rename_i connected
    rw [not_not] at connected
    obtain ⟨channel, sent, rfl⟩ := Option.map_eq_some_iff.mp ran
    obtain ⟨passed, status⟩ := StreamSocketChannel.kept_trySend sent
    have written : Inv (setConn s c { s.conns c with channel := channel }) :=
      inv.setChannel idle
        (StreamSocketChannel.inv_trySend (inv.sound c).channel connected sent) passed
        fun _ => by rw [connected]; simp
    split
    · rename_i closed
      refine inv_onClosed written idle fun _ => ?_
      show (Function.update s.conns c _ c).channel.status = .closed
      rw [Function.update_self]
      exact closed
    · exact written

theorem inv_opened (inv : Inv s) (idle : s.running = none)
    (connecting : (s.conns c).channel.status = .connecting)
    (clean : (s.conns c).channel.iovec = none) :
    Inv (setConn s c { s.conns c with
      channel := { (s.conns c).channel with status := .connected } }) :=
  inv.setChannel idle (StreamSocketChannel.inv_opened (inv.sound c).channel connecting clean) rfl
    fun _ => by rw [connecting]; simp

theorem inv_handleEvent {label : Label} (inv : Inv s) (idle : s.running = none)
    (allowed : Allowed s label) (ran : handleEvent s label = some s') : Inv s' := by
  cases label with
  | opened c =>
      simp only [handleEvent] at ran
      split at ran
      · rename_i connecting
        obtain rfl := Option.some.inj ran
        exact inv_opened inv idle connecting allowed
      · exact absurd ran (by simp)
  | onWrite c results => exact inv_onWrite inv idle ran
  | realClose c =>
      simp only [handleEvent] at ran
      split at ran
      · exact absurd ran (by simp)
      · obtain rfl := Option.some.inj ran
        refine inv_onClosed (inv_close inv idle) idle fun _ => ?_
        show (Function.update s.conns c _ c).channel.status = .closed
        rw [Function.update_self]
        exact StreamSocketChannel.realClose_status _
  | reply c stray => exact inv_reply inv idle ran
  | timer t =>
      simp only [handleEvent] at ran
      split at ran
      · rename_i mem
        obtain rfl := Option.some.inj ran
        exact inv_handleTimerEvent inv idle mem
      · exact absurd ran (by simp)
  | task =>
      simp only [handleEvent] at ran
      split at ran
      · exact absurd ran (by simp)
      · rename_i task rest tasks
        obtain rfl := Option.some.inj ran
        refine inv_runTask inv idle tasks fun c isClosed => allowed c ?_
        rw [tasks, isClosed]
        rfl
  | tick _ => exact absurd ran (by simp [handleEvent])
  | configure _ _ => exact absurd ran (by simp [handleEvent])
  | query _ => exact absurd ran (by simp [handleEvent])
  | queryWithExpire _ => exact absurd ran (by simp [handleEvent])
  | finish => exact absurd ran (by simp [handleEvent])
  | tryQuery _ _ => exact absurd ran (by simp [handleEvent])

/-- The callback has returned, and the connect is cleared. -/
theorem Inv.leave {f : Frame} {conn : HalfDuplexConnect} {timers : List Timer} {curTime : Nat}
    (inv : Inv s) (running : s.running = some f) (user : ∀ c curTime, f ≠ .expired c curTime)
    (free : conn.queryInfo = none) (sound : Sound conn) (answered : Answered conn)
    (timed : Timed timers s.timerId
      (Function.update (fun c => (s.conns c).queryInfo) f.conn none) (some f.conn)) :
    Inv { setConn s f.conn conn with
      timers := timers, running := some (.tryQuery f.conn curTime) } := by
  have isActive : active s = some f.conn := by rw [active, running]; rfl
  have elsewhere : ∀ c, c ≠ f.conn → Function.update s.conns f.conn conn c = s.conns c :=
    fun c isOther => Function.update_of_ne isOther ..
  have different : ∀ c, active s ≠ some c → c ≠ f.conn := fun c other isC =>
    other (isC ▸ isActive)
  have atConn : Function.update s.conns f.conn conn f.conn = conn := Function.update_self ..
  refine ⟨⟨?_, ?_, ?_, ?_, inv.answers, inv.idleOnce, ?_, ?_, inv.small, inv.safe, nofun⟩, ?_⟩
  · show Timed timers s.timerId (fun c => (Function.update s.conns f.conn conn c).queryInfo) _
    rw [infos_update, free]
    exact timed
  · intro c
    exact forall_update (fun _ => False) (fun c' _ => inv.sound c') (fun _ => sound) c not_false
  · intro c other
    have isOther : c ≠ f.conn := fun isC => other (by rw [isC]; rfl)
    show Asked (Function.update s.conns f.conn conn c)
    rw [elsewhere c isOther]
    exact inv.asked c (by rw [isActive]; exact other)
  · show (Function.update s.conns f.conn conn f.conn).queryInfo = none ∧
      Answered (Function.update s.conns f.conn conn f.conn)
    rw [atConn]
    exact ⟨free, answered⟩
  · intro c mem
    obtain ⟨other, free'⟩ := inv.idleFree c mem
    refine ⟨by rwa [isActive] at other, ?_⟩
    show (Function.update s.conns f.conn conn c).queryInfo = none
    rwa [elsewhere c (different c other)]
  · intro c behind
    obtain ⟨free', other, notIdle⟩ := inv.unused c behind
    refine ⟨?_, by rwa [isActive] at other, notIdle⟩
    show (Function.update s.conns f.conn conn c).queryInfo = none
    rwa [elsewhere c (different c other)]
  · have isHeld : holds { setConn s f.conn conn with
        timers := timers, running := some (.tryQuery f.conn curTime) } = holds s := by
      funext c
      unfold holds
      rw [isActive]
      by_cases isC : c = f.conn
      · rw [isC, if_pos rfl]
        exact if_pos rfl
      · show (if some f.conn = some c then none
          else (Function.update s.conns f.conn conn c).queryInfo.map QueryInfo.number) = _
        rw [elsewhere c isC]
    have queue : waiting s.queries s.running =
        waiting s.queries (some (.tryQuery f.conn curTime)) := by
      rw [running]
      cases f with
      | expired c curTime => exact absurd rfl (user c curTime)
      | _ => rfl
    have placed := inv.placed
    rw [records, queue] at placed
    rw [isHeld]
    exact placed

theorem sound_close {conn : HalfDuplexConnect} (sound : Sound conn) :
    Sound { conn with channel := StreamSocketChannel.realClose conn.channel } :=
  ⟨StreamSocketChannel.inv_realClose sound.channel, by
    rw [(StreamSocketChannel.kept_realClose _).1]
    exact sound.requests⟩

theorem close_clearQuery (s : Service) (c : Nat) :
    close (clearQuery s c) c = setConn s c { s.conns c with
      queryInfo := none, channel := StreamSocketChannel.realClose (s.conns c).channel } := by
  unfold close clearQuery setConn
  simp only [Function.update_self, Function.update_idem]

theorem inv_finishFrame {f : Frame} (inv : Inv s) (running : s.running = some f)
    (ran : finishFrame s f = some s') : Inv s' := by
  have isActive : active s = some f.conn := by rw [active, running]; rfl
  have frame := inv.frame
  have timed := inv.timed
  rw [running] at frame
  rw [isActive] at timed
  cases f with
  | msgArrived c =>
      obtain ⟨spent, answered⟩ := frame
      have cleared : Sound { s.conns c with queryInfo := none } :=
        ⟨(inv.sound c).channel, (inv.sound c).requests⟩
      simp only [finishFrame] at ran
      obtain rfl := Option.some.inj ran
      split
      · rw [close_clearQuery]
        exact inv.leave running (by simp) rfl (sound_close cleared)
          (answered_of_closed (StreamSocketChannel.realClose_status _)) (timed.clear spent)
      · exact inv.leave running (by simp) rfl cleared answered (timed.clear spent)
  | closed c =>
      obtain ⟨closed, info, held, mine⟩ := frame
      have others : ∀ c', c' ≠ c → some c ≠ some c' :=
        fun c' isOther same => isOther (Option.some.inj same).symm
      have removed := (timed.remove mine others).clear (timed.spent_remove held)
      simp only [finishFrame, held] at ran
      obtain rfl := Option.some.inj ran
      exact inv.leave running (by simp) rfl ⟨(inv.sound c).channel, (inv.sound c).requests⟩
        (answered_of_closed closed) removed
  | timeout c =>
      have cleared : Sound { s.conns c with queryInfo := none } :=
        ⟨(inv.sound c).channel, (inv.sound c).requests⟩
      simp only [finishFrame] at ran
      obtain rfl := Option.some.inj ran
      rw [close_clearQuery]
      exact inv.leave running (by simp) rfl (sound_close cleared)
        (answered_of_closed (StreamSocketChannel.realClose_status _)) (timed.clear frame)
  | expired c curTime =>
      obtain ⟨free, answered⟩ := frame
      have others : ∀ c', c' ≠ c → active s ≠ some c' := by
        rw [isActive]
        exact fun c' isOther same => isOther (Option.some.inj same).symm
      have isConn : c < s.connCount := by
        by_contra behind
        exact (inv.unused c (by omega)).2.1 isActive
      obtain rfl := Option.some.inj ran
      refine ⟨inv.toBase.enter (f := .tryQuery c curTime) others timed ⟨free, answered⟩ inv.answers
        (fun mem => (inv.idleFree c mem).1 isActive) isConn
        (fun q mem => inv.small q (List.mem_of_mem_tail mem)) nofun, ?_⟩
      have isHeld : holds { s with
          queries := s.queries.tail, running := some (.tryQuery c curTime) } = holds s := by
        rw [holds_enter (f := .tryQuery c curTime) others]
        exact Function.update_eq_self_iff.mpr (holds_of_free free).symm
      have placed := inv.placed
      rw [records, running] at placed
      rw [isHeld]
      exact placed
  | tryQuery c curTime => exact absurd ran (by simp [finishFrame])

theorem inv_step {label : Label} (inv : Inv s) (allowed : Allowed s label)
    (taken : step s label = some s') : Inv s' := by
  unfold step at taken
  rw [if_neg (by simp [inv.safe])] at taken
  split at taken
  · obtain rfl := Option.some.inj taken
    exact ⟨⟨inv.timed, inv.sound, inv.asked, inv.frame, inv.answers, inv.idleOnce, inv.idleFree,
      inv.unused, inv.small, inv.safe, inv.front⟩, inv.placed⟩
  · obtain rfl := Option.some.inj taken
    exact ⟨⟨inv.timed, inv.sound, inv.asked, inv.frame, inv.answers, inv.idleOnce, inv.idleFree,
      inv.unused, inv.small, inv.safe, inv.front⟩, inv.placed⟩
  · rename_i c curTime running
    exact inv_tryQuery inv running allowed.1 (allowed.2 _ running) taken
  · exact absurd taken (by simp)
  · exact inv_query inv allowed taken
  · exact inv_queryWithExpire inv allowed taken
  · rename_i frame _ running
    exact inv_finishFrame inv running taken
  · rename_i running
    exact inv_handleEvent inv running allowed taken
  · exact absurd taken (by simp)

end Events

theorem inv_initial : Inv Service.initial where
  timed := ⟨List.nodup_nil, nofun, nofun, fun _ _ _ held => absurd held (by
    simp [Service.initial, HalfDuplexConnect.new])⟩
  sound _ := ⟨StreamSocketChannel.inv_initial, rfl⟩
  asked _ _ := asked_of_closed rfl
  frame := trivial
  answers := nofun
  idleOnce := List.nodup_nil
  idleFree := nofun
  unused _ _ := ⟨rfl, nofun, nofun⟩
  small := nofun
  safe := rfl
  front := nofun
  placed := placed_nil

/-- Every query gets its own answer if no posted close meets another connection of its connect. -/
theorem answers_of_allowed {labels : List Label} {s : Service}
    (allowed : Meets step Allowed Service.initial labels)
    (ran : exec step Service.initial labels = some s) : Correct s :=
  (exec_invariant (fun _ _ _ inv allowed taken => inv_step inv allowed taken) inv_initial allowed
    ran).correct

def hello : Pieces := ⟨[[104, 105]], by decide, by decide⟩

/-- A connect that fails, and two queries that are answered on the next connection. -/
def threeQueries : List Label :=
  [.configure 1 false, .query ⟨hello, 1000, .failed, []⟩, .query ⟨hello, 1000, .failed, []⟩,
    .query ⟨hello, 1000, .failed, []⟩, .task, .finish, .tryQuery .inProgress [], .opened 0,
    .onWrite 0 [.sent 1, .sent 1], .reply 0 false, .finish, .tryQuery .failed [.sent 2],
    .timer ⟨1, 0, true⟩, .reply 0 false, .finish, .tryQuery .failed []]

theorem answers_of_allowed_three :
    ∃ s, exec step Service.initial threeQueries = some s ∧
      s.log = [(0, .connectClosed), (1, .success (some 1)), (2, .success (some 2))] ∧
      Correct s := by
  have log : (exec step Service.initial threeQueries).map Service.log =
      some [(0, .connectClosed), (1, .success (some 1)), (2, .success (some 2))] := by
    decide +kernel
  obtain ⟨s, ran, isLog⟩ := Option.map_eq_some_iff.mp log
  exact ⟨s, ran, isLog, answers_of_allowed (by decide +kernel) ran⟩

/-- The posted close of the first query ends the second one, whose answer then goes to the third. -/
theorem answer_of_other_query :
    ¬ ∀ labels s, exec step Service.initial labels = some s → Correct s := by
  intro all
  have log : (exec step Service.initial
      [.configure 1 false, .query ⟨hello, 0, .failed, []⟩, .query ⟨hello, 1000, .failed, []⟩,
        .timer ⟨1, 0, false⟩, .finish, .tryQuery .connected [.sent 2], .task, .finish,
        .tryQuery .failed [], .query ⟨hello, 1000, .failed, [.sent 2]⟩, .reply 0 false]).map
      Service.log = some [(0, .timeout), (1, .connectClosed), (2, .success (some 1))] := by
    decide +kernel
  obtain ⟨s, ran, isLog⟩ := Option.map_eq_some_iff.mp log
  have answers := (all _ s ran).answers 2 (some 1)
  rw [isLog] at answers
  exact absurd (answers (by simp)) (by simp)

end MlsImgSearch.Blitz2.QueryMatching
