import MlsImgSearch.Blitz2.HbaseRegions
import MlsImgSearch.Lib.Run
import MlsImgSearch.Lib.Strings

/-!
# Requests to a table

A request is sent to the server of its row. If the cache does not know the server,
the root server is asked for the region, and if the root server is not known,
zookeeper is asked for it first. Each of these calls ends with a completion.
-/

namespace MlsImgSearch.Blitz2.HbaseRequests

open Lib.Run
open Lib.Strings (lexicalCastInt)
open HalfDuplexService (QueryResult)
open HbaseRegions

/-! ## The host of the root server -/

/-- The result of `ParseHostPort`; `fault` is an exception or a read outside of the value. -/
inductive HostPort where
  | fault
  | rejected
  | parsed (host : Text) (port : Int)
  deriving DecidableEq

/-- The four bytes behind the magic byte, as an `int32_t`. -/
def idLength (hostport : Text) : Int :=
  let number : Int := ((hostport.drop 1).take 4).foldl (fun n b => n * 256 + b.val) 0
  if number < 2 ^ 31 then number else number - 2 ^ 32

/-- What stands behind the magic byte and the id, if there are any. -/
def realHostport (hostport : Text) : Option Text :=
  if hostport.head? = some 255 then
    let offset := 5 + idLength hostport
    if 5 ≤ hostport.length ∧ 0 ≤ offset ∧ offset ≤ hostport.length then
      some (hostport.drop offset.toNat)
    else none
  else some hostport

def parseHostPort (hostport : Text) : HostPort :=
  match realHostport hostport with
  | none => .fault
  | some real =>
      match real.splitOn 44 with
      | host :: port :: _ =>
          (lexicalCastInt (port.map fun b => Char.ofNat b.val)).elim .fault (.parsed host)
      | _ => .rejected

/-! ## A request -/

inductive Operation where
  | get
  | set
  deriving DecidableEq

/-- The completion that a request waits for. -/
inductive Waiting where
  | zookeeper
  | root
  | region
  deriving DecidableEq

/-- A call of `Get` or `Set`. `retries` is its `retry_count` and `retryCount` what is left of it;
`sent` are the region servers it was sent to, `completions` counts the completions that ran for it,
and `answers` are the calls of its callback. -/
structure Request (Cells : Type) where
  operation : Operation
  table : Text
  row : Text
  expire : Nat
  retries : Int
  retryCount : Int
  waiting : Option Waiting
  sent : List Nat
  completions : Nat
  answers : List (QueryResult × Option Cells)

variable {Cells : Type}

/-- The callback of a `Set` gets no cells. -/
def callback (r : Request Cells) (result : QueryResult) (cells : Option Cells) : Request Cells :=
  { r with
    waiting := none
    answers := r.answers ++ [(result, if r.operation = .get then cells else none)] }

/-- `GetSendReq` and `SetSendReq`. -/
def sendReq (r : Request Cells) : Option Nat → Request Cells
  | none => callback r .internal none
  | some server => { r with waiting := some .region, sent := r.sent ++ [server] }

def rootGetRegionInfo (h : Hbase) (r : Request Cells) (curTime : Nat) : Request Cells :=
  match h.rootServer with
  | none => sendReq r none
  | some _ =>
      if curTime < r.expire then { r with waiting := some .root } else sendReq r none

def loadRegionInfo (h : Hbase) (r : Request Cells) (curTime : Nat) : Request Cells :=
  match h.rootServer with
  | none => { r with waiting := some .zookeeper }
  | some _ => rootGetRegionInfo h r curTime

/-- `GetInvoke` and `SetInvoke`. -/
def invoke (h : Hbase) (r : Request Cells) (curTime : Nat) : Hbase × Request Cells :=
  match findRegionServer h r.table r.row with
  | (h, some server) => (h, sendReq r (some server))
  | (h, none) => (h, loadRegionInfo h r curTime)

/-- `RegionServerOnGet` and `RegionServerOnSet`; `reply` is what `recv_get` or `recv_mutateRow`
reads, and they throw on `none`. `now` and `curTime` are two reads of the clock. -/
def regionServerOn (h : Hbase) (r : Request Cells) (result : QueryResult) (reply : Option Cells)
    (now curTime : Nat) : Hbase × Request Cells :=
  if result = .success then
    match reply with
    | some cells => (h, callback r result (some cells))
    | none => (h, callback r .invalidResp none)
  else if result = .timeout then (h, callback r result none)
  else if 0 < r.retryCount ∧ now < r.expire then
    invoke h { r with retryCount := r.retryCount - 1 } curTime
  else (h, callback r result none)

/-- `ZookeeperGetRootServerCompletion` without its continuation; it throws on `none`. -/
def zookeeperGetRootServerCompletion (h : Hbase) (value : Option Text) : Option Hbase :=
  let h := { h with regions := fun table => (h.regions table).map fun _ => [] }
  match value with
  | none => some { h with rootServer := none }
  | some value =>
      match parseHostPort value with
      | .fault => none
      | .rejected => some h
      | .parsed host _ => some { h with rootServer := findRegionServerByHost h host }

/-- `ZookeeperGetRegionServersCompletion`, with the hosts of the list and the servers that would be
created for them. -/
def zookeeperGetRegionServersCompletion (h : Hbase) (hosts : List (Text × Nat)) : Hbase :=
  { h with
    regions := fun table => (h.regions table).map fun _ => []
    regionServers := hosts.foldl (fun servers host => fun name =>
      if name = host.1 ∧ servers name = none then some host.2 else servers name)
        h.regionServers }

/-! ## Steps -/

/-- `fault` is an exception that left a completion, a failed assertion or the use of a null
pointer. -/
structure State (Cells : Type) where
  hbase : Hbase
  requests : List (Request Cells)
  fault : Bool

inductive Event (Cells : Type) where
  | call (operation : Operation) (table row : Text) (expire : Nat) (retries : Int) (curTime : Nat)
  | zookeeper (i : Nat) (value : Option Text) (curTime : Nat)
  | root (i : Nat) (result : QueryResult) (reply : Option TRegionInfo) (now : Nat)
  | region (i : Nat) (result : QueryResult) (reply : Option Cells) (now curTime : Nat)
  /-- The watcher asked for the root server. -/
  | rootServer (value : Option Text)
  /-- The watcher asked for the region servers. -/
  | regionServers (hosts : List (Text × Nat))

def newRequest (operation : Operation) (table row : Text) (expire : Nat) (retries : Int) :
    Request Cells :=
  ⟨operation, table, row, expire, retries, retries, none, [], 0, []⟩

/-- The request with this number, if it waits for this completion, at the time the completion
runs. -/
def waitingFor (s : State Cells) (i : Nat) (waiting : Waiting) : Option (Request Cells) :=
  s.requests[i]?.bind fun r =>
    if r.waiting = some waiting then
      some { r with waiting := none, completions := r.completions + 1 }
    else none

def setRequest (s : State Cells) (i : Nat) (h : Hbase) (r : Request Cells) : State Cells :=
  { s with hbase := h, requests := s.requests.set i r }

/-- A completion that did not come to its end. -/
def failRequest (s : State Cells) (i : Nat) (r : Request Cells) : State Cells :=
  { s with requests := s.requests.set i r, fault := true }

def handleEvent (s : State Cells) : Event Cells → Option (State Cells)
  | .call operation table row expire retries curTime =>
      let (h, r) := invoke s.hbase (newRequest operation table row expire retries) curTime
      some { s with hbase := h, requests := s.requests ++ [r] }
  | .zookeeper i value curTime =>
      (waitingFor s i .zookeeper).map fun r =>
        match zookeeperGetRootServerCompletion s.hbase value with
        | none => failRequest s i r
        | some h => setRequest s i h (rootGetRegionInfo h r curTime)
  | .root i result reply now =>
      (waitingFor s i .root).map fun r =>
        match rootOnGetRegionInfo s.hbase result now r.expire reply r.table r.row with
        | .crashed => failRequest s i r
        | .called h server _ => setRequest s i h (sendReq r server)
  | .region i result reply now curTime =>
      (waitingFor s i .region).map fun r =>
        let (h, r) := regionServerOn s.hbase r result reply now curTime
        setRequest s i h r
  | .rootServer value =>
      some (match zookeeperGetRootServerCompletion s.hbase value with
        | none => { s with fault := true }
        | some h => { s with hbase := h })
  | .regionServers hosts =>
      some { s with hbase := zookeeperGetRegionServersCompletion s.hbase hosts }

/-- Nothing runs after a fault. -/
def step (s : State Cells) (event : Event Cells) : Option (State Cells) :=
  if s.fault then none else handleEvent s event

def State.initial (h : Hbase) : State Cells := ⟨h, [], false⟩

/-! ## What is wanted -/

/-- Answered once when it waits for nothing more, and not before, after a bounded number of
completions and sends. -/
structure AnsweredOnce (r : Request Cells) : Prop where
  answers : r.answers.length = if r.waiting = none then 1 else 0
  completions : (r.completions : Int) + (if r.waiting = none then 0 else 1) ≤ 3 * (r.retries + 1)
  sent : (r.sent.length : Int) ≤ r.retries + 1

structure Correct (s : State Cells) : Prop where
  fault : s.fault = false
  requests : ∀ r ∈ s.requests, AnsweredOnce r

/-- The value of the root server can be parsed or rejected. -/
def Readable (value : Option Text) : Prop := ∀ text ∈ value, parseHostPort text ≠ .fault

instance decidableReadable (value : Option Text) : Decidable (Readable value) :=
  inferInstanceAs (Decidable (∀ text ∈ value, _))

/-- The retry count is not negative, zookeeper gives a value that can be read, and a region that is
received in time can be read and does not start behind the row. -/
def Allowed (s : State Cells) : Event Cells → Prop
  | .call _ _ _ _ retries _ => 0 ≤ retries
  | .zookeeper _ value _ => Readable value
  | .root i result reply now => ∀ r ∈ s.requests[i]?, result = .success → now ≤ r.expire →
      ∃ region ∈ reply, region.startKey ≤ r.row
  | .region _ _ _ _ _ => True
  | .rootServer value => Readable value
  | .regionServers _ => True

instance decidableAllowed (s : State Cells) : ∀ event, Decidable (Allowed s event)
  | .call _ _ _ _ retries _ => inferInstanceAs (Decidable (0 ≤ retries))
  | .zookeeper _ value _ => inferInstanceAs (Decidable (Readable value))
  | .root i _ _ _ => inferInstanceAs (Decidable (∀ r ∈ s.requests[i]?, _))
  | .region _ _ _ _ _ => isTrue trivial
  | .rootServer value => inferInstanceAs (Decidable (Readable value))
  | .regionServers _ => isTrue trivial

/-! ## One request -/

/-- The completions that a request may still need before the next retry. -/
def Waiting.completions : Waiting → Int
  | zookeeper => 3
  | root => 2
  | region => 1

/-- The sends before the next retry. -/
def Waiting.sends : Waiting → Int
  | zookeeper => 1
  | root => 1
  | region => 0

/-- A request that was not answered, with the completions and sends that it may still need. -/
structure Unanswered (r : Request Cells) (completions sends : Int) : Prop where
  answers : r.answers = []
  retryCount : 0 ≤ r.retryCount
  completions : r.completions + completions + 3 * r.retryCount ≤ 3 * (r.retries + 1)
  sent : r.sent.length + sends + r.retryCount ≤ r.retries + 1

/-- A request between two events. -/
def Sound (r : Request Cells) : Prop :=
  match r.waiting with
  | none => AnsweredOnce r
  | some waiting => Unanswered r waiting.completions waiting.sends

section Request

variable {r : Request Cells} {h : Hbase} {completions sends : Int}

theorem Unanswered.less (unanswered : Unanswered r completions sends) {completions' sends' : Int}
    (fewer : completions' ≤ completions) (fewer' : sends' ≤ sends) :
    Unanswered r completions' sends' := by
  refine ⟨unanswered.answers, unanswered.retryCount, ?_, ?_⟩
  · have := unanswered.completions
    omega
  · have := unanswered.sent
    omega

theorem Sound.answeredOnce (sound : Sound r) : AnsweredOnce r := by
  unfold Sound at sound
  split at sound
  · exact sound
  · rename_i waiting isWaiting
    obtain ⟨answers, retryCount, completions, sent⟩ := sound
    refine ⟨by simp [isWaiting, answers], ?_, ?_⟩
    · cases waiting <;> simp only [isWaiting, Waiting.completions] at completions ⊢ <;> simp <;>
        omega
    · cases waiting <;> simp only [Waiting.sends] at sent <;> omega

theorem callback_sound (unanswered : Unanswered r 0 0) (result : QueryResult)
    (cells : Option Cells) : Sound (callback r result cells) := by
  obtain ⟨answers, retryCount, completions, sent⟩ := unanswered
  refine AnsweredOnce.mk ?_ ?_ ?_
  · simp [callback, answers]
  · simp [callback]
    omega
  · simp [callback]
    omega

theorem wait_sound (waiting : Waiting)
    (unanswered : Unanswered r waiting.completions waiting.sends) :
    Sound { r with waiting := some waiting } :=
  ⟨unanswered.answers, unanswered.retryCount, unanswered.completions, unanswered.sent⟩

theorem sendReq_sound (unanswered : Unanswered r 1 1) (server : Option Nat) :
    Sound (sendReq r server) := by
  cases server with
  | none => exact callback_sound (unanswered.less (by omega) (by omega)) _ _
  | some server =>
      obtain ⟨answers, retryCount, completions, sent⟩ := unanswered
      refine Unanswered.mk answers retryCount completions ?_
      simp only [sendReq, List.length_append, List.length_singleton, Waiting.sends]
      omega

theorem rootGetRegionInfo_sound (unanswered : Unanswered r 2 1) (curTime : Nat) :
    Sound (rootGetRegionInfo h r curTime) := by
  have send := sendReq_sound (unanswered.less (by omega) (le_refl 1)) none
  unfold rootGetRegionInfo
  split
  · exact send
  · split
    · exact wait_sound .root unanswered
    · exact send

theorem loadRegionInfo_sound (unanswered : Unanswered r 3 1) (curTime : Nat) :
    Sound (loadRegionInfo h r curTime) := by
  unfold loadRegionInfo
  split
  · exact wait_sound .zookeeper unanswered
  · exact rootGetRegionInfo_sound (unanswered.less (by omega) (le_refl 1)) curTime

@[simp]
theorem sendReq_table (r : Request Cells) (server : Option Nat) :
    (sendReq r server).table = r.table := by
  cases server <;> rfl

@[simp]
theorem rootGetRegionInfo_table (h : Hbase) (r : Request Cells) (curTime : Nat) :
    (rootGetRegionInfo h r curTime).table = r.table := by
  unfold rootGetRegionInfo
  split
  · exact sendReq_table r none
  · split
    · rfl
    · exact sendReq_table r none

@[simp]
theorem loadRegionInfo_table (h : Hbase) (r : Request Cells) (curTime : Nat) :
    (loadRegionInfo h r curTime).table = r.table := by
  unfold loadRegionInfo
  split
  · rfl
  · exact rootGetRegionInfo_table h r curTime

end Request

/-! ## Tables -/

section Tables

variable {h : Hbase} {r : Request Cells}

/-- A table that was looked up keeps an entry. -/
def KeepsTables (h h' : Hbase) : Prop :=
  ∀ table, (h.regions table).isSome → (h'.regions table).isSome

theorem keepsTables_setTable (table : Text) (cache : TableRegions) :
    KeepsTables h (setTable h table cache) := by
  intro other known
  simp only [setTable]
  split
  · rfl
  · exact known

theorem findRegionServer_spec (h : Hbase) (table row : Text) :
    KeepsTables h (findRegionServer h table row).1 ∧
      ((findRegionServer h table row).1.regions table).isSome := by
  unfold findRegionServer
  split
  · exact ⟨keepsTables_setTable table [], by simp [setTable]⟩
  · rename_i known
    exact ⟨fun _ known => known, by simp [known]⟩

theorem keepsTables_zookeeper {value : Option Text} {h' : Hbase}
    (completed : zookeeperGetRootServerCompletion h value = some h') : KeepsTables h h' := by
  have emptied : KeepsTables h { h with regions := fun table => (h.regions table).map fun _ => [] } :=
    fun table known => by simpa using known
  unfold zookeeperGetRootServerCompletion at completed
  simp only at completed
  split at completed
  · obtain rfl := Option.some.inj completed
    exact emptied
  · split at completed
    · exact absurd completed (by simp)
    · obtain rfl := Option.some.inj completed
      exact emptied
    · obtain rfl := Option.some.inj completed
      exact emptied

/-- A table with an entry is used, and a region that can be read does not start behind the row. -/
theorem rootOnGetRegionInfo_called {result : QueryResult} {now expireTime : Nat}
    {reply : Option TRegionInfo} {table row : Text} (known : (h.regions table).isSome)
    (readable : result = .success → now ≤ expireTime →
      ∃ region ∈ reply, region.startKey ≤ row) :
    ∃ h' server cached, KeepsTables h h' ∧
      rootOnGetRegionInfo h result now expireTime reply table row = .called h' server cached := by
  have same : KeepsTables h h := fun _ known => known
  unfold rootOnGetRegionInfo
  split
  · exact ⟨h, _, _, same, rfl⟩
  · rename_i success
    split
    · exact ⟨h, _, _, same, rfl⟩
    · rename_i inTime
      obtain ⟨region, rfl, starts⟩ := readable (not_not.mp success) (not_lt.mp inTime)
      obtain ⟨cache, isCache⟩ := Option.isSome_iff_exists.mp known
      simp only [if_neg (not_lt.mpr starts), isCache]
      split
      · exact ⟨_, _, _, keepsTables_setTable _ _, rfl⟩
      · exact ⟨h, _, _, same, rfl⟩

theorem invoke_sound (unanswered : Unanswered r 3 1) (curTime : Nat) :
    KeepsTables h (invoke h r curTime).1 ∧ Sound (invoke h r curTime).2 ∧
      ((invoke h r curTime).1.regions (invoke h r curTime).2.table).isSome := by
  obtain ⟨keeps, known⟩ := findRegionServer_spec h r.table r.row
  unfold invoke
  split
  · rename_i h' server found
    rw [found] at keeps known
    refine ⟨keeps, sendReq_sound (unanswered.less (by omega) (le_refl 1)) (some server), ?_⟩
    rw [sendReq_table]
    exact known
  · rename_i h' found
    rw [found] at keeps known
    refine ⟨keeps, loadRegionInfo_sound unanswered curTime, ?_⟩
    rw [loadRegionInfo_table]
    exact known

theorem regionServerOn_sound (unanswered : Unanswered r 0 0) (known : (h.regions r.table).isSome)
    (result : QueryResult) (reply : Option Cells) (now curTime : Nat) :
    KeepsTables h (regionServerOn h r result reply now curTime).1 ∧
      Sound (regionServerOn h r result reply now curTime).2 ∧
      ((regionServerOn h r result reply now curTime).1.regions
        (regionServerOn h r result reply now curTime).2.table).isSome := by
  have called : ∀ result cells, KeepsTables h h ∧ Sound (callback r result cells) ∧
      (h.regions (callback r result cells).table).isSome := fun result cells =>
    ⟨fun _ known => known, callback_sound unanswered result cells, known⟩
  unfold regionServerOn
  split
  · split
    · exact called _ _
    · exact called _ _
  · split
    · exact called _ _
    · split
      · rename_i left
        have again : Unanswered { r with retryCount := r.retryCount - 1 } 3 1 := by
          refine ⟨unanswered.answers, Int.sub_nonneg_of_le left.1, ?_, ?_⟩
          · have := unanswered.completions
            simp only
            omega
          · have := unanswered.sent
            simp only
            omega
        exact invoke_sound again curTime
      · exact called _ _

end Tables

/-! ## Runs -/

section Runs

variable {s s' : State Cells}

structure Inv (s : State Cells) : Prop where
  fault : s.fault = false
  sound : ∀ r ∈ s.requests, Sound r
  known : ∀ r ∈ s.requests, (s.hbase.regions r.table).isSome

theorem waitingFor_some {i : Nat} {waiting : Waiting} {r : Request Cells} (inv : Inv s)
    (found : waitingFor s i waiting = some r) :
    Unanswered r (waiting.completions - 1) waiting.sends ∧
      (s.hbase.regions r.table).isSome ∧
      ∃ before, s.requests[i]? = some before ∧ before.expire = r.expire ∧ before.row = r.row := by
  obtain ⟨before, atIndex, rest⟩ := Option.bind_eq_some_iff.mp found
  split at rest
  · rename_i waits
    obtain rfl := Option.some.inj rest
    have sound := inv.sound before (List.mem_of_getElem? atIndex)
    rw [Sound, waits] at sound
    refine ⟨⟨sound.answers, sound.retryCount, ?_, sound.sent⟩,
      inv.known before (List.mem_of_getElem? atIndex), before, atIndex, rfl, rfl⟩
    have := sound.completions
    push_cast
    omega
  · exact absurd rest (by simp)

/-- The request that an event was for has changed, and the tables are kept. -/
theorem setRequest_inv {i : Nat} {h : Hbase} {r : Request Cells} (inv : Inv s)
    (keeps : KeepsTables s.hbase h) (sound : Sound r) (known : (h.regions r.table).isSome) :
    Inv (setRequest s i h r) := by
  refine ⟨inv.fault, fun r' member => ?_, fun r' member => ?_⟩
  · rcases List.mem_or_eq_of_mem_set member with old | rfl
    · exact inv.sound r' old
    · exact sound
  · rcases List.mem_or_eq_of_mem_set member with old | rfl
    · exact keeps _ (inv.known r' old)
    · exact known

theorem zookeeper_some {h : Hbase} {value : Option Text} (readable : Readable value) :
    ∃ h', zookeeperGetRootServerCompletion h value = some h' := by
  unfold zookeeperGetRootServerCompletion
  cases value with
  | none => exact ⟨_, rfl⟩
  | some text =>
      simp only
      split
      · rename_i fault
        exact absurd fault (readable text rfl)
      · exact ⟨_, rfl⟩
      · exact ⟨_, rfl⟩

theorem handleEvent_inv {event : Event Cells} (inv : Inv s) (allowed : Allowed s event)
    (handled : handleEvent s event = some s') : Inv s' := by
  cases event with
  | call operation table row expire retries curTime =>
      obtain rfl := Option.some.inj handled
      have fresh : Unanswered (newRequest operation table row expire retries : Request Cells) 3 1 :=
        ⟨rfl, allowed, by simp [newRequest]; omega, by simp [newRequest]; omega⟩
      obtain ⟨keeps, sound, known⟩ := invoke_sound (h := s.hbase) fresh curTime
      refine ⟨inv.fault, fun r member => ?_, fun r member => ?_⟩
      · rcases List.mem_append.mp member with old | new
        · exact inv.sound r old
        · rw [List.mem_singleton.mp new]
          exact sound
      · rcases List.mem_append.mp member with old | new
        · exact keeps _ (inv.known r old)
        · rw [List.mem_singleton.mp new]
          exact known
  | zookeeper i value curTime =>
      obtain ⟨r, found, rfl⟩ := Option.map_eq_some_iff.mp handled
      obtain ⟨unanswered, known, -⟩ := waitingFor_some inv found
      obtain ⟨h, completed⟩ := zookeeper_some (h := s.hbase) allowed
      have keeps := keepsTables_zookeeper completed
      rw [completed]
      refine setRequest_inv inv keeps (rootGetRegionInfo_sound unanswered curTime) ?_
      rw [rootGetRegionInfo_table]
      exact keeps _ known
  | root i result reply now =>
      obtain ⟨r, found, rfl⟩ := Option.map_eq_some_iff.mp handled
      obtain ⟨unanswered, known, before, atIndex, sameExpire, sameRow⟩ := waitingFor_some inv found
      have readable := allowed before atIndex
      rw [sameExpire, sameRow] at readable
      obtain ⟨h, server, cached, keeps, called⟩ := rootOnGetRegionInfo_called known readable
      rw [called]
      refine setRequest_inv inv keeps (sendReq_sound unanswered server) ?_
      rw [sendReq_table]
      exact keeps _ known
  | region i result reply now curTime =>
      obtain ⟨r, found, rfl⟩ := Option.map_eq_some_iff.mp handled
      obtain ⟨unanswered, known, -⟩ := waitingFor_some inv found
      obtain ⟨keeps, sound, known'⟩ :=
        regionServerOn_sound unanswered known result reply now curTime
      exact setRequest_inv inv keeps sound known'
  | rootServer value =>
      obtain rfl := Option.some.inj handled
      obtain ⟨h, completed⟩ := zookeeper_some (h := s.hbase) allowed
      rw [completed]
      exact ⟨inv.fault, inv.sound, fun r member =>
        keepsTables_zookeeper completed _ (inv.known r member)⟩
  | regionServers hosts =>
      obtain rfl := Option.some.inj handled
      refine ⟨inv.fault, inv.sound, fun r member => ?_⟩
      simpa [zookeeperGetRegionServersCompletion] using inv.known r member

theorem step_inv {event : Event Cells} (inv : Inv s) (allowed : Allowed s event)
    (taken : step s event = some s') : Inv s' := by
  rw [step, if_neg (by simp [inv.fault])] at taken
  exact handleEvent_inv inv allowed taken

/-- The root server is known and serves all rows of all tables. -/
def oneServer : Hbase := ⟨some 1, fun _ => none, fun host => if host = [104] then some 1 else none⟩

/-- A request whose region is asked for, and which is sent again after its connect was closed. -/
def retryRun : List (Event Nat) :=
  [.call .get [116] [97] 10 1 0, .root 0 .success (some ⟨[], [], [104], 9090⟩) 1,
    .region 0 .connectClosed none 2 2, .region 0 .success (some 7) 3 3]

end Runs

end MlsImgSearch.Blitz2.HbaseRequests
