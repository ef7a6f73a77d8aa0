import MlsImgSearch.Blitz.MemcachedServer

/-!
# Connections of the memcached server

Each connection has a decoder of its own. The lines of all connections go into one queue, and the
workers answer them. A decoder that has no room left closes its connection.
-/

namespace MlsImgSearch.Blitz.MemcachedRuns

open Lib.Bytes Lib.Lines Lib.Run
open LineMsg (InMsg lf moreLines_cut)
open ImgdbProxyServer (Fault Event)
open MemcachedServerMsg (MemcachedServerMsgDecoder Holds decoder getBuffer prepareBuffer feed
  deliver_spec holds_initial)
open MemcachedServer (kDefaultMaxMemcachedServerLength realProcessMsg realProcessMsg_spec answered answer
  requestedKey Sized)
open TaskServer (Server Message Outcome)

/-! ## A piece that fills the buffer -/

section Filled

variable {junk : Nat → UInt8} {maxLength : Nat} {s : MemcachedServerMsgDecoder}
  {held piece : List UInt8}

/-- No byte is lost. -/
theorem length_flatten_linesFrom (held piece : List UInt8) :
    (linesFrom lf held piece).1.flatten.length + (linesFrom lf held piece).2.length =
      held.length + piece.length := by
  rw [← List.length_append, flatten_linesFrom, List.length_append]

/-- A piece that fills the buffer is an error exactly if no line ends in it. -/
theorem deliver_filled (junk : Nat → UInt8) (holds : Holds maxLength s held)
    (open' : held.length < maxLength) (filled : held.length + piece.length = maxLength) :
    ((decoder junk maxLength).deliver s piece = none ∧ (linesFrom lf held piece).1 = []) ∨
      ∃ s' msgs, (decoder junk maxLength).deliver s piece = some (s', msgs) ∧
        msgs.map InMsg.bytes = (linesFrom lf held piece).1 ∧
        Holds maxLength s' (linesFrom lf held piece).2 ∧
        (linesFrom lf held piece).2.length < maxLength := by
  obtain ⟨block, written, size, content⟩ := holds.stored junk (Nat.le_of_eq filled)
  have offered : getBuffer maxLength s = some (maxLength - s.dataLength) :=
    if_neg (by rw [holds.length]; omega)
  have follows := slice_of_take content
  have opened : (block.drop 0).take (held.length - 0) = held := by
    have front := congrArg (List.take held.length) content
    rwa [List.take_take, Nat.min_eq_left (Nat.le_add_right _ _), List.take_left' rfl] at front
  have cut := moreLines_cut (Nat.zero_le held.length) opened follows
  have fed : (decoder junk maxLength).deliver s piece = feed junk maxLength s block piece.length := by
    show ((getBuffer maxLength s).bind fun room => if room < piece.length then none
      else (writeAt (prepareBuffer junk maxLength s) s.dataLength piece).bind fun block =>
        feed junk maxLength s block piece.length) = _
    rw [offered, Option.bind_some, if_neg (by rw [holds.length]; omega), written, Option.bind_some]
  rw [fed, feed, holds.length, follows]
  dsimp only
  generalize LineMsg.moreLines block piece 0 held.length = result at cut ⊢
  obtain ⟨msgs, prev⟩ := result
  have left := cut.left
  have le := cut.le
  have count := congrArg List.length left
  rw [List.length_take, List.length_drop, size, Nat.min_eq_left (by omega)] at count
  dsimp only at left le count ⊢
  by_cases first : prev = 0
  · left
    have noLines : (linesFrom lf held piece).1 = [] := by
      by_contra some'
      have moved := cut.moves some'
      dsimp only at moved
      omega
    rw [if_pos (by omega), if_pos first, if_pos (Nat.le_of_eq filled.symm)]
    exact ⟨rfl, noLines⟩
  right
  by_cases more : prev < held.length + piece.length
  · obtain ⟨fresh, moved⟩ : ∃ fresh, writeAt (malloc junk (maxLength + 1)) 0
        (linesFrom lf held piece).2 = some fresh :=
      ⟨_, writeAt_eq_some (by rw [← count, length_malloc]; omega)⟩
    have kept := take_writeAt moved
    rw [← count, Nat.zero_add, List.take_zero, List.nil_append] at kept
    rw [if_pos more, if_neg first, left, moved]
    refine ⟨_, _, rfl, cut.texts, ⟨fun _ same => ?_, count, kept⟩, by omega⟩
    rw [← Option.some.inj same, length_writeAt moved, length_malloc]
  · have nothing : (linesFrom lf held piece).2 = [] := by
      rw [← left, Nat.sub_eq_zero_of_le (Nat.le_of_not_lt more), List.take_zero]
    rw [if_neg more, nothing]
    exact ⟨_, _, rfl, cut.texts, ⟨fun _ same => Option.some.inj same ▸ size, rfl, List.take_zero⟩,
      by rw [List.length_nil]; omega⟩

/-- Any piece that fits gives its lines, or it is an error and had none. -/
theorem deliver_fits (junk : Nat → UInt8) (holds : Holds maxLength s held)
    (open' : held.length < maxLength) (fits : held.length + piece.length ≤ maxLength) :
    ((decoder junk maxLength).deliver s piece = none ∧ (linesFrom lf held piece).1 = []) ∨
      ∃ s' msgs, (decoder junk maxLength).deliver s piece = some (s', msgs) ∧
        msgs.map InMsg.bytes = (linesFrom lf held piece).1 ∧
        Holds maxLength s' (linesFrom lf held piece).2 ∧
        (linesFrom lf held piece).2.length < maxLength := by
  rcases Nat.lt_or_eq_of_le fits with short | filled
  · obtain ⟨s', msgs, delivered, texts, holds'⟩ := deliver_spec junk holds short
    refine Or.inr ⟨s', msgs, delivered, texts, holds', ?_⟩
    have total := length_flatten_linesFrom held piece
    omega
  · exact deliver_filled junk holds open' filled

/-- A line of a piece that fits is not longer than the buffer. -/
theorem length_le_of_mem_lines {line : List UInt8} (fits : held.length + piece.length ≤ maxLength)
    (member : line ∈ (linesFrom lf held piece).1) : line.length ≤ maxLength := by
  have total := length_flatten_linesFrom held piece
  have part := (List.sublist_flatten_of_mem member).length_le
  omega

end Filled

/-! ## Connections and workers -/

/-- A connection; `received` are all bytes that it received. -/
structure Connection where
  decoder : MemcachedServerMsgDecoder
  opened : Bool
  received : List UInt8

def Connection.initial : Connection := ⟨.initial, true, []⟩

/-- What the workers do for a line. -/
abbrev Effect := Except Fault (List Event)

/-- All connections and the server. A line stands in the queue with the number of its connection. -/
structure System (ι κ : Type) where
  connections : ι → Connection
  server : Server (ι × InMsg) κ Effect

def System.initial (ι κ : Type) : System ι κ := ⟨fun _ => .initial, .initial _ _ _⟩

/-- The loop over the messages in `OnRead`; the clock shows the time of each. -/
def processMsgs {μ κ ε : Type} (timeout : Int) (clock : Nat → Nat) :
    Server μ κ ε → List μ → Server μ κ ε
  | server, [] => server
  | server, msg :: msgs =>
      processMsgs timeout (fun i => clock (i + 1)) (TaskServer.processMsg timeout server (clock 0) msg)
        msgs

/-- A piece is received, a connection is closed, or a worker takes its next step. -/
inductive Label (ι κ : Type) where
  | received (io : ι) (piece : List UInt8) (clock : Nat → Nat)
  | closed (io : ι)
  | popValidTask (worker : κ) (clock : Nat → Nat)
  | taskCallback (worker : κ) (sendMsg : Int)

section Steps

variable {ι κ : Type} [DecidableEq ι] [DecidableEq κ]
variable (junk : Nat → UInt8) (maxLength : Nat) (timeout : Int)
  (getItemData : List UInt8 → Option (List UInt8))

/-- One turn of the loop of `OnRead`. The connection is closed after an error. -/
def onRead (s : System ι κ) (io : ι) (piece : List UInt8) (clock : Nat → Nat) : System ι κ :=
  let connection := s.connections io
  let received := connection.received ++ piece
  match (decoder junk maxLength).deliver connection.decoder piece with
  | none =>
      { s with
        connections := Function.update s.connections io
          { connection with opened := false, received := received } }
  | some (decoder, msgs) =>
      { s with
        connections := Function.update s.connections io
          { connection with decoder := decoder, received := received }
        server := processMsgs timeout clock s.server (msgs.map fun msg => (io, msg)) }

/-- What a worker does for a line. -/
def lineProcess (sendMsg : Int) (task : ι × InMsg) : Effect :=
  realProcessMsg getItemData sendMsg task.2.bytes

def step (s : System ι κ) : Label ι κ → Option (System ι κ)
  | .received io piece clock =>
      if (s.connections io).opened then some (onRead junk maxLength timeout s io piece clock) else none
  | .closed io =>
      some { s with
        connections := Function.update s.connections io { s.connections io with opened := false } }
  | .popValidTask worker clock => some { s with server := TaskServer.popValidTask s.server worker clock }
  | .taskCallback worker sendMsg =>
      (TaskServer.taskCallback s.server worker (lineProcess getItemData sendMsg)).map fun server =>
        { s with server := server }

/-- A piece fits into the buffer that is offered, and a worker processes what it has taken before it
takes more. -/
def Allowed (s : System ι κ) : Label ι κ → Prop
  | .received io piece _ =>
      (s.connections io).opened = true ∧
        ∀ room ∈ getBuffer maxLength (s.connections io).decoder, piece.length ≤ room
  | .closed _ => True
  | .popValidTask worker _ => s.server.current worker = none
  | .taskCallback worker _ => s.server.current worker ≠ none

instance decidableAllowed (s : System ι κ) :
    ∀ label : Label ι κ, Decidable (Allowed maxLength s label)
  | .received io piece _ =>
      decidable_of_iff ((s.connections io).opened = true ∧
        (getBuffer maxLength (s.connections io).decoder).all (fun room => piece.length ≤ room) = true) (by
          simp [Allowed, Option.all_eq_true])
  | .closed _ => inferInstanceAs (Decidable True)
  | .popValidTask worker _ =>
      decidable_of_iff ((s.server.current worker).isNone = true) (by simp [Allowed])
  | .taskCallback worker _ =>
      decidable_of_iff ((s.server.current worker).isSome = true) (by
        simp [Allowed, Option.isSome_iff_ne_none])

end Steps

/-! ## Any run -/

section Runs

variable {ι κ : Type} [DecidableEq ι] [DecidableEq κ]

/-- The lines of a connection among some messages. -/
def linesOf (io : ι) (tasks : List (Message (ι × InMsg))) : List (List UInt8) :=
  (tasks.filter fun task => task.args.1 = io).map fun task => task.args.2.bytes

/-- What holds in every run. -/
structure Sound (maxLength : Nat) (getItemData : List UInt8 → Option (List UInt8)) (s : System ι κ) :
    Prop where
  server : TaskServer.Sound (lineProcess getItemData) s.server
  /-- An open connection holds its unfinished line and has room left. -/
  holds : ∀ io, (s.connections io).opened = true →
    Holds maxLength (s.connections io).decoder (lines lf (s.connections io).received).2 ∧
      (lines lf (s.connections io).received).2.length < maxLength
  /-- The messages of a connection are the lines that it received. -/
  isLines : ∀ io, linesOf io s.server.record.posted = (lines lf (s.connections io).received).1
  short : ∀ task ∈ s.server.record.posted, task.args.2.bytes.length ≤ maxLength

variable {junk : Nat → UInt8} {maxLength : Nat} {timeout : Int}
  {getItemData : List UInt8 → Option (List UInt8)} {s : System ι κ}

omit [DecidableEq ι] [DecidableEq κ] in
theorem posted_processMsgs {μ ε : Type} (timeout : Int) (clock : Nat → Nat) (server : Server μ κ ε)
    (msgs : List μ) :
    ∃ tasks, (processMsgs timeout clock server msgs).record.posted = server.record.posted ++ tasks ∧
      tasks.map (·.args) = msgs := by
  induction msgs generalizing clock server with
  | nil => exact ⟨[], (List.append_nil _).symm, rfl⟩
  | cons msg msgs ih =>
      obtain ⟨tasks, posted, rfl⟩ := ih (fun i => clock (i + 1))
        (TaskServer.processMsg timeout server (clock 0) msg)
      refine ⟨⟨msg, true, if 0 < timeout then clock 0 + timeout.toNat else 0⟩ :: tasks, ?_, rfl⟩
      rw [processMsgs, posted, TaskServer.processMsg]
      exact List.append_assoc ..

omit [DecidableEq ι] [DecidableEq κ] in
theorem sound_processMsgs {μ ε : Type} {process : Int → μ → ε} {server : Server μ κ ε}
    [DecidableEq κ] (sound : TaskServer.Sound process server) (clock : Nat → Nat) (msgs : List μ) :
    TaskServer.Sound process (processMsgs timeout clock server msgs) := by
  induction msgs generalizing clock server with
  | nil => exact sound
  | cons msg msgs ih => exact ih (sound.processMsg (clock 0) msg) fun i => clock (i + 1)

omit [DecidableEq κ] in
theorem linesOf_append (io : ι) (first second : List (Message (ι × InMsg))) :
    linesOf io (first ++ second) = linesOf io first ++ linesOf io second := by
  rw [linesOf, List.filter_append, List.map_append]
  rfl

/-- The messages of one connection. -/
theorem linesOf_same (io : ι) {tasks : List (Message (ι × InMsg))} {msgs : List InMsg}
    (same : tasks.map (·.args) = msgs.map fun msg => (io, msg)) (other : ι) :
    linesOf other tasks = if io = other then msgs.map InMsg.bytes else [] := by
  induction tasks generalizing msgs with
  | nil =>
      obtain rfl : msgs = [] := List.map_eq_nil_iff.mp same.symm
      split <;> rfl
  | cons task tasks ih =>
      cases msgs with
      | nil => cases same
      | cons msg msgs =>
          obtain ⟨isTask, later⟩ := List.cons.inj same
          have isTask : task.args = (io, msg) := isTask
          have tail := ih later
          rw [linesOf] at tail ⊢
          by_cases own : io = other
          · rw [if_pos own] at tail ⊢
            rw [List.filter_cons_of_pos (by rw [isTask]; exact decide_eq_true own), List.map_cons,
              tail, isTask]
            rfl
          · rw [if_neg own] at tail ⊢
            rw [List.filter_cons_of_neg (by rw [isTask]; simpa using own), tail]

theorem Sound.initial (some' : 0 < maxLength) : Sound maxLength getItemData (System.initial ι κ) where
  server := .initial
  holds := fun _ _ => ⟨holds_initial maxLength, some'⟩
  isLines := fun _ => rfl
  short := fun _ member => absurd member List.not_mem_nil

/-- A connection that is closed, without a new line. -/
theorem Sound.shut (sound : Sound maxLength getItemData s) (io : ι) {connection : Connection}
    (shut : connection.opened = false)
    (same : (lines lf connection.received).1 = (lines lf (s.connections io).received).1) :
    Sound maxLength getItemData
      { s with connections := Function.update s.connections io connection } := by
  constructor
  · exact sound.server
  · intro other isOpen
    dsimp only at isOpen ⊢
    rcases eq_or_ne other io with rfl | differ
    · rw [Function.update_self, shut] at isOpen
      cases isOpen
    · rw [Function.update_of_ne differ] at isOpen ⊢
      exact sound.holds other isOpen
  · intro other
    dsimp only
    rcases eq_or_ne other io with rfl | differ
    · rw [sound.isLines, Function.update_self, same]
    · rw [sound.isLines, Function.update_of_ne differ]
  · exact sound.short

/-- The messages of a piece are its lines, and the connection stays open. -/
theorem Sound.delivered (sound : Sound maxLength getItemData s) {io : ι} {connection : Connection}
    {msgs : List InMsg} {more : List (List UInt8)}
    (holds : Holds maxLength connection.decoder (lines lf connection.received).2)
    (room : (lines lf connection.received).2.length < maxLength)
    (grown : (lines lf connection.received).1 = (lines lf (s.connections io).received).1 ++ more)
    (texts : msgs.map InMsg.bytes = more) (short : ∀ line ∈ more, line.length ≤ maxLength)
    (clock : Nat → Nat) :
    Sound maxLength getItemData
      { connections := Function.update s.connections io connection
        server := processMsgs timeout clock s.server (msgs.map fun msg => (io, msg)) } := by
  obtain ⟨tasks, posted, areTasks⟩ := posted_processMsgs timeout clock s.server
    (msgs.map fun msg => (io, msg))
  constructor
  · exact sound_processMsgs sound.server clock _
  · intro other isOpen
    dsimp only at isOpen ⊢
    rcases eq_or_ne other io with rfl | differ
    · rw [Function.update_self]
      exact ⟨holds, room⟩
    · rw [Function.update_of_ne differ] at isOpen ⊢
      exact sound.holds other isOpen
  · intro other
    dsimp only
    rw [posted, linesOf_append, sound.isLines, linesOf_same io areTasks]
    rcases eq_or_ne other io with rfl | differ
    · rw [if_pos rfl, Function.update_self, grown, texts]
    · rw [if_neg (Ne.symm differ), Function.update_of_ne differ, List.append_nil]
  · intro task member
    dsimp only at member
    rw [posted, List.mem_append] at member
    rcases member with old | new
    · exact sound.short task old
    · have isNew : task.args ∈ msgs.map fun msg => (io, msg) := areTasks ▸ List.mem_map_of_mem new
      obtain ⟨msg, there, isMsg⟩ := List.mem_map.mp isNew
      rw [← isMsg]
      exact short _ (texts ▸ List.mem_map_of_mem there)

/-- A piece that a connection receives. -/
theorem Sound.onRead (sound : Sound maxLength getItemData s) {io : ι} {piece : List UInt8}
    (opened : (s.connections io).opened = true)
    (fits : ∀ room ∈ getBuffer maxLength (s.connections io).decoder, piece.length ≤ room)
    (clock : Nat → Nat) :
    Sound maxLength getItemData (onRead junk maxLength timeout s io piece clock) := by
  obtain ⟨holds, room⟩ := sound.holds io opened
  have offered : getBuffer maxLength (s.connections io).decoder =
      some (maxLength - (s.connections io).decoder.dataLength) :=
    if_neg (by rw [holds.length]; omega)
  have fits := fits _ offered
  rw [holds.length] at fits
  have more : lines lf ((s.connections io).received ++ piece) =
      ((lines lf (s.connections io).received).1 ++
        (linesFrom lf (lines lf (s.connections io).received).2 piece).1,
        (linesFrom lf (lines lf (s.connections io).received).2 piece).2) := linesFrom_append _ _ _
  have within : (lines lf (s.connections io).received).2.length + piece.length ≤ maxLength := by
    omega
  unfold MemcachedRuns.onRead
  dsimp only
  rcases deliver_fits junk holds room within with
    ⟨failed, nothing⟩ | ⟨d, msgs, delivered, texts, held, rest⟩
  · rw [failed]
    refine sound.shut io rfl ?_
    rw [more, nothing, List.append_nil]
  · rw [delivered]
    refine sound.delivered ?_ ?_ (congrArg Prod.fst more) texts
      (fun line member => length_le_of_mem_lines within member) clock
    · dsimp only
      rwa [more]
    · dsimp only
      rwa [more]

/-- A worker leaves the connections and what was posted. -/
theorem Sound.worked (sound : Sound maxLength getItemData s)
    {server : Server (ι × InMsg) κ Effect}
    (next : TaskServer.Sound (lineProcess getItemData) server)
    (posted : server.record.posted = s.server.record.posted) :
    Sound maxLength getItemData { s with server := server } where
  server := next
  holds := sound.holds
  isLines := by
    intro io
    dsimp only
    rw [posted]
    exact sound.isLines io
  short := by
    intro task member
    dsimp only at member
    rw [posted] at member
    exact sound.short task member

/-- Every permitted step is possible and keeps what holds. -/
theorem Sound.step (sound : Sound maxLength getItemData s) {label : Label ι κ}
    (allowed : Allowed maxLength s label) :
    ∃ s', step junk maxLength timeout getItemData s label = some s' ∧
      Sound maxLength getItemData s' := by
  cases label with
  | received io piece clock => exact ⟨_, if_pos allowed.1, sound.onRead allowed.1 allowed.2 clock⟩
  | closed io => exact ⟨_, rfl, sound.shut io rfl rfl⟩
  | popValidTask worker clock =>
      refine ⟨_, rfl, sound.worked (sound.server.popValidTask allowed clock) ?_⟩
      exact Lib.Fifo.Record.posted_settleAll ..
  | taskCallback worker sendMsg =>
      obtain ⟨task, runs⟩ := Option.ne_none_iff_exists'.mp allowed
      obtain ⟨server, called, next⟩ := sound.server.taskCallback runs sendMsg
      refine ⟨{ s with server := server }, ?_, sound.worked next ?_⟩
      · rw [MemcachedRuns.step, called]
        rfl
      · rw [TaskServer.taskCallback, runs] at called
        rw [← Option.some.inj called]

/-- The bytes that a connection receives in a run. -/
def receivedBy (io : ι) (labels : List (Label ι κ)) : List UInt8 :=
  labels.flatMap fun
    | .received other piece _ => if other = io then piece else []
    | _ => []

omit [DecidableEq κ] in
theorem received_onRead (s : System ι κ) (io other : ι) (piece : List UInt8) (clock : Nat → Nat) :
    ((onRead junk maxLength timeout s io piece clock).connections other).received =
      (s.connections other).received ++ if io = other then piece else [] := by
  unfold onRead
  dsimp only
  rcases eq_or_ne io other with rfl | differ
  · rw [if_pos rfl]
    split <;> dsimp only <;> rw [Function.update_self]
  · rw [if_neg differ, List.append_nil]
    split <;> dsimp only <;> rw [Function.update_of_ne (Ne.symm differ)]

theorem received_step {s' : System ι κ} {label : Label ι κ}
    (taken : step junk maxLength timeout getItemData s label = some s') (io : ι) :
    (s'.connections io).received = (s.connections io).received ++ receivedBy io [label] := by
  cases label with
  | received other piece clock =>
      obtain ⟨-, isNext⟩ := Option.ite_none_right_eq_some.mp taken
      obtain rfl := Option.some.inj isNext
      rw [received_onRead]
      exact congrArg _ (List.append_nil _).symm
  | closed other =>
      obtain rfl := Option.some.inj taken
      dsimp only
      rcases eq_or_ne io other with rfl | differ
      · rw [Function.update_self]
        exact (List.append_nil _).symm
      · rw [Function.update_of_ne differ]
        exact (List.append_nil _).symm
  | popValidTask worker clock =>
      obtain rfl := Option.some.inj taken
      exact (List.append_nil _).symm
  | taskCallback worker sendMsg =>
      obtain ⟨server, -, rfl⟩ := Option.map_eq_some_iff.mp taken
      exact (List.append_nil _).symm

theorem received_run {s' : System ι κ} {labels : List (Label ι κ)}
    (ran : exec (step junk maxLength timeout getItemData) s labels = some s') (io : ι) :
    (s'.connections io).received = (s.connections io).received ++ receivedBy io labels := by
  induction labels generalizing s with
  | nil =>
      obtain rfl := Option.some.inj ran
      exact (List.append_nil _).symm
  | cons label labels ih =>
      obtain ⟨mid, taken, later⟩ := Option.bind_eq_some_iff.mp ran
      have split : receivedBy io (label :: labels) = receivedBy io [label] ++ receivedBy io labels := by
        rw [receivedBy, List.flatMap_cons]
        exact congrArg (· ++ _) (List.append_nil _).symm
      rw [ih later, received_step taken, split, List.append_assoc]

/-- What was done for a line is its answer, and the connection is closed if that was not sent. -/
theorem Sound.answers (sound : Sound kDefaultMaxMemcachedServerLength getItemData s)
    (sized : Sized getItemData) (worker : κ) :
    ∀ done ∈ s.server.processed worker, ∃ sendMsg : Int,
      done.2 = .ok (answered getItemData done.1.args.2.bytes ++
        if sendMsg = 0 then [] else [.closed]) := by
  intro done member
  obtain ⟨sendMsg, effect⟩ := sound.server.effects worker done member
  have taken : done.1 ∈ s.server.record.posted := by
    have inEach : done.1 ∈ s.server.record.settled.filterMap (TaskServer.takenBy worker) := by
      rw [sound.server.each]
      exact List.mem_append_left _ (List.mem_map_of_mem member)
    obtain ⟨e, there, isTaken⟩ := List.mem_filterMap.mp inEach
    have same : e.1 = done.1 := by
      unfold TaskServer.takenBy at isTaken
      split at isTaken
      · cases isTaken
      · exact Option.some.inj (Option.ite_none_right_eq_some.mp isTaken).2
    rw [sound.server.inOrder, ← same]
    exact List.mem_append_left _ (List.mem_map_of_mem there)
  refine ⟨sendMsg, ?_⟩
  rw [effect]
  exact realProcessMsg_spec sized sendMsg (sound.short done.1 taken)

/-- Whatever the connections receive, however it is cut, and in whatever order the workers take their
steps: the messages of a connection are the lines that it received, each of them is dropped once because
it is too old or answered once, and no buffer is left. -/
theorem memcached_run_sound (junk : Nat → UInt8) (timeout : Int)
    (getItemData : List UInt8 → Option (List UInt8)) (sized : Sized getItemData)
    (labels : List (Label ι κ))
    (allowed : Meets (step junk kDefaultMaxMemcachedServerLength timeout getItemData)
      (Allowed kDefaultMaxMemcachedServerLength) (.initial ι κ) labels) :
    ∃ s, exec (step junk kDefaultMaxMemcachedServerLength timeout getItemData) (.initial ι κ) labels =
        some s ∧
      TaskServer.Sound (lineProcess getItemData) s.server ∧
      (∀ io, linesOf io s.server.record.posted = (lines lf (receivedBy io labels)).1) ∧
      ∀ worker, ∀ done ∈ s.server.processed worker, ∃ sendMsg : Int,
        done.2 = .ok (answered getItemData done.1.args.2.bytes ++
          if sendMsg = 0 then [] else [.closed]) := by
  have start : Sound kDefaultMaxMemcachedServerLength getItemData (System.initial ι κ) :=
    .initial (by decide)
  obtain ⟨s, ran, sound⟩ := exec_progress (fun _ _ sound can => Sound.step sound can) start allowed
  refine ⟨s, ran, sound.server, fun io => ?_, sound.answers sized⟩
  have received := received_run ran io
  rw [sound.isLines, received]
  rfl

end Runs

/-! ## One worker -/

section OneWorker

variable {ι : Type} [DecidableEq ι] {junk : Nat → UInt8} {maxLength : Nat} {timeout : Int}
  {getItemData : List UInt8 → Option (List UInt8)} {s : System ι Unit}

/-- The bytes that were sent. -/
def sentBytes : Effect → List UInt8
  | .error _ => []
  | .ok events => events.flatMap fun
      | .sent bytes => bytes
      | _ => []

/-- The bytes that were sent on a connection. -/
def sentTo (io : ι) (processed : List (Message (ι × InMsg) × Effect)) : List UInt8 :=
  (processed.filter fun done => done.1.args.1 = io).flatMap fun done => sentBytes done.2

theorem sentBytes_answered (line : List UInt8) (sendMsg : Int) :
    sentBytes (.ok (answered getItemData line ++ if sendMsg = 0 then [] else [.closed])) =
      answer getItemData line := by
  have nothing : (if sendMsg = 0 then [] else [Event.closed]).flatMap (fun
      | .sent bytes => bytes
      | _ => ([] : List UInt8)) = [] := by
    split <;> rfl
  rw [sentBytes, List.flatMap_append, nothing, List.append_nil, answered]
  cases requestedKey line <;> exact List.append_nil _

/-- The bytes sent on a connection are the answers for its lines. -/
theorem sentTo_eq (io : ι) {processed : List (Message (ι × InMsg) × Effect)}
    (answers : ∀ done ∈ processed, ∃ sendMsg : Int,
      done.2 = .ok (answered getItemData done.1.args.2.bytes ++
        if sendMsg = 0 then [] else [.closed])) :
    sentTo io processed = (linesOf io (processed.map Prod.fst)).flatMap (answer getItemData) := by
  induction processed with
  | nil => rfl
  | cons done processed ih =>
      obtain ⟨sendMsg, effect⟩ := answers done List.mem_cons_self
      have later := ih fun other member => answers other (List.mem_cons_of_mem _ member)
      rw [sentTo, linesOf] at later ⊢
      rw [List.map_cons]
      by_cases own : done.1.args.1 = io
      · rw [List.filter_cons_of_pos (by simpa using own), List.filter_cons_of_pos (by simpa using own),
          List.flatMap_cons, List.map_cons, List.flatMap_cons, later, effect, sentBytes_answered]
      · rw [List.filter_cons_of_neg (by simpa using own), List.filter_cons_of_neg (by simpa using own),
          later]

/-- Without a time limit no message is ever late. -/
def Timeless (s : System ι Unit) : Prop := ∀ task ∈ s.server.record.posted, task.expireTime = 0

omit [DecidableEq ι] in
theorem timeless_processMsgs (none' : timeout ≤ 0) {μ κ ε : Type} {server : Server μ κ ε}
    (timeless : ∀ task ∈ server.record.posted, task.expireTime = 0) (clock : Nat → Nat)
    (msgs : List μ) :
    ∀ task ∈ (processMsgs timeout clock server msgs).record.posted, task.expireTime = 0 := by
  induction msgs generalizing clock server with
  | nil => exact timeless
  | cons msg msgs ih =>
      refine ih (fun task member => ?_) fun i => clock (i + 1)
      rcases List.mem_append.mp member with old | new
      · exact timeless task old
      · rw [List.mem_singleton.mp new]
        exact if_neg (Int.not_lt.mpr none')

theorem Timeless.step (none' : timeout ≤ 0) (timeless : Timeless s) {label : Label ι Unit}
    {s' : System ι Unit} (taken : step junk maxLength timeout getItemData s label = some s') :
    Timeless s' := by
  cases label with
  | received io piece clock =>
      obtain ⟨-, isNext⟩ := Option.ite_none_right_eq_some.mp taken
      obtain rfl := Option.some.inj isNext
      unfold onRead
      dsimp only
      split
      · exact timeless
      · exact timeless_processMsgs none' timeless clock _
  | closed io =>
      obtain rfl := Option.some.inj taken
      exact timeless
  | popValidTask worker clock =>
      obtain rfl := Option.some.inj taken
      intro task member
      dsimp only at member
      rw [TaskServer.popValidTask] at member
      dsimp only at member
      rw [Lib.Fifo.Record.posted_settleAll] at member
      exact timeless task member
  | taskCallback worker sendMsg =>
      obtain ⟨server, called, rfl⟩ := Option.map_eq_some_iff.mp taken
      obtain ⟨task, -, rfl⟩ := Option.map_eq_some_iff.mp called
      exact timeless

/-- Without a time limit the only worker takes every message. -/
theorem posted_oneWorker {μ ε : Type} {process : Int → μ → ε} {server : Server μ Unit ε}
    (sound : TaskServer.Sound process server)
    (timeless : ∀ task ∈ server.record.posted, task.expireTime = 0) :
    server.record.posted = (server.processed ()).map Prod.fst ++
      ((server.current ()).toList ++ server.taskQueue) := by
  have all : ∀ e ∈ server.record.settled, TaskServer.takenBy () e = some e.1 := by
    intro e member
    have fair := sound.fair e member
    have isPosted : e.1 ∈ server.record.posted := by
      rw [sound.inOrder]
      exact List.mem_append_left _ (List.mem_map_of_mem member)
    rcases e with ⟨task, now | ⟨worker, now⟩⟩
    · have late : TaskQueues.FrameworkThread.late now task = true := fair
      rw [TaskQueues.FrameworkThread.late, timeless task isPosted] at late
      cases late
    · rfl
  have each := sound.each ()
  rw [List.filterMap_congr all, List.filterMap_eq_map'] at each
  rw [sound.inOrder, ← List.append_assoc, ← each]

/-- With one worker and no time limit a connection is sent the answers for its lines, in the order of the
lines; those for the lines that still wait come behind what was sent. -/
theorem memcached_oneWorker_answers (junk : Nat → UInt8) (none' : timeout ≤ 0)
    (sized : Sized getItemData) (labels : List (Label ι Unit))
    (allowed : Meets (step junk kDefaultMaxMemcachedServerLength timeout getItemData)
      (Allowed kDefaultMaxMemcachedServerLength) (.initial ι Unit) labels) :
    ∃ s, exec (step junk kDefaultMaxMemcachedServerLength timeout getItemData) (.initial ι Unit)
        labels = some s ∧
      ∀ io, sentTo io (s.server.processed ()) ++
          (linesOf io ((s.server.current ()).toList ++ s.server.taskQueue)).flatMap
            (answer getItemData) =
        (lines lf (receivedBy io labels)).1.flatMap (answer getItemData) := by
  have start : Sound kDefaultMaxMemcachedServerLength getItemData (System.initial ι Unit) :=
    .initial (by decide)
  have advance (s : System ι Unit) (label : Label ι Unit)
      (inv : Sound kDefaultMaxMemcachedServerLength getItemData s ∧ Timeless s)
      (can : Allowed kDefaultMaxMemcachedServerLength s label) :
      ∃ s', step junk kDefaultMaxMemcachedServerLength timeout getItemData s label = some s' ∧
        Sound kDefaultMaxMemcachedServerLength getItemData s' ∧ Timeless s' := by
    obtain ⟨s', taken, next⟩ := inv.1.step can
    exact ⟨s', taken, next, inv.2.step none' taken⟩
  obtain ⟨s, ran, sound, timeless⟩ := exec_progress advance
    ⟨start, fun _ member => absurd member List.not_mem_nil⟩ allowed
  refine ⟨s, ran, fun io => ?_⟩
  have received : (s.connections io).received = receivedBy io labels := received_run ran io
  rw [sentTo_eq io (sound.answers sized ()), ← List.flatMap_append, ← linesOf_append,
    ← posted_oneWorker sound.server timeless, sound.isLines, received]

/-- A `get` in two pieces and a command that is not served, on two connections. -/
def twoConnections : List (Label Bool Unit) :=
  [.received true [103, 101, 116, 32] fun _ => 10, .received false [118, 10] fun _ => 11,
    .received true [107, 13, 10] fun _ => 12, .popValidTask () fun _ => 13, .taskCallback () 0,
    .popValidTask () fun _ => 14, .closed false, .taskCallback () (-1)]

/-- One item. -/
def oneItem (key : List UInt8) : Option (List UInt8) := if key = [107] then some [1, 2] else none

theorem sized_oneItem : Sized oneItem := by
  intro key data found
  obtain ⟨-, same⟩ := Option.ite_none_right_eq_some.mp found
  obtain rfl := Option.some.inj same
  decide

theorem memcached_twoConnections_sound :
    ∃ s, exec (step (fun _ => 0) kDefaultMaxMemcachedServerLength 0 oneItem) (.initial Bool Unit)
        twoConnections = some s ∧
      TaskServer.Sound (lineProcess oneItem) s.server ∧
      (∀ io, linesOf io s.server.record.posted = (lines lf (receivedBy io twoConnections)).1) ∧
      ∀ worker, ∀ done ∈ s.server.processed worker, ∃ sendMsg : Int,
        done.2 = .ok (answered oneItem done.1.args.2.bytes ++
          if sendMsg = 0 then [] else [.closed]) :=
  memcached_run_sound (fun _ => 0) 0 oneItem sized_oneItem twoConnections (by decide +kernel)

theorem memcached_twoConnections_answers :
    ∃ s, exec (step (fun _ => 0) kDefaultMaxMemcachedServerLength 0 oneItem) (.initial Bool Unit)
        twoConnections = some s ∧
      ∀ io, sentTo io (s.server.processed ()) ++
          (linesOf io ((s.server.current ()).toList ++ s.server.taskQueue)).flatMap (answer oneItem) =
        (lines lf (receivedBy io twoConnections)).1.flatMap (answer oneItem) :=
  memcached_oneWorker_answers (fun _ => 0) (Int.le_refl 0) sized_oneItem twoConnections
    (by decide +kernel)

end OneWorker

end MlsImgSearch.Blitz.MemcachedRuns
