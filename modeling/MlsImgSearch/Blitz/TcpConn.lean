import Mathlib.Data.List.Basic
import Mathlib.Tactic.Common
import MlsImgSearch.Lib.Run

/-!
# What a connection sends

`TcpConn` sends the buffers of its messages one after the other. The message that
is being sent is kept in `sending_msg_` with the index of a buffer and the number of
bytes of it that were sent, and the messages behind it in a queue. The socket may
take any part of what it is offered.
-/

namespace MlsImgSearch.Blitz

open MlsImgSearch.Lib.Run

/-- A message of one or more buffers; the number tells the calls of `SendMsg` apart. -/
structure TcpConn.OutMsg where
  number : Nat
  buffers : List (List UInt8)
  nonempty : buffers ≠ []

inductive TcpConn.ConnectStatus where
  | closed
  | connecting
  | connected
  deriving DecidableEq

/-- The connection. `accepted` are the bytes that the socket took, `passed` the messages in the order
of their `SendMsg`, and `released` the numbers of the messages that were released, each with the
number of bytes that the socket had taken by then. -/
structure TcpConn where
  connectStatus : TcpConn.ConnectStatus
  outMsgQueue : List TcpConn.OutMsg := []
  sendingMsg : Option TcpConn.OutMsg := none
  dataSent : Nat := 0
  sendingBufferIndex : Nat := 0
  accepted : List UInt8 := []
  passed : List TcpConn.OutMsg := []
  released : List (Nat × Nat) := []

namespace TcpConn

def OutMsg.bytes (m : OutMsg) : List UInt8 := m.buffers.flatten

/-! ## Sending -/

/-- What `send` does: it takes `more + 1` bytes, or all if there are not as many, or none. -/
inductive SendResult where
  | took (more : Nat)
  | interrupted
  | again
  | failed

/-- The loop of `NetworkUtil::Send` with `sent` of `length` bytes sent. When there are no results left
the socket is full. -/
def sendLoop (length : Nat) : Nat → List SendResult → Nat × Int × List SendResult
  | sent, [] => (sent, 1, [])
  | sent, .took more :: results =>
      let sent := sent + min (more + 1) (length - sent)
      if sent = length then (sent, 0, results) else sendLoop length sent results
  | sent, .interrupted :: results => sendLoop length sent results
  | sent, .again :: results => (sent, 1, results)
  | sent, .failed :: results => (sent, -1, results)

/-- `NetworkUtil::Send`: the number of bytes sent, and `0`, `1` when the socket is full, or `-1`. -/
def send (length : Nat) (results : List SendResult) : Nat × Int × List SendResult :=
  if length = 0 then (0, 0, results) else sendLoop length 0 results

/-- The cursors after `sent` bytes of `buffer`. -/
def forward (m : OutMsg) (buffer : List UInt8) (sent : Nat) (c : TcpConn) : TcpConn :=
  let c :=
    { c with
      accepted := c.accepted ++ (buffer.drop c.dataSent).take sent
      dataSent := c.dataSent + sent }
  if c.dataSent = buffer.length then
    let c := { c with sendingBufferIndex := c.sendingBufferIndex + 1 }
    if c.sendingBufferIndex = m.buffers.length then
      { c with sendingMsg := none, released := c.released ++ [(m.number, c.accepted.length)] }
    else { c with dataSent := 0 }
  else c

/-- The loop of `TrySend`. `none` is a buffer behind the last one, or not enough turns. -/
def trySendLoop : Nat → List SendResult → TcpConn → Option (Int × TcpConn)
  | 0, _, _ => none
  | turns + 1, results, c =>
      match c.sendingMsg, c.outMsgQueue with
      | none, [] => some (0, c)
      | none, m :: queue =>
          sendBuffer turns results m
            { c with
              sendingMsg := some m
              outMsgQueue := queue
              sendingBufferIndex := 0
              dataSent := 0 }
      | some m, _ => sendBuffer turns results m c
where
  sendBuffer (turns : Nat) (results : List SendResult) (m : OutMsg) (c : TcpConn) :
      Option (Int × TcpConn) :=
    (m.buffers[c.sendingBufferIndex]?).bind fun buffer =>
      let (sent, result, results) := send (buffer.length - c.dataSent) results
      let c := forward m buffer sent c
      if result = 0 then trySendLoop turns results c
      else if result = 1 then some (0, c)
      else some (-1, c)

/-- A turn sends a buffer, and the last one finds that nothing is left. -/
def turnsLeft (c : TcpConn) : Nat :=
  (match c.sendingMsg with
    | none => 0
    | some m => m.buffers.length - c.sendingBufferIndex) +
  (c.outMsgQueue.map fun m => m.buffers.length).sum + 1

def trySend (results : List SendResult) (c : TcpConn) : Option (Int × TcpConn) :=
  trySendLoop c.turnsLeft results c

def sendMsg (buffers : List (List UInt8)) (nonempty : buffers ≠ []) (results : List SendResult)
    (c : TcpConn) : Option (Int × TcpConn) :=
  let m := ⟨c.passed.length, buffers, nonempty⟩
  let c := { c with outMsgQueue := c.outMsgQueue ++ [m], passed := c.passed ++ [m] }
  if c.sendingMsg.isSome then some (0, c)
  else if c.connectStatus ≠ .connected then some (0, c)
  else c.trySend results

/-- `opened` tells whether a connection that was in progress has succeeded. -/
def onWrite (opened : Bool) (results : List SendResult) (c : TcpConn) : Option (Int × TcpConn) :=
  if c.connectStatus = .connecting then
    if opened then { c with connectStatus := .connected }.trySend results else some (-1, c)
  else c.trySend results

inductive Call where
  | sendMsg (buffers : List (List UInt8)) (nonempty : buffers ≠ []) (results : List SendResult)
  | onWrite (opened : Bool) (results : List SendResult)

def step (c : TcpConn) : Call → Option TcpConn
  | .sendMsg buffers nonempty results => (c.sendMsg buffers nonempty results).map Prod.snd
  | .onWrite opened results => (c.onWrite opened results).map Prod.snd

/-! ## The contract -/

/-- What is left of the message that is being sent, and the messages in the queue. -/
def unsent (c : TcpConn) : List UInt8 :=
  (match c.sendingMsg with
    | none => []
    | some m => (m.buffers.drop c.sendingBufferIndex).flatten.drop c.dataSent) ++
  c.outMsgQueue.flatMap OutMsg.bytes

/-- The messages with the number of bytes up to the end of each. -/
def ends : Nat → List OutMsg → List (Nat × Nat)
  | _, [] => []
  | before, m :: rest =>
      (m.number, before + m.bytes.length) :: ends (before + m.bytes.length) rest

/-- The bytes leave in order, and a message is released when all bytes up to its end have been
taken. -/
structure InOrder (c : TcpConn) : Prop where
  stream : c.accepted ++ c.unsent = c.passed.flatMap OutMsg.bytes
  released : c.released = (ends 0 c.passed).filter fun e => e.2 ≤ c.accepted.length

/-! ## One buffer -/

theorem sendLoop_spec {length sent : Nat} {results : List SendResult} (open_ : sent < length) :
    (sendLoop length sent results).1 = length ∧ (sendLoop length sent results).2.1 = 0 ∨
      (sendLoop length sent results).1 < length ∧ ((sendLoop length sent results).2.1 = 1 ∨
        (sendLoop length sent results).2.1 = -1) := by
  induction results generalizing sent with
  | nil => exact .inr ⟨open_, .inl rfl⟩
  | cons result results ih =>
      cases result with
      | took more =>
          rw [sendLoop]
          split
          · next full => exact .inl ⟨full, rfl⟩
          · next partly => exact ih (by omega)
      | interrupted => exact ih open_
      | again => exact .inr ⟨open_, .inl rfl⟩
      | failed => exact .inr ⟨open_, .inr rfl⟩

theorem send_spec (length : Nat) (results : List SendResult) :
    (send length results).1 = length ∧ (send length results).2.1 = 0 ∨
      (send length results).1 < length ∧
        ((send length results).2.1 = 1 ∨ (send length results).2.1 = -1) := by
  unfold send
  split
  · next empty => exact .inl ⟨empty.symm, rfl⟩
  · next nonempty => exact sendLoop_spec (Nat.pos_of_ne_zero nonempty)

/-- The cursors stand in `buffer`; the messages `done` have been sent. -/
structure Cursor (c : TcpConn) (done : List OutMsg) (m : OutMsg) (before : List (List UInt8))
    (buffer : List UInt8) (after : List (List UInt8)) : Prop where
  sending : c.sendingMsg = some m
  buffers : m.buffers = before ++ buffer :: after
  index : c.sendingBufferIndex = before.length
  inside : c.dataSent ≤ buffer.length
  accepted : c.accepted = done.flatMap OutMsg.bytes ++ before.flatten ++ buffer.take c.dataSent

/-- The messages are `done`, the one that is being sent and those in the queue. -/
structure Sends (c : TcpConn) (done : List OutMsg) : Prop where
  passed : c.passed = done ++ c.sendingMsg.toList ++ c.outMsgQueue
  released : c.released = ends 0 done
  place : c.sendingMsg = none ∧ c.accepted = done.flatMap OutMsg.bytes ∨
    ∃ m before buffer after, Cursor c done m before buffer after

theorem ends_append (start : Nat) (front back : List OutMsg) :
    ends start (front ++ back) =
      ends start front ++ ends (start + (front.flatMap OutMsg.bytes).length) back := by
  induction front generalizing start with
  | nil => simp [ends]
  | cons m front ih =>
      simp only [List.cons_append, ends, ih, List.flatMap_cons, List.length_append, Nat.add_assoc]

/-- What stays as it is while bytes are sent. -/
structure Same (c c' : TcpConn) : Prop where
  passed : c'.passed = c.passed
  status : c'.connectStatus = c.connectStatus

section Forward

variable {c : TcpConn} {done : List OutMsg} {m : OutMsg} {before : List (List UInt8)}
  {buffer : List UInt8} {after : List (List UInt8)}

theorem take_append_drop_take (list : List UInt8) (first second : Nat) :
    list.take first ++ (list.drop first).take second = list.take (first + second) := by
  rw [List.take_add]

/-- Some bytes of the buffer are left. -/
theorem Cursor.forward_partly (cursor : Cursor c done m before buffer after) (sends : Sends c done)
    (sent : Nat) (partly : c.dataSent + sent < buffer.length) :
    Same c (forward m buffer sent c) ∧ Sends (forward m buffer sent c) done ∧
      Cursor (forward m buffer sent c) done m before buffer after ∧
      (forward m buffer sent c).dataSent < buffer.length := by
  have unfolded : forward m buffer sent c =
      { c with
        accepted := c.accepted ++ (buffer.drop c.dataSent).take sent
        dataSent := c.dataSent + sent } := if_neg (Nat.ne_of_lt partly)
  rw [unfolded]
  have moved : Cursor { c with
      accepted := c.accepted ++ (buffer.drop c.dataSent).take sent
      dataSent := c.dataSent + sent } done m before buffer after := by
    refine ⟨cursor.sending, cursor.buffers, cursor.index, Nat.le_of_lt partly, ?_⟩
    change c.accepted ++ _ = _
    rw [cursor.accepted, List.append_assoc, take_append_drop_take]
  exact ⟨⟨rfl, rfl⟩, ⟨sends.passed, sends.released, .inr ⟨_, _, _, _, moved⟩⟩, moved, partly⟩

/-- The buffer was sent: the next one follows, or the message is released. -/
theorem Cursor.forward_full (cursor : Cursor c done m before buffer after) (sends : Sends c done)
    (sent : Nat) (full : c.dataSent + sent = buffer.length) :
    Same c (forward m buffer sent c) ∧ (∃ done', Sends (forward m buffer sent c) done') ∧
      (forward m buffer sent c).turnsLeft + 1 = c.turnsLeft := by
  have count : m.buffers.length = before.length + (after.length + 1) := by
    rw [cursor.buffers, List.length_append, List.length_cons]
  have all : c.accepted ++ (buffer.drop c.dataSent).take sent =
      done.flatMap OutMsg.bytes ++ (before ++ [buffer]).flatten := by
    rw [cursor.accepted, List.append_assoc, take_append_drop_take, full, List.take_length]
    simp
  cases after with
  | nil =>
      have unfolded : forward m buffer sent c =
          { c with
            accepted := c.accepted ++ (buffer.drop c.dataSent).take sent
            dataSent := c.dataSent + sent
            sendingBufferIndex := c.sendingBufferIndex + 1
            sendingMsg := none
            released := c.released ++
              [(m.number, (c.accepted ++ (buffer.drop c.dataSent).take sent).length)] } := by
        rw [forward, if_pos full, if_pos]
        rw [cursor.index, count]
        rfl
      have bytes : m.bytes = (before ++ [buffer]).flatten := by rw [OutMsg.bytes, cursor.buffers]
      rw [unfolded]
      refine ⟨⟨rfl, rfl⟩, ⟨done ++ [m], ?_, ?_, .inl ⟨rfl, ?_⟩⟩, ?_⟩
      · simp [sends.passed, cursor.sending]
      · rw [ends_append, all, ← bytes, ← sends.released]
        simp [ends]
      · rw [all, ← bytes]
        simp
      · simp [turnsLeft, cursor.sending, cursor.index, count]
        omega
  | cons next after =>
      have unfolded : forward m buffer sent c =
          { c with
            accepted := c.accepted ++ (buffer.drop c.dataSent).take sent
            dataSent := 0
            sendingBufferIndex := c.sendingBufferIndex + 1 } := by
        rw [forward, if_pos full, if_neg]
        rw [cursor.index, count]
        simp
      have moved : Cursor { c with
          accepted := c.accepted ++ (buffer.drop c.dataSent).take sent
          dataSent := 0
          sendingBufferIndex := c.sendingBufferIndex + 1 } done m (before ++ [buffer]) next after := by
        refine ⟨cursor.sending, by rw [cursor.buffers, List.append_assoc]; rfl, ?_, Nat.zero_le _, ?_⟩
        · change c.sendingBufferIndex + 1 = _
          rw [cursor.index, List.length_append, List.length_singleton]
        · rw [List.take_zero, List.append_nil]
          exact all
      rw [unfolded]
      refine ⟨⟨rfl, rfl⟩, ⟨done, sends.passed, sends.released, .inr ⟨_, _, _, _, moved⟩⟩, ?_⟩
      simp [turnsLeft, cursor.sending, cursor.index, count]
      omega

end Forward

/-! ## The loop -/

/-- Between two calls nothing is left to be sent, or a buffer was sent in part. -/
def Settled (c : TcpConn) (done : List OutMsg) : Prop :=
  c.sendingMsg = none ∧ c.outMsgQueue = [] ∨
    ∃ m before buffer after, Cursor c done m before buffer after ∧ c.dataSent < buffer.length

/-- A call comes back, with all bytes sent or a full socket. -/
def Returns (c : TcpConn) (run : Option (Int × TcpConn)) : Prop :=
  ∃ r c', run = some (r, c') ∧ Same c c' ∧ ∃ done, Sends c' done ∧ Settled c' done

section Loop

variable {c : TcpConn} {done : List OutMsg}

/-- The next message is taken from the queue. -/
theorem Sends.load {m : OutMsg} {queue : List OutMsg} (sends : Sends c done)
    (idle : c.sendingMsg = none) (waiting : c.outMsgQueue = m :: queue) :
    let c' : TcpConn :=
      { c with sendingMsg := some m, outMsgQueue := queue, sendingBufferIndex := 0, dataSent := 0 }
    Sends c' done ∧ (∃ buffer after, Cursor c' done m [] buffer after) ∧
      c'.turnsLeft = c.turnsLeft := by
  have accepted : c.accepted = done.flatMap OutMsg.bytes := by
    rcases sends.place with ⟨-, accepted⟩ | ⟨m', before, buffer, after, cursor⟩
    · exact accepted
    · exact absurd (idle.symm.trans cursor.sending) (by simp)
  obtain ⟨buffer, after, buffers⟩ := List.exists_cons_of_ne_nil m.nonempty
  have cursor : Cursor
      { c with sendingMsg := some m, outMsgQueue := queue, sendingBufferIndex := 0, dataSent := 0 }
      done m [] buffer after :=
    ⟨rfl, buffers, rfl, Nat.zero_le _, by simpa using accepted⟩
  refine ⟨⟨?_, sends.released, .inr ⟨_, _, _, _, cursor⟩⟩, ⟨_, _, cursor⟩, ?_⟩
  · simp [sends.passed, idle, waiting]
  · simp [turnsLeft, idle, waiting]

theorem Cursor.sendBuffer {m : OutMsg} {before after : List (List UInt8)} {buffer : List UInt8}
    {turns : Nat} (results : List SendResult) (cursor : Cursor c done m before buffer after)
    (sends : Sends c done) (enough : c.turnsLeft ≤ turns + 1)
    (later : ∀ results c' done', Sends c' done' → c'.turnsLeft ≤ turns →
      Returns c' (trySendLoop turns results c')) :
    Returns c (trySendLoop.sendBuffer turns results m c) := by
  have here : m.buffers[c.sendingBufferIndex]? = some buffer := by
    rw [cursor.buffers, cursor.index, List.getElem?_append_right (Nat.le_refl _), Nat.sub_self]
    rfl
  rw [trySendLoop.sendBuffer, here, Option.bind_some]
  have inside := cursor.inside
  rcases send_spec (buffer.length - c.dataSent) results with ⟨all, result⟩ | ⟨partly, result⟩
  · obtain ⟨same, ⟨done', sends'⟩, fewer⟩ := cursor.forward_full sends
      (send (buffer.length - c.dataSent) results).1 (by omega)
    obtain ⟨r, c', ran, same', rest⟩ := later (send (buffer.length - c.dataSent) results).2.2 _ _
      sends' (by omega)
    refine ⟨r, c', ?_, ⟨same'.passed.trans same.passed, same'.status.trans same.status⟩, rest⟩
    dsimp only
    rw [if_pos result, ran]
  · obtain ⟨same, sends', cursor', left⟩ := cursor.forward_partly sends
      (send (buffer.length - c.dataSent) results).1 (by omega)
    refine ⟨if (send (buffer.length - c.dataSent) results).2.1 = 1 then 0 else -1, _, ?_, same, done,
      sends', .inr ⟨_, _, _, _, cursor', left⟩⟩
    rcases result with full | failed
    · simp [full]
    · simp [failed]

theorem Sends.trySendLoop {turns : Nat} (results : List SendResult) (sends : Sends c done)
    (enough : c.turnsLeft ≤ turns) : Returns c (trySendLoop turns results c) := by
  induction turns generalizing c done results with
  | zero => exact absurd enough (by simp [turnsLeft])
  | succ turns ih =>
      have later := fun results c' done' (sends' : Sends c' done') => ih results sends'
      rw [TcpConn.trySendLoop.eq_def]
      dsimp only
      cases sending : c.sendingMsg with
      | none =>
          cases waiting : c.outMsgQueue with
          | nil => exact ⟨0, c, rfl, ⟨rfl, rfl⟩, done, sends, .inl ⟨sending, waiting⟩⟩
          | cons m queue =>
              obtain ⟨sends', ⟨buffer, after, cursor⟩, same⟩ := sends.load sending waiting
              obtain ⟨r, c', ran, same', rest⟩ :=
                cursor.sendBuffer results sends' (same ▸ enough) later
              exact ⟨r, c', ran, ⟨same'.passed, same'.status⟩, rest⟩
      | some m =>
          rcases sends.place with ⟨idle, -⟩ | ⟨m', before, buffer, after, cursor⟩
          · exact absurd (sending.symm.trans idle) (by simp)
          · obtain rfl : m = m' := Option.some.inj (sending.symm.trans cursor.sending)
            exact cursor.sendBuffer results sends enough later

theorem Sends.trySend (results : List SendResult) (sends : Sends c done) :
    Returns c (c.trySend results) :=
  sends.trySendLoop results (Nat.le_refl _)

end Loop

/-! ## Runs -/

section Runs

variable {c : TcpConn} {done : List OutMsg}

theorem Cursor.unsent_eq {m : OutMsg} {before after : List (List UInt8)} {buffer : List UInt8}
    (cursor : Cursor c done m before buffer after) :
    c.unsent = buffer.drop c.dataSent ++ after.flatten ++ c.outMsgQueue.flatMap OutMsg.bytes := by
  rw [unsent, cursor.sending]
  dsimp only
  rw [cursor.buffers, cursor.index, List.drop_left, List.flatten_cons,
    List.drop_append_of_le_length cursor.inside]

theorem Cursor.bytes_eq {m : OutMsg} {before after : List (List UInt8)} {buffer : List UInt8}
    (cursor : Cursor c done m before buffer after) :
    m.bytes = before.flatten ++ (buffer ++ after.flatten) := by
  rw [OutMsg.bytes, cursor.buffers, List.flatten_append, List.flatten_cons]

theorem Sends.stream (sends : Sends c done) :
    c.accepted ++ c.unsent = c.passed.flatMap OutMsg.bytes := by
  rcases sends.place with ⟨idle, accepted⟩ | ⟨m, before, buffer, after, cursor⟩
  · simp [sends.passed, unsent, idle, accepted]
  · have split := List.take_append_drop c.dataSent buffer
    rw [cursor.unsent_eq, cursor.accepted, sends.passed, cursor.sending]
    simp only [Option.toList_some, List.flatMap_append, List.flatMap_singleton, cursor.bytes_eq]
    nth_rewrite 3 [← split]
    simp only [List.append_assoc]

/-- No message ends before its start. -/
theorem le_of_mem_ends {start : Nat} {messages : List OutMsg} {e : Nat × Nat}
    (member : e ∈ ends start messages) : start ≤ e.2 := by
  induction messages generalizing start with
  | nil => cases member
  | cons m rest ih =>
      rcases List.mem_cons.mp member with rfl | later
      · exact Nat.le_add_right _ _
      · exact Nat.le_trans (Nat.le_add_right _ _) (ih later)

theorem mem_ends_le {start : Nat} {messages : List OutMsg} {e : Nat × Nat}
    (member : e ∈ ends start messages) : e.2 ≤ start + (messages.flatMap OutMsg.bytes).length := by
  induction messages generalizing start with
  | nil => cases member
  | cons m rest ih =>
      rw [List.flatMap_cons, List.length_append]
      rcases List.mem_cons.mp member with rfl | later
      · exact Nat.add_le_add_left (Nat.le_add_right _ _) _
      · exact Nat.le_trans (ih later) (Nat.le_of_eq (Nat.add_assoc ..))

/-- What has been taken reaches the ends of `done`, and not the end of a message behind them. -/
theorem Sends.inOrder (sends : Sends c done) (settled : Settled c done) : InOrder c := by
  refine ⟨sends.stream, ?_⟩
  have reached : (done.flatMap OutMsg.bytes).length ≤ c.accepted.length := by
    rcases sends.place with ⟨-, accepted⟩ | ⟨m, before, buffer, after, cursor⟩
    · exact Nat.le_of_eq (by rw [accepted])
    · rw [cursor.accepted, List.append_assoc, List.length_append]
      exact Nat.le_add_right _ _
  have early : ∀ e ∈ ends 0 done, e.2 ≤ c.accepted.length := fun e member =>
    Nat.le_trans (mem_ends_le member) (by rwa [Nat.zero_add])
  rw [sends.released, sends.passed, List.append_assoc, ends_append, List.filter_append,
    List.filter_eq_self.mpr fun e member => decide_eq_true (early e member), eq_comm,
    List.append_right_eq_self, List.filter_eq_nil_iff]
  intro e member
  rcases settled with ⟨idle, empty⟩ | ⟨m, before, buffer, after, cursor, left⟩
  · rw [idle, empty] at member
    cases member
  · have short : c.accepted.length < (done.flatMap OutMsg.bytes).length + m.bytes.length := by
      rw [cursor.accepted, cursor.bytes_eq]
      simp only [List.length_append, List.length_take]
      omega
    rw [cursor.sending] at member
    rcases List.mem_cons.mp member with rfl | later
    · simpa using short
    · have behind := le_of_mem_ends later
      simp only [decide_eq_true_eq]
      omega

/-- A connection that is open between two calls. -/
def Open (c : TcpConn) : Prop :=
  c.connectStatus = .connected ∧ ∃ done, Sends c done ∧ Settled c done

theorem Returns.open {run : Option (Int × TcpConn)} (returns : Returns c run)
    (connected : c.connectStatus = .connected) :
    ∃ c', run.map Prod.snd = some c' ∧ Open c' := by
  obtain ⟨r, c', rfl, same, rest⟩ := returns
  exact ⟨c', rfl, same.status.trans connected, rest⟩

/-- A message is put into the queue. -/
def queued (c : TcpConn) (m : OutMsg) : TcpConn :=
  { c with outMsgQueue := c.outMsgQueue ++ [m], passed := c.passed ++ [m] }

theorem Cursor.queued {m : OutMsg} {before after : List (List UInt8)} {buffer : List UInt8}
    (cursor : Cursor c done m before buffer after) (new : OutMsg) :
    Cursor (c.queued new) done m before buffer after :=
  ⟨cursor.sending, cursor.buffers, cursor.index, cursor.inside, cursor.accepted⟩

theorem Sends.queued (sends : Sends c done) (new : OutMsg) : Sends (c.queued new) done := by
  refine ⟨?_, sends.released, ?_⟩
  · simp [TcpConn.queued, sends.passed]
  · rcases sends.place with idle | ⟨m, before, buffer, after, cursor⟩
    · exact .inl idle
    · exact .inr ⟨m, before, buffer, after, cursor.queued new⟩

theorem Open.step (open_ : Open c) (call : Call) : ∃ c', step c call = some c' ∧ Open c' := by
  obtain ⟨connected, done, sends, settled⟩ := open_
  cases call with
  | sendMsg buffers nonempty results =>
      let new : OutMsg := ⟨c.passed.length, buffers, nonempty⟩
      rcases settled with ⟨idle, -⟩ | ⟨m, before, buffer, after, cursor, left⟩
      · have tries : TcpConn.step c (.sendMsg buffers nonempty results) =
            ((c.queued new).trySend results).map Prod.snd := by
          simp [TcpConn.step, sendMsg, connected, idle, TcpConn.queued, new]
        rw [tries]
        exact ((sends.queued new).trySend results).open connected
      · refine ⟨c.queued new, ?_, connected, done, sends.queued new,
          .inr ⟨m, before, buffer, after, cursor.queued new, left⟩⟩
        simp [TcpConn.step, sendMsg, cursor.sending, TcpConn.queued, new]
  | onWrite opened results =>
      have tries : TcpConn.step c (.onWrite opened results) = (c.trySend results).map Prod.snd := by
        simp [TcpConn.step, onWrite, connected]
      rw [tries]
      exact (sends.trySend results).open connected

end Runs

end TcpConn

end MlsImgSearch.Blitz
