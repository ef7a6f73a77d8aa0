import Mathlib.Data.List.Count
import Mathlib.Data.List.Infix
import Mathlib.Data.List.Nodup
import MlsImgSearch.Blitz.HttpCommon
import MlsImgSearch.Lib.Run

/-!
# What a connection sends

A channel sends its messages one after the other with `writev`. The message that
is being sent is kept in `sending_msg_`, those behind it in a queue, and the part
that is still to be sent in an array of memory ranges with its own cursor. One
channel object serves any number of connections.
-/

namespace MlsImgSearch.Blitz2.StreamSocketChannel

open Lib.Run
open Blitz.HttpCommon (toInt32)

/-! ## The channel -/

/-- A message that was accepted; the number tells the calls of `SendMsg` apart. -/
structure OutMsg where
  number : Nat
  pieces : List (List UInt8)
  deriving DecidableEq

def OutMsg.bytes (m : OutMsg) : List UInt8 := m.pieces.flatten

/-- A memory range: the data of a message from `iov_base` on, and `iov_len`. -/
structure Iovec where
  number : Nat
  data : List UInt8
  len : Nat
  deriving DecidableEq

def Iovec.bytes (v : Iovec) : List UInt8 := v.data.take v.len

inductive ConnectStatus where
  | closed
  | connecting
  | connected
  deriving DecidableEq

inductive Note where
  | addRef (number : Nat)
  | release (number : Nat)
  /-- `writev` gets a range of the message. -/
  | write (number : Nat)
  deriving DecidableEq

/-- The channel; `accepted` are the bytes that the socket took and `passed` the messages that were
passed since the last `Connect`. `undefined` is the use of a null pointer or of memory behind an
array. -/
structure Channel where
  status : ConnectStatus
  outMsgQueue : List OutMsg
  sendingMsg : Option OutMsg
  iovec : Option (List Iovec)
  iovecDataLen : Nat
  nextNumber : Nat
  passed : List OutMsg
  accepted : List UInt8
  trace : List Note
  undefined : Bool
  deriving DecidableEq

def Channel.initial : Channel := ⟨.closed, [], none, none, 0, 0, [], [], [], false⟩

/-- `static_cast<int>(length)` stored in a `size_t`. -/
def castLength (length : Nat) : Nat := (toInt32 length % 2 ^ 64).toNat

/-- The ranges, of which `iovec_count_` counts the first ones. -/
def convert2iovec (m : OutMsg) : List Iovec :=
  (m.pieces.map fun piece => ⟨m.number, piece, castLength piece.length⟩).take
    (toInt32 m.pieces.length).toNat

def setIovec (s : Channel) (m : OutMsg) : Channel :=
  { s with
    sendingMsg := some m
    iovec := some (convert2iovec m)
    iovecDataLen := m.bytes.length }

def prepareIovec (s : Channel) : Channel :=
  match s.sendingMsg, s.outMsgQueue with
  | some m, _ => setIovec s m
  | none, [] => s
  | none, m :: rest => setIovec { s with outMsgQueue := rest } m

def resetIovec (s : Channel) : Channel :=
  { s with sendingMsg := none, iovec := none, iovecDataLen := 0 }

/-- The ranges behind the first `left` bytes; `none` is a range behind the array. -/
def forwardRanges : List Iovec → Nat → Option (List Iovec)
  | [], _ => none
  | v :: rest, left =>
      if left < v.len then some ({ v with data := v.data.drop left, len := v.len - left } :: rest)
      else forwardRanges rest (left - v.len)

def forwardIovec (s : Channel) (ranges : List Iovec) (len : Nat) : Channel :=
  match forwardRanges ranges len with
  | none => { s with undefined := true }
  | some ranges => { s with iovec := some ranges, iovecDataLen := s.iovecDataLen - len }

/-- The messages that wait, the one that is being sent first. -/
def pending (s : Channel) : List OutMsg := s.sendingMsg.toList ++ s.outMsgQueue

/-- `RemoveSentFailMsg` releases all of them. -/
def realClose (s : Channel) : Channel :=
  if s.status = .closed then s
  else
    { s with
      status := .closed
      sendingMsg := none
      outMsgQueue := []
      trace := s.trace ++ (pending s).map fun m => .release m.number }

/-- What `writev` returns: a positive number of bytes, or an error. -/
inductive Writev where
  | sent (k : Nat)
  | again
  | interrupted
  | failed

/-- The whole iovec was sent. -/
def finishMsg (s : Channel) : Channel :=
  match s.sendingMsg with
  | none => { s with undefined := true }
  | some m => prepareIovec (resetIovec { s with trace := s.trace ++ [.release m.number] })

/-- `writev` looks at the ranges. -/
def passRanges (s : Channel) (ranges : List Iovec) : Channel :=
  { s with trace := s.trace ++ ranges.map fun v => .write v.number }

/-- The socket took some bytes. -/
def takeBytes (s : Channel) (bytes : List UInt8) : Channel :=
  { s with accepted := s.accepted ++ bytes }

/-- The loop of `TrySend`, with a result for each turn. `none` is a result that `writev` cannot
return, or a missing one. -/
def sendLoop : List Writev → Channel → Option Channel
  | [], _ => none
  | result :: rest, s =>
      match s.iovec with
      | none => none
      | some ranges =>
          let s := passRanges s ranges
          match result with
          | .sent k =>
              let bytes := ranges.flatMap Iovec.bytes
              if k = 0 ∨ bytes.length < k then none
              else
                let s := takeBytes s (bytes.take k)
                if k = s.iovecDataLen then
                  let s := finishMsg s
                  if s.undefined ∨ s.iovec = none then some s else sendLoop rest s
                else
                  let s := forwardIovec s ranges k
                  if s.undefined then some s else sendLoop rest s
          | .again => some s
          | .interrupted => sendLoop rest s
          | .failed => some (realClose s)

def trySend (results : List Writev) (s : Channel) : Option Channel :=
  let s := if s.iovec = none then prepareIovec s else s
  if s.iovec = none then some s else sendLoop results s

/-- The parts of a message: one or more, none of them empty. -/
structure Pieces where
  list : List (List UInt8)
  nonempty : list ≠ []
  each : ∀ piece ∈ list, piece ≠ []

/-- `AddRef`. -/
def acceptMsg (s : Channel) (m : OutMsg) : Channel :=
  { s with
    nextNumber := s.nextNumber + 1
    passed := s.passed ++ [m]
    trace := s.trace ++ [.addRef m.number] }

def sendMsg (pieces : Pieces) (results : List Writev) (s : Channel) : Option Channel :=
  if s.status = .closed then some s
  else
    let m : OutMsg := ⟨s.nextNumber, pieces.list⟩
    let s := acceptMsg s m
    match s.sendingMsg with
    | some _ => some { s with outMsgQueue := s.outMsgQueue ++ [m] }
    | none =>
        let s : Channel := { s with sendingMsg := some m }
        if s.status = .connected then trySend results s else some s

inductive ConnectResult where
  | connected
  | inProgress
  | failed

/-- `Connect` and `BeConnected`; a channel that is not closed stays as it is. -/
def connect (result : ConnectResult) (s : Channel) : Channel :=
  if s.status = .closed then
    match result with
    | .connected => { s with status := .connected, passed := [], accepted := [] }
    | .inProgress => { s with status := .connecting, passed := [], accepted := [] }
    | .failed => s
  else s

/-- `OnWrite` of a channel that was connecting is `opened` or `close`, and then `onWrite`: in between
`OnOpened` may call the channel. `close` stands for every reason to close. -/
inductive Label where
  | connect (result : ConnectResult)
  | opened
  | sendMsg (pieces : Pieces) (results : List Writev)
  | onWrite (results : List Writev)
  | close

def step (s : Channel) (label : Label) : Option Channel :=
  if s.undefined then none
  else
    match label with
    | .connect result => some (connect result s)
    | .opened => if s.status = .connecting then some { s with status := .connected } else none
    | .sendMsg pieces results => sendMsg pieces results s
    | .onWrite results => if s.status = .connected then trySend results s else none
    | .close => some (realClose s)

/-! ## What is wanted -/

/-- The ranges are those of a message, and with what was accepted before them they make up all
messages up to that one. -/
structure Describes (s : Channel) (ranges : List Iovec) : Prop where
  unsent : ∃ done m, s.sendingMsg = some m ∧ s.passed = done ++ m :: s.outMsgQueue ∧
    (∀ v ∈ ranges, v.number = m.number) ∧ ranges.flatMap Iovec.bytes <:+ m.bytes ∧
    s.accepted ++ ranges.flatMap Iovec.bytes = done.flatMap OutMsg.bytes ++ m.bytes
  length : s.iovecDataLen = (ranges.flatMap Iovec.bytes).length

structure Correct (s : Channel) : Prop where
  order : s.accepted <+: s.passed.flatMap OutMsg.bytes
  iovec : s.status = .connected → ∀ ranges, s.iovec = some ranges → Describes s ranges
  addRefs : ∀ n, s.trace.count (.addRef n) = if n < s.nextNumber then 1 else 0
  /-- A message is released once, when it has left the channel. -/
  releases : ∀ n, s.trace.count (.release n) =
    if n < s.nextNumber ∧ n ∉ (pending s).map OutMsg.number then 1 else 0
  /-- Messages leave an open channel when they are sent, and all leave when it is closed. -/
  leaves : if s.status = .closed then pending s = []
    else ∃ done, s.passed = done ++ pending s ∧ done.flatMap OutMsg.bytes <+: s.accepted
  uses : ∀ n before after, s.trace = before ++ .write n :: after → .release n ∉ before
  safe : s.undefined = false

/-- A connection starts without a cursor of the one before, and messages have fewer than 2^31 pieces
of fewer than 2^31 bytes. -/
def Allowed (s : Channel) : Label → Prop
  | .connect .connected => s.status = .closed → s.iovec = none
  | .opened => s.iovec = none
  | .sendMsg pieces _ =>
      pieces.list.length < 2 ^ 31 ∧ ∀ piece ∈ pieces.list, piece.length < 2 ^ 31
  | _ => True

instance decidableAllowed (s : Channel) : ∀ label, Decidable (Allowed s label)
  | .connect .connected => inferInstanceAs (Decidable (s.status = .closed → s.iovec = none))
  | .connect .inProgress => isTrue trivial
  | .connect .failed => isTrue trivial
  | .opened => inferInstanceAs (Decidable (s.iovec = none))
  | .sendMsg pieces _ => inferInstanceAs (Decidable (pieces.list.length < 2 ^ 31 ∧
      ∀ piece ∈ pieces.list, piece.length < 2 ^ 31))
  | .onWrite _ => isTrue trivial
  | .close => isTrue trivial

/-! ## The references -/

/-- The messages with a number below `next` were accepted, and those in `held` are not yet
released. -/
structure Ledger (next : Nat) (held : List Nat) (trace : List Note) : Prop where
  addRefs : ∀ n, trace.count (.addRef n) = if n < next then 1 else 0
  releases : ∀ n, trace.count (.release n) = if n < next ∧ n ∉ held then 1 else 0
  distinct : held.Nodup
  old : ∀ n ∈ held, n < next
  uses : ∀ n before after, trace = before ++ .write n :: after → .release n ∉ before

theorem uses_append {trace notes : List Note}
    (uses : ∀ (n : Nat) (before after : List Note), trace = before ++ .write n :: after →
      .release n ∉ before)
    (later : ∀ (n : Nat) (before after : List Note), notes = before ++ .write n :: after →
      .release n ∉ trace ∧ .release n ∉ before) (n : Nat) (before after : List Note)
    (split : trace ++ notes = before ++ .write n :: after) : .release n ∉ before := by
  obtain ⟨early, beforeEq, notesEq⟩ | ⟨early, traceEq, restEq⟩ := List.append_eq_append_iff.mp split
  · obtain ⟨unreleased, unreleasedNow⟩ := later n early after notesEq
    rw [beforeEq, List.mem_append, not_or]
    exact ⟨unreleased, unreleasedNow⟩
  · cases early with
    | nil =>
        obtain ⟨unreleased, -⟩ := later n [] after (by simpa using restEq.symm)
        rwa [traceEq, List.append_nil] at unreleased
    | cons note early =>
        obtain ⟨rfl, -⟩ := List.cons.inj restEq
        exact uses n before early traceEq

/-- `AddRef` of a new message. -/
theorem Ledger.accept {next : Nat} {held : List Nat} {trace : List Note}
    (ledger : Ledger next held trace) :
    Ledger (next + 1) (held ++ [next]) (trace ++ [.addRef next]) where
  addRefs n := by
    rw [List.count_append, ledger.addRefs n, List.count_singleton]
    by_cases same : n = next
    · simp [same]
    · have other : (Note.addRef next == Note.addRef n) = false := by simpa using Ne.symm same
      have bound : n < next + 1 ↔ n < next := by omega
      simp [other, bound]
  releases n := by
    rw [List.count_append, ledger.releases n, List.count_singleton]
    by_cases same : n = next
    · simp [same]
    · simp only [List.mem_append, List.mem_singleton, same, or_false]
      have bound : n < next + 1 ↔ n < next := by omega
      simp [bound]
  distinct := by
    refine List.nodup_append.mpr ⟨ledger.distinct, List.nodup_singleton _, ?_⟩
    intro a aHeld b bNew
    obtain rfl := List.mem_singleton.mp bNew
    exact Nat.ne_of_lt (ledger.old a aHeld)
  old n mem := by
    rcases List.mem_append.mp mem with held | new
    · exact Nat.lt_succ_of_lt (ledger.old n held)
    · rw [List.mem_singleton.mp new]
      exact Nat.lt_succ_self next
  uses := by
    refine uses_append ledger.uses fun n before after split => ?_
    have member : Note.write n ∈ [Note.addRef next] := by simp [split]
    simp at member

/-- `Release` of the first messages. -/
theorem Ledger.release {next : Nat} {gone kept : List Nat} {trace : List Note}
    (ledger : Ledger next (gone ++ kept) trace) :
    Ledger next kept (trace ++ gone.map .release) where
  addRefs n := by
    have none : Note.addRef n ∉ gone.map Note.release := by simp
    rw [List.count_append, ledger.addRefs n, List.count_eq_zero.mpr none, Nat.add_zero]
  releases n := by
    obtain ⟨goneDistinct, -, apart⟩ := List.nodup_append.mp ledger.distinct
    have injective : Function.Injective Note.release := fun a b same => Note.release.inj same
    rw [List.count_append, ledger.releases n, List.count_map_of_injective _ _ injective]
    by_cases mem : n ∈ gone
    · have bound : n < next := ledger.old n (List.mem_append_left _ mem)
      have left : n ∉ kept := fun keptMem => apart n mem n keptMem rfl
      rw [List.count_eq_one_of_mem goneDistinct mem]
      simp [mem, bound, left]
    · rw [List.count_eq_zero.mpr mem]
      simp [mem]
  distinct := (List.nodup_append.mp ledger.distinct).2.1
  old n mem := ledger.old n (List.mem_append_right _ mem)
  uses := by
    refine uses_append ledger.uses fun n before after split => ?_
    have member : Note.write n ∈ gone.map Note.release := by simp [split]
    simp at member

/-- A write of ranges of messages that are held. -/
theorem Ledger.write {next : Nat} {held numbers : List Nat} {trace : List Note}
    (ledger : Ledger next held trace) (mem : ∀ n ∈ numbers, n ∈ held) :
    Ledger next held (trace ++ numbers.map .write) where
  addRefs n := by
    have none : Note.addRef n ∉ numbers.map Note.write := by simp
    rw [List.count_append, ledger.addRefs n, List.count_eq_zero.mpr none, Nat.add_zero]
  releases n := by
    have none : Note.release n ∉ numbers.map Note.write := by simp
    rw [List.count_append, ledger.releases n, List.count_eq_zero.mpr none, Nat.add_zero]
  distinct := ledger.distinct
  old := ledger.old
  uses := by
    refine uses_append ledger.uses fun n before after split => ?_
    have written : Note.write n ∈ numbers.map Note.write := by simp [split]
    obtain ⟨number, numberMem, same⟩ := List.mem_map.mp written
    obtain rfl := Note.write.inj same
    have unreleased := ledger.releases number
    rw [if_neg (fun both => both.2 (mem number numberMem))] at unreleased
    refine ⟨List.count_eq_zero.mp unreleased, fun released => ?_⟩
    have member : Note.release number ∈ numbers.map Note.write := by simp [split, released]
    simp at member

/-! ## The ranges of a message -/

/-- A message that `Convert2iovec` describes. -/
def Small (m : OutMsg) : Prop :=
  m.pieces.length < 2 ^ 31 ∧ ∀ piece ∈ m.pieces, piece.length < 2 ^ 31

theorem toInt32_of_lt {n : Nat} (bound : n < 2 ^ 31) : toInt32 n = n := by
  rw [toInt32, BitVec.toInt_ofInt]
  exact Int.bmod_eq_of_le (by omega) (by omega)

theorem castLength_of_lt {n : Nat} (bound : n < 2 ^ 31) : castLength n = n := by
  rw [castLength, toInt32_of_lt bound]
  omega

theorem convert2iovec_eq {m : OutMsg} (small : Small m) :
    convert2iovec m = m.pieces.map fun piece => ⟨m.number, piece, piece.length⟩ := by
  rw [convert2iovec, toInt32_of_lt small.1, Int.toNat_natCast]
  rw [List.take_of_length_le (by rw [List.length_map])]
  refine List.map_congr_left fun piece mem => ?_
  rw [castLength_of_lt (small.2 piece mem)]

/-- Ranges whose length is that of their data. -/
def Exact (ranges : List Iovec) : Prop := ∀ v ∈ ranges, v.len = v.data.length

theorem exact_convert2iovec {m : OutMsg} (small : Small m) : Exact (convert2iovec m) := by
  rw [convert2iovec_eq small]
  intro v mem
  obtain ⟨piece, -, rfl⟩ := List.mem_map.mp mem
  rfl

theorem convert2iovec_bytes {m : OutMsg} (small : Small m) :
    (convert2iovec m).flatMap Iovec.bytes = m.bytes := by
  rw [convert2iovec_eq small, List.flatMap_map, OutMsg.bytes]
  simp [Iovec.bytes, List.flatMap_id']

theorem number_of_mem_convert2iovec {m : OutMsg} (small : Small m) {v : Iovec}
    (mem : v ∈ convert2iovec m) : v.number = m.number := by
  rw [convert2iovec_eq small] at mem
  obtain ⟨piece, -, rfl⟩ := List.mem_map.mp mem
  rfl

/-- `ForwardIovec` skips as many bytes as were sent. -/
theorem forwardRanges_spec {ranges : List Iovec} {left number : Nat} (lengths : Exact ranges)
    (numbers : ∀ v ∈ ranges, v.number = number)
    (short : left < (ranges.flatMap Iovec.bytes).length) :
    ∃ ranges', forwardRanges ranges left = some ranges' ∧ Exact ranges' ∧
      (∀ v ∈ ranges', v.number = number) ∧
      ranges'.flatMap Iovec.bytes = (ranges.flatMap Iovec.bytes).drop left := by
  induction ranges generalizing left with
  | nil => exact absurd short (Nat.not_lt_zero left)
  | cons v rest ih =>
      obtain ⟨vExact, restExact⟩ := List.forall_mem_cons.mp lengths
      obtain ⟨vNumber, restNumbers⟩ := List.forall_mem_cons.mp numbers
      have whole : v.bytes = v.data := by rw [Iovec.bytes, vExact, List.take_length]
      rw [List.flatMap_cons, whole] at short ⊢
      rw [List.length_append] at short
      rw [forwardRanges]
      by_cases inside : left < v.len
      · rw [if_pos inside]
        refine ⟨_, rfl, ?_, ?_, ?_⟩
        · refine List.forall_mem_cons.mpr ⟨?_, restExact⟩
          rw [vExact, List.length_drop]
        · exact List.forall_mem_cons.mpr ⟨vNumber, restNumbers⟩
        · rw [List.flatMap_cons, List.drop_append_of_le_length (by omega)]
          rw [Iovec.bytes, vExact, ← List.length_drop, List.take_length]
      · rw [if_neg inside]
        have restShort : left - v.len < (rest.flatMap Iovec.bytes).length := by omega
        obtain ⟨ranges', forwarded, lengths', numbers', bytes'⟩ :=
          ih restExact restNumbers restShort
        have behind : v.data.length ≤ left := by omega
        refine ⟨ranges', forwarded, lengths', numbers', ?_⟩
        rw [bytes', vExact, List.drop_append, List.drop_eq_nil_of_le behind, List.nil_append]

/-! ## The invariant -/

/-- The ranges are what is left of the message that is being sent. -/
structure Cursor (s : Channel) (done : List OutMsg) (ranges : List Iovec) (m : OutMsg) : Prop where
  sending : s.sendingMsg = some m
  lengths : Exact ranges
  numbers : ∀ v ∈ ranges, v.number = m.number
  suffix : ranges.flatMap Iovec.bytes <:+ m.bytes
  accepted : s.accepted ++ ranges.flatMap Iovec.bytes = done.flatMap OutMsg.bytes ++ m.bytes
  length : s.iovecDataLen = (ranges.flatMap Iovec.bytes).length

/-- A connection on which the messages `done` are sent. -/
structure Sends (s : Channel) (done : List OutMsg) : Prop where
  passed : s.passed = done ++ pending s
  idle : s.iovec = none → s.accepted = done.flatMap OutMsg.bytes
  cursor : ∀ ranges, s.iovec = some ranges → ∃ m, Cursor s done ranges m

def Progress (s : Channel) : Prop :=
  match s.status with
  | .closed => pending s = [] ∧ s.accepted <+: s.passed.flatMap OutMsg.bytes
  | .connecting => s.accepted = [] ∧ s.passed = pending s
  | .connected => ∃ done, Sends s done

structure Base (s : Channel) : Prop where
  ledger : Ledger s.nextNumber ((pending s).map OutMsg.number) s.trace
  small : ∀ m ∈ pending s, Small m
  progress : Progress s
  safe : s.undefined = false

/-- Between two operations a message is being sent if one waits. -/
structure Inv (s : Channel) : Prop extends Base s where
  front : s.sendingMsg = none → s.outMsgQueue = []

theorem Sends.progress {s : Channel} {done : List OutMsg} (sends : Sends s done)
    (connected : s.status = .connected) : Progress s := by
  rw [Progress, connected]
  exact ⟨done, sends⟩

theorem Sends.bounds {s : Channel} {done : List OutMsg} (sends : Sends s done) :
    done.flatMap OutMsg.bytes <+: s.accepted ∧ s.accepted <+: s.passed.flatMap OutMsg.bytes := by
  rw [sends.passed, List.flatMap_append]
  cases iovec : s.iovec with
  | none =>
      rw [sends.idle iovec]
      exact ⟨List.prefix_refl _, List.prefix_append _ _⟩
  | some ranges =>
      obtain ⟨m, cursor⟩ := sends.cursor ranges iovec
      obtain ⟨sent, sentEq⟩ := cursor.suffix
      have split := cursor.accepted
      rw [← sentEq, ← List.append_assoc] at split
      have accepted := List.append_cancel_right split
      rw [accepted, pending, cursor.sending]
      refine ⟨List.prefix_append _ _, ?_⟩
      rw [List.prefix_append_right_inj, Option.toList_some, List.cons_append, List.flatMap_cons,
        ← sentEq, List.append_assoc]
      exact List.prefix_append _ _

theorem Base.order {s : Channel} (inv : Base s) :
    s.accepted <+: s.passed.flatMap OutMsg.bytes := by
  have progress := inv.progress
  unfold Progress at progress
  split at progress
  · exact progress.2
  · rw [progress.1]
    exact List.nil_prefix
  · obtain ⟨done, sends⟩ := progress
    exact sends.bounds.2

theorem Base.sends {s : Channel} (inv : Base s) (connected : s.status = .connected) :
    ∃ done, Sends s done := by
  simpa only [Progress, connected] using inv.progress

/-- The invariant gives all that is wanted. -/
theorem Inv.correct {s : Channel} (inv : Inv s) : Correct s where
  order := inv.order
  iovec connected ranges iovec := by
    obtain ⟨done, sends⟩ := inv.sends connected
    obtain ⟨m, cursor⟩ := sends.cursor ranges iovec
    refine ⟨⟨done, m, cursor.sending, ?_, cursor.numbers, cursor.suffix, cursor.accepted⟩,
      cursor.length⟩
    rw [sends.passed, pending, cursor.sending]
    rfl
  addRefs := inv.ledger.addRefs
  releases := inv.ledger.releases
  leaves := by
    have progress := inv.progress
    unfold Progress at progress
    split at progress
    case h_1 closed =>
      rw [if_pos closed]
      exact progress.1
    case h_2 connecting =>
      rw [if_neg (by simp [connecting])]
      exact ⟨[], by rw [progress.2, List.nil_append], List.nil_prefix⟩
    case h_3 connected =>
      rw [if_neg (by simp [connected])]
      obtain ⟨done, sends⟩ := progress
      exact ⟨done, sends.passed, sends.bounds.1⟩
  uses := inv.ledger.uses
  safe := inv.safe

/-! ## One operation -/

theorem prepareIovec_pending (s : Channel) : pending (prepareIovec s) = pending s := by
  unfold prepareIovec
  split
  case h_1 m sending => simp [pending, setIovec, sending]
  case h_2 => rfl
  case h_3 m rest sending queue => simp [pending, setIovec, sending, queue]

/-- `PrepareIovec` changes the cursor only. -/
theorem prepareIovec_rest (s : Channel) :
    (prepareIovec s).status = s.status ∧ (prepareIovec s).nextNumber = s.nextNumber ∧
      (prepareIovec s).passed = s.passed ∧ (prepareIovec s).accepted = s.accepted ∧
      (prepareIovec s).trace = s.trace ∧ (prepareIovec s).undefined = s.undefined := by
  unfold prepareIovec
  split <;> exact ⟨rfl, rfl, rfl, rfl, rfl, rfl⟩

/-- The ranges of a message that is not begun. -/
theorem cursor_setIovec {s : Channel} {done : List OutMsg} {m : OutMsg} (small : Small m)
    (begun : s.accepted = done.flatMap OutMsg.bytes) :
    Cursor (setIovec s m) done (convert2iovec m) m where
  sending := rfl
  lengths := exact_convert2iovec small
  numbers _ mem := number_of_mem_convert2iovec small mem
  suffix := by rw [convert2iovec_bytes small]
  accepted := by
    rw [convert2iovec_bytes small, ← begun]
    rfl
  length := by rw [convert2iovec_bytes small, setIovec]

theorem sends_prepareIovec {s : Channel} {done : List OutMsg} (none : s.iovec = none)
    (small : ∀ m ∈ pending s, Small m) (sends : Sends s done) : Sends (prepareIovec s) done := by
  have begun := sends.idle none
  obtain ⟨-, -, passed, accepted, -, -⟩ := prepareIovec_rest s
  refine ⟨?_, ?_, ?_⟩
  · rw [passed, prepareIovec_pending]
    exact sends.passed
  · intro _
    rw [accepted]
    exact begun
  · intro ranges iovec
    unfold prepareIovec at iovec ⊢
    split at iovec
    case h_1 m sending =>
      obtain rfl := Option.some.inj iovec
      exact ⟨m, cursor_setIovec (small m (by simp [pending, sending])) begun⟩
    case h_2 => exact absurd (none.symm.trans iovec) (by simp)
    case h_3 m rest sending queue =>
      obtain rfl := Option.some.inj iovec
      exact ⟨m, cursor_setIovec (small m (by simp [pending, queue])) begun⟩

theorem front_prepareIovec (s : Channel) :
    (prepareIovec s).sendingMsg = none → (prepareIovec s).outMsgQueue = [] := by
  intro none
  unfold prepareIovec at none ⊢
  split at none
  case h_1 => exact absurd none (by simp [setIovec])
  case h_2 queue => exact queue
  case h_3 => exact absurd none (by simp [setIovec])

theorem inv_prepareIovec {s : Channel} (inv : Base s) (connected : s.status = .connected)
    (none : s.iovec = none) : Inv (prepareIovec s) := by
  obtain ⟨status, nextNumber, -, -, trace, undefined⟩ := prepareIovec_rest s
  refine ⟨⟨?_, ?_, ?_, ?_⟩, front_prepareIovec s⟩
  · rw [nextNumber, prepareIovec_pending, trace]
    exact inv.ledger
  · rw [prepareIovec_pending]
    exact inv.small
  · obtain ⟨done, sends⟩ := inv.sends connected
    exact (sends_prepareIovec none inv.small sends).progress (status.trans connected)
  · rw [undefined]
    exact inv.safe

theorem inv_realClose {s : Channel} (inv : Inv s) : Inv (realClose s) := by
  unfold realClose
  split
  · exact inv
  · refine ⟨⟨?_, ?_, ⟨rfl, inv.order⟩, inv.safe⟩, fun _ => rfl⟩
    · have ledger := inv.ledger
      rw [← List.append_nil ((pending s).map OutMsg.number)] at ledger
      have released := ledger.release
      rwa [List.map_map] at released
    · intro m mem
      simp [pending] at mem

/-- `writev` is called with ranges of the message that is being sent. -/
theorem inv_passRanges {s : Channel} {ranges : List Iovec} (inv : Inv s)
    (connected : s.status = .connected) (iovec : s.iovec = some ranges) :
    Inv (passRanges s ranges) := by
  obtain ⟨done, sends⟩ := inv.sends connected
  obtain ⟨m, cursor⟩ := sends.cursor ranges iovec
  have held : ∀ n ∈ ranges.map Iovec.number, n ∈ (pending s).map OutMsg.number := by
    intro n mem
    obtain ⟨v, vMem, rfl⟩ := List.mem_map.mp mem
    rw [cursor.numbers v vMem, pending, cursor.sending]
    simp
  refine ⟨⟨?_, inv.small, ?_, inv.safe⟩, inv.front⟩
  · have written := inv.ledger.write held
    rwa [List.map_map] at written
  · refine Sends.progress ⟨sends.passed, sends.idle, fun ranges' iovec' => ?_⟩ connected
    obtain ⟨m, cursor⟩ := sends.cursor ranges' iovec'
    exact ⟨m, cursor.sending, cursor.lengths, cursor.numbers, cursor.suffix, cursor.accepted,
      cursor.length⟩

/-- All ranges were sent. -/
theorem inv_finishMsg {s : Channel} {ranges : List Iovec} (inv : Inv s)
    (connected : s.status = .connected) (iovec : s.iovec = some ranges) :
    let s' := finishMsg (takeBytes s (ranges.flatMap Iovec.bytes))
    Inv s' ∧ s'.status = .connected := by
  obtain ⟨done, sends⟩ := inv.sends connected
  obtain ⟨m, cursor⟩ := sends.cursor ranges iovec
  have waiting : pending s = m :: s.outMsgQueue := by rw [pending, cursor.sending]; rfl
  have released : Base (resetIovec { takeBytes s (ranges.flatMap Iovec.bytes) with
      trace := s.trace ++ [.release m.number] }) := by
    refine ⟨?_, ?_, ?_, inv.safe⟩
    · have ledger := inv.ledger
      rw [waiting] at ledger
      rw [List.map_cons, ← List.singleton_append] at ledger
      exact ledger.release
    · intro m' mem
      exact inv.small m' (by rw [waiting]; exact List.mem_cons_of_mem m mem)
    · refine Sends.progress (?_ : Sends _ (done ++ [m])) connected
      refine ⟨?_, ?_, fun _ set => absurd set (by simp [resetIovec])⟩
      · show s.passed = done ++ [m] ++ s.outMsgQueue
        rw [sends.passed, waiting, List.append_assoc]
        rfl
      · intro _
        rw [List.flatMap_append, List.flatMap_singleton]
        exact cursor.accepted
  have finished : finishMsg (takeBytes s (ranges.flatMap Iovec.bytes)) =
      prepareIovec (resetIovec { takeBytes s (ranges.flatMap Iovec.bytes) with
        trace := s.trace ++ [.release m.number] }) := by
    simp only [finishMsg, takeBytes, cursor.sending]
  simp only [finished]
  refine ⟨inv_prepareIovec released connected rfl, ?_⟩
  rw [(prepareIovec_rest _).1]
  exact connected

/-- Some bytes of the ranges were sent, but not all. -/
theorem inv_forwardIovec {s : Channel} {ranges : List Iovec} {k : Nat} (inv : Inv s)
    (connected : s.status = .connected) (iovec : s.iovec = some ranges)
    (short : k < (ranges.flatMap Iovec.bytes).length) :
    let s' := forwardIovec (takeBytes s ((ranges.flatMap Iovec.bytes).take k)) ranges k
    Inv s' ∧ s'.status = .connected := by
  obtain ⟨done, sends⟩ := inv.sends connected
  obtain ⟨m, cursor⟩ := sends.cursor ranges iovec
  obtain ⟨ranges', forwarded, lengths', numbers', bytes'⟩ :=
    forwardRanges_spec cursor.lengths cursor.numbers short
  simp only [forwardIovec, forwarded]
  refine ⟨⟨⟨inv.ledger, inv.small, Sends.progress ⟨sends.passed, ?_, ?_⟩ connected, inv.safe⟩,
    inv.front⟩, connected⟩
  · intro unset
    exact absurd unset (by simp)
  intro ranges'' set
  obtain rfl := Option.some.inj set
  refine ⟨m, cursor.sending, lengths', numbers', ?_, ?_, ?_⟩
  · rw [bytes']
    exact (List.drop_suffix _ _).trans cursor.suffix
  · rw [bytes', ← cursor.accepted]
    show s.accepted ++ _ ++ _ = _
    rw [List.append_assoc, List.take_append_drop]
  · rw [bytes', List.length_drop, ← cursor.length]
    rfl

theorem inv_sendLoop {results : List Writev} {s s' : Channel} (inv : Inv s)
    (connected : s.status = .connected) (ran : sendLoop results s = some s') : Inv s' := by
  induction results generalizing s with
  | nil => exact absurd ran (by simp [sendLoop])
  | cons result rest ih =>
      rw [sendLoop] at ran
      split at ran
      · exact absurd ran (by simp)
      · rename_i ranges iovec
        have passed := inv_passRanges inv connected iovec
        cases result with
        | again =>
            obtain rfl := Option.some.inj ran
            exact passed
        | interrupted => exact ih passed connected ran
        | failed =>
            obtain rfl := Option.some.inj ran
            exact inv_realClose passed
        | sent k =>
            simp only at ran
            split at ran
            · exact absurd ran (by simp)
            · rename_i possible
              obtain ⟨done, sends⟩ := passed.sends connected
              obtain ⟨m, cursor⟩ := sends.cursor ranges iovec
              split at ran
              · rename_i all
                have whole : k = (ranges.flatMap Iovec.bytes).length := all.trans cursor.length
                obtain ⟨finished, stays⟩ := inv_finishMsg passed connected iovec
                rw [whole, List.take_length] at ran
                split at ran
                · obtain rfl := Option.some.inj ran
                  exact finished
                · exact ih finished stays ran
              · rename_i notAll
                have short : k < (ranges.flatMap Iovec.bytes).length := by
                  have different : k ≠ (ranges.flatMap Iovec.bytes).length :=
                    fun same => notAll (same.trans cursor.length.symm)
                  omega
                obtain ⟨forwarded, stays⟩ := inv_forwardIovec passed connected iovec short
                split at ran
                · obtain rfl := Option.some.inj ran
                  exact forwarded
                · exact ih forwarded stays ran

theorem inv_trySend {results : List Writev} {s s' : Channel} (inv : Inv s)
    (connected : s.status = .connected) (ran : trySend results s = some s') : Inv s' := by
  unfold trySend at ran
  by_cases unset : s.iovec = none
  · have prepared := inv_prepareIovec inv.toBase connected unset
    simp only [unset, if_true] at ran
    split at ran
    · obtain rfl := Option.some.inj ran
      exact prepared
    · refine inv_sendLoop prepared ?_ ran
      rw [(prepareIovec_rest s).1]
      exact connected
  · simp only [unset, if_false] at ran
    exact inv_sendLoop inv connected ran

/-- A message is accepted and waits behind the others. -/
theorem inv_acceptMsg {s : Channel} {m : OutMsg} {first : Option OutMsg} {queue : List OutMsg}
    (inv : Inv s) (isOpen : s.status ≠ .closed) (number : m.number = s.nextNumber)
    (small : Small m) (waiting : first.toList ++ queue = pending s ++ [m])
    (same : s.sendingMsg = none ∨ first = s.sendingMsg) (front : first = none → queue = []) :
    Inv { acceptMsg s m with sendingMsg := first, outMsgQueue := queue } := by
  refine ⟨⟨?_, ?_, ?_, inv.safe⟩, front⟩
  · show Ledger (s.nextNumber + 1) ((first.toList ++ queue).map OutMsg.number)
      (s.trace ++ [.addRef m.number])
    rw [waiting, List.map_append, List.map_singleton, number]
    exact inv.ledger.accept
  · intro m' mem
    have mem' : m' ∈ first.toList ++ queue := mem
    rw [waiting, List.mem_append, List.mem_singleton] at mem'
    rcases mem' with old | rfl
    · exact inv.small m' old
    · exact small
  · cases status : s.status with
    | closed => exact absurd status isOpen
    | connecting =>
        have progress := inv.progress
        simp only [Progress, status] at progress
        simp only [Progress, acceptMsg, status, pending]
        exact ⟨progress.1, by rw [progress.2, waiting]⟩
    | connected =>
        obtain ⟨done, sends⟩ := inv.sends status
        refine Sends.progress (?_ : Sends _ done) status
        refine ⟨?_, sends.idle, fun ranges iovec => ?_⟩
        · show s.passed ++ [m] = done ++ (first.toList ++ queue)
          rw [sends.passed, waiting, List.append_assoc]
        · obtain ⟨m, cursor⟩ := sends.cursor ranges iovec
          refine ⟨m, ?_, cursor.lengths, cursor.numbers, cursor.suffix, cursor.accepted,
            cursor.length⟩
          rcases same with none | same
          · exact absurd (none.symm.trans cursor.sending) (by simp)
          · exact same.trans cursor.sending

theorem inv_sendMsg {pieces : Pieces} {results : List Writev} {s s' : Channel} (inv : Inv s)
    (small : pieces.list.length < 2 ^ 31 ∧ ∀ piece ∈ pieces.list, piece.length < 2 ^ 31)
    (ran : sendMsg pieces results s = some s') : Inv s' := by
  unfold sendMsg at ran
  split at ran
  · obtain rfl := Option.some.inj ran
    exact inv
  · rename_i isOpen
    simp only at ran
    split at ran
    · rename_i first sending
      obtain rfl := Option.some.inj ran
      refine inv_acceptMsg inv isOpen rfl small ?_ (Or.inr rfl) (fun none => ?_)
      · simp [pending, acceptMsg]
      · exact absurd (sending.symm.trans none) (by simp)
    · rename_i none
      have accepted : Inv { acceptMsg s ⟨s.nextNumber, pieces.list⟩ with
          sendingMsg := some ⟨s.nextNumber, pieces.list⟩ } := by
        have empty : s.outMsgQueue = [] := inv.front none
        refine inv_acceptMsg inv isOpen rfl small ?_ (Or.inl none) (fun unset => ?_)
        · have unset : s.sendingMsg = Option.none := none
          simp [pending, acceptMsg, empty, unset]
        · exact absurd unset (by simp)
      split at ran
      · rename_i connected
        exact inv_trySend accepted connected ran
      · obtain rfl := Option.some.inj ran
        exact accepted

theorem inv_connect {result : ConnectResult} {s : Channel} (inv : Inv s)
    (allowed : Allowed s (.connect result)) : Inv (connect result s) := by
  unfold connect
  split
  · rename_i closed
    have progress := inv.progress
    simp only [Progress, closed] at progress
    have empty : pending s = [] := progress.1
    cases result with
    | connected =>
        have unset : s.iovec = none := allowed closed
        refine ⟨⟨inv.ledger, inv.small, ?_, inv.safe⟩, inv.front⟩
        refine Sends.progress (?_ : Sends _ []) rfl
        refine ⟨?_, fun _ => rfl, fun ranges set => ?_⟩
        · exact empty.symm
        · exact absurd (unset.symm.trans set) (by simp)
    | inProgress => exact ⟨⟨inv.ledger, inv.small, ⟨rfl, empty.symm⟩, inv.safe⟩, inv.front⟩
    | failed => exact inv
  · exact inv

theorem inv_opened {s : Channel} (inv : Inv s) (connecting : s.status = .connecting)
    (unset : s.iovec = none) : Inv { s with status := .connected } := by
  have progress := inv.progress
  simp only [Progress, connecting] at progress
  refine ⟨⟨inv.ledger, inv.small, ?_, inv.safe⟩, inv.front⟩
  refine Sends.progress (?_ : Sends _ []) rfl
  refine ⟨progress.2, fun _ => progress.1, fun ranges set => ?_⟩
  exact absurd (unset.symm.trans set) (by simp)

theorem inv_step {s s' : Channel} {label : Label} (inv : Inv s) (allowed : Allowed s label)
    (taken : step s label = some s') : Inv s' := by
  rw [step.eq_def, if_neg (by simp [inv.safe])] at taken
  cases label with
  | connect result =>
      obtain rfl := Option.some.inj taken
      exact inv_connect inv allowed
  | opened =>
      simp only at taken
      split at taken
      · rename_i connecting
        obtain rfl := Option.some.inj taken
        exact inv_opened inv connecting allowed
      · exact absurd taken (by simp)
  | sendMsg pieces results => exact inv_sendMsg inv allowed taken
  | onWrite results =>
      simp only at taken
      split at taken
      · rename_i connected
        exact inv_trySend inv connected taken
      · exact absurd taken (by simp)
  | close =>
      obtain rfl := Option.some.inj taken
      exact inv_realClose inv

theorem inv_initial : Inv Channel.initial where
  ledger := ⟨fun _ => rfl, fun _ => rfl, List.nodup_nil, nofun,
    fun _ _ _ split => absurd split (by simp [Channel.initial])⟩
  small := nofun
  progress := ⟨rfl, List.nil_prefix⟩
  safe := rfl
  front _ := rfl

/-! ## What the users of a channel see -/

/-- Sending does not touch the messages that were passed, and at most closes the channel. -/
def Kept (s s' : Channel) : Prop :=
  s'.passed = s.passed ∧ (s'.status = s.status ∨ s'.status = .closed)

theorem Kept.refl (s : Channel) : Kept s s := ⟨rfl, Or.inl rfl⟩

theorem Kept.trans {s s' s'' : Channel} (first : Kept s s') (second : Kept s' s'') :
    Kept s s'' := by
  refine ⟨second.1.trans first.1, ?_⟩
  rcases second.2 with same | closed
  · rw [same]
    exact first.2
  · exact Or.inr closed

theorem kept_realClose (s : Channel) : Kept s (realClose s) := by
  unfold realClose
  split
  · exact Kept.refl s
  · exact ⟨rfl, Or.inr rfl⟩

theorem realClose_status (s : Channel) : (realClose s).status = .closed := by
  unfold realClose
  split
  · assumption
  · rfl

theorem kept_prepareIovec (s : Channel) : Kept s (prepareIovec s) :=
  ⟨(prepareIovec_rest s).2.2.1, Or.inl (prepareIovec_rest s).1⟩

theorem kept_finishMsg (s : Channel) : Kept s (finishMsg s) := by
  unfold finishMsg
  split
  · exact ⟨rfl, Or.inl rfl⟩
  · exact Kept.trans ⟨rfl, Or.inl rfl⟩ (kept_prepareIovec _)

theorem kept_forwardIovec (s : Channel) (ranges : List Iovec) (len : Nat) :
    Kept s (forwardIovec s ranges len) := by
  unfold forwardIovec
  split <;> exact ⟨rfl, Or.inl rfl⟩

theorem kept_sendLoop {results : List Writev} {s s' : Channel}
    (ran : sendLoop results s = some s') : Kept s s' := by
  induction results generalizing s with
  | nil => exact absurd ran (by simp [sendLoop])
  | cons result rest ih =>
      rw [sendLoop] at ran
      split at ran
      · exact absurd ran (by simp)
      · rename_i ranges iovec
        have passed : Kept s (passRanges s ranges) := Kept.refl _
        refine passed.trans ?_
        cases result with
        | again =>
            obtain rfl := Option.some.inj ran
            exact Kept.refl _
        | interrupted => exact ih ran
        | failed =>
            obtain rfl := Option.some.inj ran
            exact kept_realClose _
        | sent k =>
            have taken : Kept (passRanges s ranges) (takeBytes (passRanges s ranges)
                ((ranges.flatMap Iovec.bytes).take k)) := Kept.refl _
            simp only at ran
            split at ran
            · exact absurd ran (by simp)
            · refine taken.trans ?_
              split at ran
              · refine (kept_finishMsg _).trans ?_
                split at ran
                · obtain rfl := Option.some.inj ran
                  exact Kept.refl _
                · exact ih ran
              · refine (kept_forwardIovec _ ranges k).trans ?_
                split at ran
                · obtain rfl := Option.some.inj ran
                  exact Kept.refl _
                · exact ih ran

theorem kept_trySend {results : List Writev} {s s' : Channel}
    (ran : trySend results s = some s') : Kept s s' := by
  unfold trySend at ran
  by_cases unset : s.iovec = none
  · simp only [unset, if_true] at ran
    refine (kept_prepareIovec s).trans ?_
    split at ran
    · obtain rfl := Option.some.inj ran
      exact Kept.refl _
    · exact kept_sendLoop ran
  · simp only [unset, if_false] at ran
    exact kept_sendLoop ran

theorem sendMsg_closed {pieces : Pieces} {results : List Writev} {s : Channel}
    (closed : s.status = .closed) : sendMsg pieces results s = some s := if_pos closed

/-- An open channel takes the message. -/
theorem sendMsg_open {pieces : Pieces} {results : List Writev} {s s' : Channel}
    (isOpen : s.status ≠ .closed) (ran : sendMsg pieces results s = some s') :
    s'.passed.length = s.passed.length + 1 ∧ (s'.status = s.status ∨ s'.status = .closed) := by
  have length : ∀ m, (acceptMsg s m).passed.length = s.passed.length + 1 :=
    fun m => List.length_append
  rw [sendMsg, if_neg isOpen] at ran
  simp only at ran
  split at ran
  · obtain rfl := Option.some.inj ran
    exact ⟨length _, Or.inl rfl⟩
  · split at ran
    · obtain ⟨passed, status⟩ := kept_trySend ran
      exact ⟨(congrArg List.length passed).trans (length _), status⟩
    · obtain rfl := Option.some.inj ran
      exact ⟨length _, Or.inl rfl⟩

/-- Connections that start without an old cursor send the messages in order, and keep each one as
long as they use it. -/
theorem sends_of_allowed {labels : List Label} {s : Channel}
    (allowed : Meets step Allowed Channel.initial labels)
    (ran : exec step Channel.initial labels = some s) : Correct s :=
  (exec_invariant (fun _ _ _ inv allowed taken => inv_step inv allowed taken) inv_initial allowed
    ran).correct

/-- Two connections, with two messages and a partial write on the first one. -/
def twoConnections : List Label :=
  [.connect .inProgress, .sendMsg ⟨[[97, 98], [99]], by decide, by decide⟩ [],
    .sendMsg ⟨[[100]], by decide, by decide⟩ [], .opened,
    .onWrite [.sent 1, .interrupted, .sent 2, .sent 1], .close, .connect .connected,
    .sendMsg ⟨[[101, 102]], by decide, by decide⟩ [.sent 1, .sent 1]]

theorem sends_of_allowed_twice :
    ∃ s, exec step Channel.initial twoConnections = some s ∧ s.accepted = [101, 102] ∧
      Correct s := by
  have accepted : (exec step Channel.initial twoConnections).map Channel.accepted =
      some [101, 102] := by decide +kernel
  obtain ⟨s, ran, bytes⟩ := Option.map_eq_some_iff.mp accepted
  exact ⟨s, ran, bytes, sends_of_allowed (by decide +kernel) ran⟩

/-- The rest of a message that was released is sent on the next connection, in place of the message
that was passed there. -/
theorem stale_cursor_sent :
    ¬ ∀ labels s, exec step Channel.initial labels = some s → Correct s := by
  intro all
  have correct := all [.connect .connected,
    .sendMsg ⟨[[97, 98]], by decide, by decide⟩ [.sent 1, .again], .close, .connect .connected,
    .sendMsg ⟨[[99, 100]], by decide, by decide⟩ [.sent 1]] _ rfl
  exact absurd correct.order (by decide +kernel)

end MlsImgSearch.Blitz2.StreamSocketChannel
