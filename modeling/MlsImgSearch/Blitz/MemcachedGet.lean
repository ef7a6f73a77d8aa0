import MlsImgSearch.Blitz.MemcachedRuns

/-!
# A `get` and its answer

The client prints the request, the server finds its line and answers it, and the decoder of the client
takes the answer apart again.
-/

namespace MlsImgSearch.Blitz.MemcachedGet

open Lib.Lines Lib.Printf Lib.Words
open LineMsg (InMsg lf)
open MemcachedReply (Exchange Key LineText MemcachedReplyDecoder OneMessage Reply Roomy Value
  delivers_first oneMessage_iff)
open MemcachedReqFunction (MEMCACHED_COMMAND_GET crlf)
open MemcachedServer (Sized answered answer kDefaultMaxMemcachedServerLength realProcessMsg
  realProcessMsg_spec requestedKey valueReply)

/-! ## The request -/

section Request

variable {key : List UInt8}

/-- The request for a key. -/
def requestText (key : List UInt8) : List UInt8 := MEMCACHED_COMMAND_GET ++ 32 :: key ++ crlf

theorem length_requestText (key : List UInt8) : (requestText key).length = key.length + 6 := by
  simp [requestText, MEMCACHED_COMMAND_GET, crlf]

theorem not_mem_of_small {c : UInt8} (large : ∀ c ∈ key, 32 < c) (small : c ≤ 32) : c ∉ key :=
  fun member => absurd (large c member) (UInt8.not_lt.mpr small)

/-- A request that fits is printed. -/
theorem get_eq (large : ∀ c ∈ key, 32 < c) (short : key.length < 2 ^ 31 - 6) {buf : List UInt8}
    (room : key.length + 6 < buf.length) :
    ∃ buf', MemcachedReqFunction.get buf key = some (((requestText key).length : Int), buf') ∧
      buf'.take (requestText key).length = requestText key := by
  have length := length_requestText key
  obtain ⟨printed, isPrinted⟩ := (precision_isSome_iff key).mpr (by omega)
  obtain rfl := (precision_whole_iff isPrinted).mpr
    ⟨by omega, not_mem_of_small large (by decide)⟩
  obtain ⟨buf', written, -, taken⟩ := snprintf_inside (requestText printed) (Nat.zero_le buf.length)
  rw [Nat.sub_zero, returned, if_pos (by omega)] at written
  rw [List.take_zero, List.nil_append, Nat.zero_add] at taken
  refine ⟨buf', ?_, taken (by omega)⟩
  rw [MemcachedReqFunction.get, MemcachedReqFunction.printKey, isPrinted, Option.bind_some,
    Option.elim_none, List.append_nil]
  exact written

/-- The request is one line. -/
theorem lines_requestText (large : ∀ c ∈ key, 32 < c) :
    lines lf (requestText key) = ([requestText key], []) := by
  have open' : lf ∉ MEMCACHED_COMMAND_GET ++ 32 :: key ++ [13] := by
    simp only [List.mem_append, List.mem_cons, not_or]
    exact ⟨⟨by decide, by decide, not_mem_of_small large (by decide)⟩, by decide, List.not_mem_nil⟩
  have split : requestText key = (MEMCACHED_COMMAND_GET ++ 32 :: key ++ [13]) ++ lf :: [] := by
    simp [requestText, crlf, lf]
  rw [split, lines, linesFrom_plain open', linesFrom_sep]
  rfl

/-- The server looks this key up. -/
theorem requestedKey_requestText (large : ∀ c ∈ key, 32 < c) (some' : key ≠ []) :
    requestedKey (requestText key) = some key := by
  have noZero : ∀ c ∈ requestText key, c ≠ 0 := by
    intro c member isZero
    subst isZero
    simp only [requestText, List.mem_append, List.mem_cons] at member
    rcases member with (inGet | isBlank | inKey) | inCrlf
    · exact absurd inGet (by decide)
    · exact absurd isBlank (by decide)
    · exact not_mem_of_small large (by decide) inKey
    · exact absurd inCrlf (by decide)
  have whole : (requestText key).takeWhile (· ≠ 0) = requestText key :=
    List.takeWhile_eq_self_iff.mpr fun c member => decide_eq_true (noZero c member)
  have plain : ImgdbProxyServer.blank ∉ key ++ crlf := by
    rw [List.mem_append, not_or]
    exact ⟨not_mem_of_small large (by decide), by decide⟩
  have isWords : words ImgdbProxyServer.blank (requestText key) =
      [MEMCACHED_COMMAND_GET, key ++ crlf] := by
    have split : requestText key =
        MEMCACHED_COMMAND_GET ++ ImgdbProxyServer.blank :: (key ++ crlf) := by
      rw [requestText, List.append_assoc]
      rfl
    rw [split, words_append (by decide), words_plain plain, if_neg (by decide),
      if_neg (List.append_ne_nil_of_left_ne_nil some' _)]
    rfl
  have erased : ImgdbProxyServer.parseRequest (key ++ crlf) = key := by
    clear isWords plain whole noZero some'
    induction key with
    | nil => rfl
    | cons c key ih =>
        have other : c ≠ ImgdbProxyServer.cr := fun same =>
          absurd (large c List.mem_cons_self) (by rw [same]; decide)
        rw [List.cons_append, ImgdbProxyServer.parseRequest, if_neg fun both => other both.1,
          ih fun c member => large c (List.mem_cons_of_mem _ member)]
  rw [requestedKey, whole, isWords]
  dsimp only
  rw [if_pos (by decide), erased]

end Request

/-! ## The answer -/

/-- The text behind the word for an item without bytes. -/
def outOfMemory : LineText :=
  ⟨MemcachedReply.ascii " out of memory preparing response", Lib.Strings.forall_mem_of_all (by decide)⟩

/-- The reply of the protocol for a key. -/
def replyFor (key : Key) : Option (List UInt8) → Reply
  | none => .status .end'
  | some [] => .status (.serverError outOfMemory)
  | some (c :: data) => .value ⟨key, 0, c :: data⟩

/-- The server answers with the reply of the protocol. -/
theorem text_replyFor (getItemData : List UInt8 → Option (List UInt8)) (key : Key) :
    (replyFor key (getItemData key.val)).text ++ crlf = valueReply getItemData key.val := by
  rw [valueReply]
  cases getItemData key.val with
  | none =>
      show MemcachedReply.ascii "END" ++ crlf = ImgdbProxyServer.ascii "END" ++ ImgdbProxyServer.crlf
      decide
  | some data =>
      cases data with
      | nil =>
          show MemcachedReply.ascii "SERVER_ERROR" ++
              MemcachedReply.ascii " out of memory preparing response" ++ crlf =
            ImgdbProxyServer.ascii "SERVER_ERROR out of memory preparing response" ++
              ImgdbProxyServer.crlf
          decide
      | cons c data =>
          have zero : Lib.Strings.decimal 0 = [48] := by decide
          have first : MemcachedReply.ascii "VALUE" = [86, 65, 76, 85, 69] := by decide
          have second : ImgdbProxyServer.ascii "VALUE " = [86, 65, 76, 85, 69, 32] := by decide
          have third : ImgdbProxyServer.ascii " 0 " = [32, 48, 32] := by decide
          have last : ImgdbProxyServer.ascii "END" = MemcachedReply.endKey := by decide
          simp only [replyFor, Reply.text, Value.text, Value.head, zero, first, second, third, last,
            List.append_assoc, List.cons_append, List.nil_append]
          rfl

/-- The request of the client is one line however it is cut. The server looks its key up, once, and
sends one answer. The client takes the item out of the answer exactly if the first line fits its buffer,
a value has no zero and no `END` in it, and all of it behind the first line comes in one piece. -/
theorem get_roundTrip (junk : Nat → UInt8) {getItemData : List UInt8 → Option (List UInt8)}
    (sized : Sized getItemData) (key : Key) (some' : key.val ≠ [])
    (short : key.val.length + 6 < kDefaultMaxMemcachedServerLength) {buf : List UInt8}
    (room : key.val.length + 6 < buf.length) :
    ∃ (n : Nat) (buf' : List UInt8), MemcachedReqFunction.get buf key.val = some ((n : Int), buf') ∧
      (∀ pieces : List (List UInt8), pieces.flatten = buf'.take n →
        ∃ d msg, (MemcachedServerMsg.decoder junk kDefaultMaxMemcachedServerLength).feedAll .initial
            pieces = some (d, [msg]) ∧
          ∀ sendMsg : Int, realProcessMsg getItemData sendMsg msg.bytes =
            .ok ([.got key.val, .sent (valueReply getItemData key.val)] ++
              if sendMsg = 0 then [] else [.closed])) ∧
      ∀ ex : Exchange, ex.reply = replyFor key (getItemData key.val) →
        ex.pieces.flatten = valueReply getItemData key.val ∧
          ((∃ d outs, MemcachedReplyDecoder.feedAll {} ex.pieces = some (d, outs) ∧
              OneMessage ex.reply.text outs) ↔
            Roomy {} ex.pieces ∧ ex.Whole) := by
  have most : kDefaultMaxMemcachedServerLength = 150 := rfl
  have length := length_requestText key.val
  obtain ⟨buf', printed, taken⟩ := get_eq key.property (by omega) room
  refine ⟨(requestText key.val).length, buf', printed, fun pieces cut => ?_, fun ex isReply => ?_⟩
  · rw [taken] at cut
    obtain ⟨d, msgs, fed, areLines⟩ := MemcachedServerMsg.feedAll_lines junk
      (show pieces.flatten.length < kDefaultMaxMemcachedServerLength by rw [cut]; omega)
    rw [cut, lines_requestText key.property] at areLines
    obtain ⟨msg, rfl, isText⟩ := List.map_eq_singleton_iff.mp areLines
    refine ⟨d, msg, fed, fun sendMsg => ?_⟩
    rw [isText, realProcessMsg_spec sized sendMsg (by omega), answered, answer,
      requestedKey_requestText key.property some']
    rfl
  · have whole := ex.whole
    have known : ex.reply.isMalformed = false := by
      rw [isReply]
      unfold replyFor
      split <;> rfl
    refine ⟨?_, ?_⟩
    · rw [whole, isReply]
      exact text_replyFor getItemData key
    · rw [← delivers_first known]
      constructor
      · rintro ⟨d, outs, fed, one⟩
        obtain ⟨roomy, -, delivers⟩ := (oneMessage_iff fun piece member =>
          (ex.fits piece member).1).mp ⟨outs, fed, one⟩
        exact ⟨roomy, delivers⟩
      · rintro ⟨roomy, delivers⟩
        obtain ⟨outs, fed, one⟩ := (oneMessage_iff fun piece member =>
          (ex.fits piece member).1).mpr ⟨roomy, rfl, delivers⟩
        exact ⟨_, outs, fed, one⟩

/-- The key of an item. -/
def oneKey : Key := ⟨[107], Lib.Strings.forall_mem_of_all (by decide)⟩

theorem get_roundTrip_one :
    ∃ (n : Nat) (buf' : List UInt8),
      MemcachedReqFunction.get (List.replicate 9 0) oneKey.val = some ((n : Int), buf') ∧
      (∀ pieces : List (List UInt8), pieces.flatten = buf'.take n →
        ∃ d msg, (MemcachedServerMsg.decoder (fun _ => 0) kDefaultMaxMemcachedServerLength).feedAll
            .initial pieces = some (d, [msg]) ∧
          ∀ sendMsg : Int, realProcessMsg MemcachedRuns.oneItem sendMsg msg.bytes =
            .ok ([.got oneKey.val, .sent (valueReply MemcachedRuns.oneItem oneKey.val)] ++
              if sendMsg = 0 then [] else [.closed])) ∧
      ∀ ex : Exchange, ex.reply = replyFor oneKey (MemcachedRuns.oneItem oneKey.val) →
        ex.pieces.flatten = valueReply MemcachedRuns.oneItem oneKey.val ∧
          ((∃ d outs, MemcachedReplyDecoder.feedAll {} ex.pieces = some (d, outs) ∧
              OneMessage ex.reply.text outs) ↔
            Roomy {} ex.pieces ∧ ex.Whole) :=
  get_roundTrip (fun _ => 0) MemcachedRuns.sized_oneItem oneKey (by decide) (by decide) (by decide)

end MlsImgSearch.Blitz.MemcachedGet
