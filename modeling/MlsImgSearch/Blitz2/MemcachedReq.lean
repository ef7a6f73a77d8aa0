import MlsImgSearch.Blitz2.MemcachedCommon

/-!
# Memcached requests

`MemcachedReqDecoder` reads one request at a time. A `get` request is a line; a
`set` request is a line that announces the length of a data block, which follows
with a line end of its own.
-/

namespace MlsImgSearch.Blitz2.MemcachedReq

open Lib.Bytes Lib.Segmentation MemcachedCommon
open Blitz.HttpCommon (digitsValue AreDigits toInt32)

def kMaxTokenCount : Nat := 8

structure MemcachedSetReq where
  key : List UInt8
  flags : Int
  exptime : Nat
  bytes : Nat
  total : Nat
  noreply : Bool
  deriving DecidableEq

/-- A reported request: a `get` with its line, a `set` with its value. -/
inductive MemcachedReq where
  | get (key msg : List UInt8)
  | set (req : MemcachedSetReq) (value : List UInt8)
  deriving DecidableEq

/-- The parameters of `Init`, and what `noreply_` holds in a new request: no constructor sets it. -/
structure Config extends InitParam where
  newNoreply : Bool

/-- `msg_` is only ever a `set` request. -/
structure MemcachedReqDecoder where
  received : Received
  reqTotalLen : Nat
  firstLineLen : Nat
  msg : Option MemcachedSetReq
  deriving DecidableEq

/-- How `Feed` ends. `past` says that a byte behind the received data was read. -/
structure Fed where
  code : Int
  decoder : MemcachedReqDecoder
  reported : List MemcachedReq := []
  past : Bool := false

variable (cfg : Config)

/-- After `Init`, and after a `Reset` that finds no buffer. -/
def initial : MemcachedReqDecoder := ⟨.fresh cfg.toInitParam, 0, 0, none⟩

/-- A larger buffer with the same data. -/
def grow (r : Received) (capacity : Nat) : Received :=
  { r with
    buffer := r.buffer.take r.bufferDataLen ++ (malloc cfg.junk capacity).drop r.bufferDataLen }

def processSet (d : MemcachedReqDecoder) (req : MemcachedSetReq) : Fed :=
  if d.received.recvedDataLen = d.reqTotalLen then
    { code := 0
      decoder := initial cfg
      reported := [.set req ((d.received.buffer.drop d.firstLineLen).take req.bytes)] }
  else if d.received.recvedDataLen < d.reqTotalLen then
    if d.received.buffer.length < d.reqTotalLen then
      { code := 0, decoder := { d with received := grow cfg d.received d.reqTotalLen } }
    else { code := 0, decoder := d }
  else { code := -1, decoder := d }

def processGetFirstLine (d : MemcachedReqDecoder) (tokens : List (List UInt8)) (count : Nat) : Fed :=
  if d.firstLineLen ≠ d.received.recvedDataLen then { code := -1, decoder := d }
  else if count ≠ 2 ∧ count ≠ 3 then { code := -1, decoder := d }
  else
    { code := 0
      decoder := initial cfg
      reported := [.get (tokens.getD 1 []) (d.received.buffer.take d.firstLineLen)] }

/-- `none` is an exception of `lexical_cast`. -/
def processSetFirstLine (d : MemcachedReqDecoder) (tokens : List (List UInt8)) (count : Nat) :
    Option Fed :=
  if count ≠ 5 ∧ count ≠ 6 then some { code := -1, decoder := d }
  else
    (lexicalCastUInt32 (tokens.getD 4 [])).bind fun bytes =>
    let d := { d with reqTotalLen := (bytes + 2 + d.firstLineLen) % 2 ^ 32 }
    if cfg.bufMaxLen < d.reqTotalLen then some { code := -1, decoder := d }
    -- `strncmp` returns 0 for the word itself
    else if count = 6 ∧ startsWith (tokens.getD 5 []) [110, 111, 114, 101, 112, 108, 121] then
      some { code := -1, decoder := d }
    else
      (lexicalCastUInt32 (tokens.getD 2 [])).bind fun flags =>
      (lexicalCastUInt32 (tokens.getD 3 [])).map fun exptime =>
        let req : MemcachedSetReq :=
          { key := tokens.getD 1 []
            flags := toInt32 flags
            exptime := exptime
            bytes := bytes
            total := d.reqTotalLen
            noreply := count = 6 || cfg.newNoreply }
        processSet cfg { d with msg := some req } req

/-- The choice that the first token makes. -/
def dispatch (d : MemcachedReqDecoder) (count : Nat) (tokens : List (List UInt8)) : Option Fed :=
  if startsWith (tokens.getD 0 []) [103, 101, 116] then some (processGetFirstLine cfg d tokens count)
  else if startsWith (tokens.getD 0 []) [115, 101, 116] then processSetFirstLine cfg d tokens count
  else some { code := -1, decoder := d }

def processFirstLine (d : MemcachedReqDecoder) : Option Fed :=
  let split := tokenizerCommand kMaxTokenCount (d.received.buffer.take d.firstLineLen) [] []
  dispatch cfg d split.1 split.2

/-- `Feed` after the reader stored `length` bytes. -/
def feed (d : MemcachedReqDecoder) (length : Nat) : Option Fed :=
  if length = 0 then some { code := 0, decoder := d }
  else
    let d := { d with received := d.received.add length }
    match d.msg with
    | some req => some (processSet cfg d req)
    | none =>
        match d.received.searchFirstLine length with
        | .tooLong => some { code := -1, decoder := d }
        | .more received past => some { code := 0, decoder := { d with received }, past := past }
        | .line firstLineLen => processFirstLine cfg { d with firstLineLen }

/-- `GetBuffer`, the reader's copy, `Feed`; `none` is a negative code, an exception, a write past the
buffer or a read past the received data. -/
def deliver (d : MemcachedReqDecoder) (piece : List UInt8) :
    Option (MemcachedReqDecoder × List MemcachedReq) :=
  (writeAt d.received.buffer d.received.bufferDataLen piece).bind fun buffer =>
  (feed cfg { d with received := { d.received with buffer } } piece.length).bind fun fed =>
    if fed.code < 0 ∨ fed.past then none else some (fed.decoder, fed.reported)

/-- The decoder as its reader drives it. -/
def decoder : Decoder MemcachedReqDecoder MemcachedReq :=
  ⟨fun d => some d.received.room, deliver cfg⟩

/-! ## Requests -/

/-- A request; the flags are an `int`, the other numbers `uint32_t`. -/
inductive Request where
  | get (key : { word // IsWord word })
  | set (key : { word // IsWord word }) (flags : Number (2 ^ 31)) (exptime bytes : Number (2 ^ 32))
      (noreply : Bool) (data : List UInt8) (sized : digitsValue 10 bytes.digits = data.length)

namespace Request

def words : Request → List (List UInt8)
  | .get key => [[103, 101, 116], key]
  | .set key flags exptime bytes noreply _ _ =>
      [[115, 101, 116], key, flags.digits, exptime.digits, bytes.digits] ++
        if noreply then [[110, 111, 114, 101, 112, 108, 121]] else []

def firstLine (r : Request) : List UInt8 := [32].intercalate r.words ++ crlf

/-- What follows the first line. -/
def block : Request → List UInt8
  | .get _ => []
  | .set _ _ _ _ _ data _ => data ++ crlf

def text (r : Request) : List UInt8 := r.firstLine ++ r.block

/-- The request that is to be reported, with the given flag for the reply of a `set`. -/
def message (r : Request) (noreply : Bool) : MemcachedReq :=
  match r with
  | .get key => .get key r.firstLine
  | .set key flags exptime bytes _ data _ =>
      .set {
        key := key
        flags := digitsValue 10 flags.digits
        exptime := digitsValue 10 exptime.digits
        bytes := digitsValue 10 bytes.digits
        total := r.text.length
        noreply := noreply } data

/-- Whether the request asks for no reply. -/
def noreply : Request → Bool
  | .get _ => false
  | .set _ _ _ _ noreply _ _ => noreply

def isSet : Request → Bool
  | .get _ => false
  | .set .. => true

end Request

/-- The lengths that the claim grants. -/
structure Fitting (r : Request) : Prop where
  line : r.firstLine.length < cfg.bufStartLen
  total : r.text.length ≤ cfg.bufMaxLen

/-- The request comes out of its pieces, and the decoder is as it was before. -/
def Decodes (r : Request) (pieces : List (List UInt8)) : Prop :=
  (decoder cfg).feedAll (initial cfg) pieces = some (initial cfg, [r.message r.noreply])

/-- No piece ends inside the first line, there is no `noreply`, and the unset flag of a new request
happens to be false. -/
structure Clear (r : Request) (pieces : List (List UInt8)) : Prop where
  cuts : ∀ k ∈ cutsFrom 0 pieces, r.firstLine.length ≤ k
  noreply : r.noreply = false
  unset : r.isSet → cfg.newNoreply = false

/-! ## The first line -/

section FirstLine

variable {cfg} {r : Request} {piece : List UInt8}

theorem Request.areWords (r : Request) : ∀ word ∈ r.words, IsWord word := by
  have noreplyWord : IsWord [110, 111, 114, 101, 112, 108, 121] := by
    unfold IsWord
    decide +kernel
  have setWord : IsWord [115, 101, 116] := by
    unfold IsWord
    decide +kernel
  have getWord : IsWord [103, 101, 116] := by
    unfold IsWord
    decide +kernel
  cases r with
  | get key =>
      intro word member
      rcases List.mem_cons.mp member with rfl | member
      · exact getWord
      · obtain rfl := List.mem_singleton.mp member
        exact key.2
  | set key flags exptime bytes noreply data sized =>
      have five : ∀ word ∈ [[115, 101, 116], key.1, flags.digits, exptime.digits, bytes.digits],
          IsWord word := by
        simp only [List.forall_mem_cons]
        exact ⟨setWord, key.2, flags.isWord, exptime.isWord, bytes.isWord,
          fun _ member => nomatch member⟩
      intro word member
      rcases List.mem_append.mp member with inside | inside
      · exact five word inside
      · cases noreply with
        | false => cases inside
        | true =>
            obtain rfl := List.mem_singleton.mp inside
            exact noreplyWord

theorem Request.words_length (r : Request) : r.words ≠ [] ∧ r.words.length ≤ kMaxTokenCount := by
  cases r with
  | get key => exact ⟨List.cons_ne_nil _ _, (by decide : 2 ≤ 8)⟩
  | set key flags exptime bytes noreply data sized =>
      refine ⟨List.cons_ne_nil _ _, ?_⟩
      cases noreply with
      | false => exact (by decide : 5 ≤ 8)
      | true => exact (by decide : 6 ≤ 8)

theorem Request.length_firstLine (r : Request) :
    r.firstLine.length = ([32].intercalate r.words).length + 2 :=
  List.length_append

theorem Request.searchEol_text (r : Request) :
    searchEol r.text = some ([32].intercalate r.words).length :=
  searchEol_append (intercalate_plain r.areWords) r.block

/-- The tokens of the first line. -/
theorem Request.tokens (r : Request) :
    tokenizerCommand kMaxTokenCount r.firstLine [] [] = (r.words.length, r.words) := by
  have room : ([] : List (List UInt8)).length + r.words.length ≤ kMaxTokenCount := by
    rw [List.length_nil, Nat.zero_add]
    exact r.words_length.2
  have split := tokenizerCommand_words r.areWords r.words_length.1 room []
  rwa [List.append_nil, List.length_nil, Nat.zero_add, List.nil_append] at split

variable (cfg) in
/-- A first piece as it lies in the buffer. -/
theorem stored_first (fits : piece.length ≤ cfg.bufStartLen) :
    ∃ block, writeAt (initial cfg).received.buffer (initial cfg).received.bufferDataLen piece =
        some block ∧ block.take piece.length = piece ∧ block.length = cfg.bufStartLen := by
  have inside : 0 + piece.length ≤ (malloc cfg.junk cfg.bufStartLen).length := by
    rwa [length_malloc, Nat.zero_add]
  obtain ⟨block, stored⟩ : ∃ block, writeAt (malloc cfg.junk cfg.bufStartLen) 0 piece = some block :=
    ⟨_, writeAt_eq_some inside⟩
  refine ⟨block, stored, ?_, ?_⟩
  · have front := take_writeAt stored
    rwa [Nat.zero_add, List.take_zero, List.nil_append] at front
  · rw [length_writeAt stored, length_malloc]

theorem add_first {block : List UInt8} (range : piece.length < 2 ^ 32) :
    ({ (initial cfg).received with buffer := block } : Received).add piece.length =
      ⟨block, piece.length, 0, piece.length⟩ := by
  have wrap : (0 + piece.length) % 2 ^ 32 = piece.length := by
    rw [Nat.zero_add, Nat.mod_eq_of_lt range]
  show Received.mk block ((0 + piece.length) % 2 ^ 32) 0 ((0 + piece.length) % 2 ^ 32) = _
  rw [wrap]

/-- A first piece that ends inside the first line makes `Feed` read past the received data. -/
theorem deliver_short (fitting : Fitting cfg r) (nonempty : piece ≠ []) (part : piece <+: r.text)
    (short : piece.length < r.firstLine.length) : deliver cfg (initial cfg) piece = none := by
  have line := fitting.line
  have range := cfg.startRange
  have some' := List.length_pos_of_ne_nil nonempty
  obtain ⟨block, stored, taken, size⟩ := stored_first cfg (Nat.le_of_lt (Nat.lt_trans short line))
  have open' : searchEol piece = none := by
    refine searchEol_part r.searchEol_text part ?_
    rwa [r.length_firstLine] at short
  have search : (⟨block, piece.length, 0, piece.length⟩ : Received).searchFirstLine piece.length =
      .more ⟨block, piece.length, if block.getD (0 + piece.length) 0 = 13 then piece.length - 1
        else piece.length, piece.length⟩ (decide (piece.length ≤ 0 + piece.length)) := by
    refine searchFirstLine_more _ (size.symm ▸ Nat.lt_trans short line) ?_
    rwa [List.drop_zero, taken]
  rw [deliver, stored, Option.bind_some, feed, if_neg (Nat.ne_of_gt some')]
  dsimp only
  rw [add_first (by omega), search]
  dsimp only [initial]
  rw [Option.bind_some, if_pos (Or.inr (decide_eq_true (by omega)))]

variable (cfg) in
/-- A first piece that holds the first line. -/
theorem feed_line {block rest : List UInt8}
    (taken : block.take piece.length = piece) (holds : piece = r.firstLine ++ rest)
    (range : piece.length < 2 ^ 32) :
    feed cfg { initial cfg with received := { (initial cfg).received with buffer := block } }
        piece.length =
      processFirstLine cfg
        ⟨⟨block, piece.length, 0, piece.length⟩, 0, r.firstLine.length, none⟩ := by
  have some' : piece.length ≠ 0 := by
    rw [holds, List.length_append, r.length_firstLine]
    omega
  have search : (⟨block, piece.length, 0, piece.length⟩ : Received).searchFirstLine piece.length =
      .line (0 + ([32].intercalate r.words).length + 2) := by
    refine searchFirstLine_line _ ?_
    show searchEol ((block.take piece.length).drop 0) = _
    rw [List.drop_zero, taken, holds]
    exact searchEol_append (intercalate_plain r.areWords) rest
  rw [feed, if_neg some']
  dsimp only
  rw [add_first range, search, Nat.zero_add, ← r.length_firstLine]
  rfl

end FirstLine

/-! ## Requests of one line -/

section Get

variable {cfg} {piece : List UInt8}

theorem take_line {r : Request} {block rest : List UInt8} (taken : block.take piece.length = piece)
    (holds : piece = r.firstLine ++ rest) : block.take r.firstLine.length = r.firstLine := by
  have shorter : r.firstLine.length ≤ piece.length := by
    rw [holds, List.length_append]
    exact Nat.le_add_right _ _
  rw [← Nat.min_eq_left shorter, ← List.take_take, taken, holds, List.take_left' rfl]

theorem deliver_get {key : { word // IsWord word }} (fitting : Fitting cfg (.get key)) :
    deliver cfg (initial cfg) (Request.get key).firstLine =
      some (initial cfg, [(Request.get key).message false]) := by
  have line := fitting.line
  have range := cfg.startRange
  obtain ⟨block, stored, taken, -⟩ := stored_first cfg (Nat.le_of_lt line)
  have fed := feed_line cfg (r := .get key) taken (List.append_nil _).symm (by omega)
  have line' := take_line taken (List.append_nil (Request.get key).firstLine).symm
  have chosen : dispatch cfg ⟨⟨block, (Request.get key).firstLine.length, 0,
        (Request.get key).firstLine.length⟩, 0, (Request.get key).firstLine.length, none⟩ 2
        [[103, 101, 116], key] =
      some { code := 0, decoder := initial cfg, reported := [(Request.get key).message false] } := by
    have isGet : startsWith ([[103, 101, 116], key.1].getD 0 []) [103, 101, 116] := rfl
    rw [dispatch, if_pos isGet, processGetFirstLine, if_neg (not_not.mpr rfl), if_neg (by decide)]
    dsimp only
    rw [line']
    rfl
  rw [deliver, stored, Option.bind_some, fed, processFirstLine]
  dsimp only
  rw [line', Request.tokens]
  show (dispatch cfg _ 2 [[103, 101, 116], key]).bind _ = _
  rw [chosen]
  rfl

end Get

/-! ## Requests with data -/

section Set

variable {cfg} {key : { word // IsWord word }} {flags : Number (2 ^ 31)}
variable {exptime bytes : Number (2 ^ 32)} {noreply : Bool} {data : List UInt8}
variable {sized : digitsValue 10 bytes.digits = data.length}
variable {piece taken : List UInt8} {d : MemcachedReqDecoder}

/-- What the decoder keeps of a `set` request. -/
def setReq (cfg : Config) (r : Request) : MemcachedSetReq :=
  match r.message cfg.newNoreply with
  | .set req _ => req
  | .get _ _ => ⟨[], 0, 0, 0, 0, false⟩

/-- The first line of a `set` request. -/
theorem processFirstLine_set {r : Request} (isSet : r = .set key flags exptime bytes noreply data sized)
    (fitting : Fitting cfg r) {received : Received}
    (line : received.buffer.take r.firstLine.length = r.firstLine) :
    if noreply then
      ∃ d, processFirstLine cfg ⟨received, 0, r.firstLine.length, none⟩ =
        some { code := -1, decoder := d }
    else processFirstLine cfg ⟨received, 0, r.firstLine.length, none⟩ =
      some (processSet cfg ⟨received, r.text.length, r.firstLine.length, some (setReq cfg r)⟩
        (setReq cfg r)) := by
  have total := fitting.total
  have maxRange := cfg.maxRange
  have size : r.text.length = data.length + 2 + r.firstLine.length := by
    rw [Request.text, List.length_append, Nat.add_comm, isSet]
    exact congrArg (· + _) List.length_append
  have wrap : (digitsValue 10 bytes.digits + 2 + r.firstLine.length) % 2 ^ 32 = r.text.length := by
    rw [sized, ← size, Nat.mod_eq_of_lt (by omega)]
  have small : ¬ cfg.bufMaxLen < r.text.length := Nat.not_lt.mpr total
  have flagsValue : toInt32 (digitsValue 10 flags.digits) = digitsValue 10 flags.digits := by
    have range := flags.range
    rw [toInt32, BitVec.toInt_ofInt]
    exact Int.bmod_eq_of_le (by omega) (by omega)
  have tokens := r.tokens
  have isReq : setReq cfg r = ⟨key, digitsValue 10 flags.digits, digitsValue 10 exptime.digits,
      digitsValue 10 bytes.digits, r.text.length, cfg.newNoreply⟩ := by
    rw [isSet]
    rfl
  rw [isReq]
  generalize r.text.length = total' at *
  generalize r.firstLine.length = lineLen at *
  have chosen : processFirstLine cfg ⟨received, 0, lineLen, none⟩ =
      processSetFirstLine cfg ⟨received, 0, lineLen, none⟩ r.words r.words.length := by
    rw [processFirstLine, line, tokens, isSet]
    rfl
  rw [chosen, isSet]
  cases noreply with
  | true =>
      refine ⟨⟨received, total', lineLen, none⟩, ?_⟩
      show processSetFirstLine cfg _ [[115, 101, 116], key.1, flags.digits, exptime.digits,
        bytes.digits, [110, 111, 114, 101, 112, 108, 121]] 6 = _
      rw [processSetFirstLine, if_neg (by decide)]
      simp only [List.getD_cons_succ, List.getD_cons_zero, bytes.cast (Nat.le_refl _),
        Option.bind_some, wrap, if_neg small]
      exact if_pos ⟨trivial, rfl⟩
  | false =>
      show processSetFirstLine cfg _ [[115, 101, 116], key.1, flags.digits, exptime.digits,
        bytes.digits] 5 = _
      rw [processSetFirstLine, if_neg (by decide)]
      simp only [List.getD_cons_succ, List.getD_cons_zero, bytes.cast (Nat.le_refl _),
        exptime.cast (Nat.le_refl _), flags.cast (by decide), Option.bind_some, Option.map_some,
        wrap, if_neg small, flagsValue]
      exact if_neg (by decide)

/-- The data that was received of a request, before the buffer grows. -/
structure Loaded (r : Request) (taken : List UInt8) (d : MemcachedReqDecoder) : Prop where
  part : d.received.buffer.take taken.length = taken
  inside : taken.length ≤ d.received.buffer.length
  dataLen : d.received.bufferDataLen = taken.length
  recvedLen : d.received.recvedDataLen = taken.length
  total : d.reqTotalLen = r.text.length
  line : d.firstLineLen = r.firstLine.length

/-- Between two exchanges of the data. -/
structure Holds (cfg : Config) (r : Request) (taken : List UInt8) (d : MemcachedReqDecoder) :
    Prop extends Loaded r taken d where
  room : r.text.length ≤ d.received.buffer.length
  msg : d.msg = some (setReq cfg r)

/-- A complete request is reported; an incomplete one has room for the rest. -/
theorem processSet_outcome {r : Request} (isSet : r = .set key flags exptime bytes noreply data sized)
    (loaded : Loaded r taken d) (msg : d.msg = some (setReq cfg r)) (part : taken <+: r.text) :
    (taken = r.text ∧ processSet cfg d (setReq cfg r) =
        { code := 0, decoder := initial cfg, reported := [r.message cfg.newNoreply] }) ∨
      taken.length < r.text.length ∧ ∃ d', processSet cfg d (setReq cfg r) =
        { code := 0, decoder := d' } ∧ Holds cfg r taken d' := by
  unfold processSet
  rw [loaded.recvedLen, loaded.total]
  rcases Nat.lt_or_ge taken.length r.text.length with less | full
  · refine Or.inr ⟨less, ?_⟩
    rw [if_neg (Nat.ne_of_lt less), if_pos less]
    by_cases small : d.received.buffer.length < r.text.length
    · rw [if_pos small]
      have size : (grow cfg d.received r.text.length).buffer.length = r.text.length := by
        dsimp only [grow]
        rw [List.length_append, List.length_take, List.length_drop, length_malloc, loaded.dataLen]
        have inside := loaded.inside
        omega
      refine ⟨_, rfl, ⟨?_, ?_, loaded.dataLen, loaded.recvedLen, rfl, loaded.line⟩, ?_, msg⟩
      · dsimp only [grow]
        rw [loaded.dataLen, loaded.part, List.take_left' rfl]
      · dsimp only
        rw [size]
        exact Nat.le_of_lt less
      · exact Nat.le_of_eq size.symm
    · rw [if_neg small]
      exact ⟨d, rfl, loaded, Nat.le_of_not_lt small, msg⟩
  · have whole : taken = r.text := part.eq_of_length_le full
    refine Or.inl ⟨whole, ?_⟩
    rw [whole, if_pos rfl, loaded.line]
    have text : (d.received.buffer.take r.text.length).drop r.firstLine.length = data ++ crlf := by
      have taken' := loaded.part
      rw [whole] at taken'
      rw [taken', Request.text, List.drop_left' rfl, isSet]
      rfl
    have value : (d.received.buffer.drop r.firstLine.length).take data.length = data := by
      have slice := slice_of_drop text
      rwa [List.drop_take, Nat.add_sub_cancel_left] at slice
    have bytesLen : (setReq cfg r).bytes = data.length := by
      rw [isSet]
      exact sized
    rw [bytesLen, value, isSet]
    rfl

/-- Every later piece of a request. -/
theorem deliver_data {r : Request} (isSet : r = .set key flags exptime bytes noreply data sized)
    (fitting : Fitting cfg r) (holds : Holds cfg r taken d) (nonempty : piece ≠ [])
    (part : taken ++ piece <+: r.text) :
    (taken ++ piece = r.text ∧
        deliver cfg d piece = some (initial cfg, [r.message cfg.newNoreply])) ∨
      (taken ++ piece).length < r.text.length ∧
        ∃ d', deliver cfg d piece = some (d', []) ∧ Holds cfg r (taken ++ piece) d' := by
  have some' := List.length_pos_of_ne_nil nonempty
  have total := fitting.total
  have range := cfg.maxRange
  have fits := part.length_le
  rw [List.length_append] at fits
  have inside : taken.length + piece.length ≤ d.received.buffer.length :=
    Nat.le_trans fits holds.room
  have wrap : (taken.length + piece.length) % 2 ^ 32 = taken.length + piece.length :=
    Nat.mod_eq_of_lt (by omega)
  obtain ⟨written, stored⟩ : ∃ written,
      writeAt d.received.buffer taken.length piece = some written := ⟨_, writeAt_eq_some inside⟩
  obtain ⟨d₁, isNext⟩ : ∃ d₁ : MemcachedReqDecoder, d₁ =
      { d with received := ⟨written, taken.length + piece.length, d.received.parsedDataLen,
          taken.length + piece.length⟩ } := ⟨_, rfl⟩
  have loaded : Loaded r (taken ++ piece) d₁ := by
    subst isNext
    refine ⟨?_, ?_, ?_, ?_, holds.total, holds.line⟩
    · rw [List.length_append]
      exact (take_writeAt stored).trans (by rw [holds.part])
    · rw [List.length_append]
      exact Nat.le_trans inside (Nat.le_of_eq (length_writeAt stored).symm)
    · rw [List.length_append]
    · rw [List.length_append]
  have msg : d₁.msg = some (setReq cfg r) := by
    rw [isNext]
    exact holds.msg
  have fed : feed cfg { d with received := { d.received with buffer := written } } piece.length =
      some (processSet cfg d₁ (setReq cfg r)) := by
    rw [feed, if_neg (Nat.ne_of_gt some')]
    dsimp only [Received.add]
    rw [holds.dataLen, holds.recvedLen, wrap, isNext, holds.msg]
  have delivered : deliver cfg d piece =
      if (processSet cfg d₁ (setReq cfg r)).code < 0 ∨ (processSet cfg d₁ (setReq cfg r)).past then none
      else some ((processSet cfg d₁ (setReq cfg r)).decoder,
        (processSet cfg d₁ (setReq cfg r)).reported) := by
    rw [deliver, holds.dataLen, stored, Option.bind_some, fed, Option.bind_some]
  rw [delivered]
  rcases processSet_outcome isSet loaded msg part with ⟨whole, done⟩ | ⟨open', d', done, holds'⟩
  · rw [done]
    exact Or.inl ⟨whole, rfl⟩
  · rw [done]
    exact Or.inr ⟨open', d', rfl, holds'⟩

/-- A first piece that holds the first line. -/
theorem deliver_first {r : Request} (isSet : r = .set key flags exptime bytes noreply data sized)
    (fitting : Fitting cfg r) {rest : List UInt8} (holds : piece = r.firstLine ++ rest)
    (room : piece.length ≤ cfg.bufStartLen) (part : piece <+: r.text) :
    if noreply then deliver cfg (initial cfg) piece = none
    else
      (piece = r.text ∧
          deliver cfg (initial cfg) piece = some (initial cfg, [r.message cfg.newNoreply])) ∨
        piece.length < r.text.length ∧
          ∃ d', deliver cfg (initial cfg) piece = some (d', []) ∧ Holds cfg r piece d' := by
  have range := cfg.startRange
  obtain ⟨block, stored, taken, size⟩ := stored_first cfg room
  have fed := feed_line cfg taken holds (by omega)
  have isLine : (⟨block, piece.length, 0, piece.length⟩ : Received).buffer.take
      r.firstLine.length = r.firstLine := take_line taken holds
  have line := processFirstLine_set isSet fitting isLine
  cases noreply with
  | true =>
      obtain ⟨d, failed⟩ := line
      show deliver cfg (initial cfg) piece = none
      rw [deliver, stored, Option.bind_some, fed, failed]
      rfl
  | false =>
      have loaded : Loaded r piece ⟨⟨block, piece.length, 0, piece.length⟩, r.text.length,
          r.firstLine.length, some (setReq cfg r)⟩ :=
        ⟨taken, Nat.le_trans room (Nat.le_of_eq size.symm), rfl, rfl, rfl, rfl⟩
      have kept : some (setReq cfg r) = some (setReq cfg r) := rfl
      show _ ∨ _
      rw [deliver, stored, Option.bind_some, fed]
      rcases processSet_outcome isSet loaded kept part with
        ⟨whole, done⟩ | ⟨open', d', done, holds'⟩
      · refine Or.inl ⟨whole, ?_⟩
        rw [show processFirstLine cfg _ = _ from line, done]
        rfl
      · refine Or.inr ⟨open', d', ?_, holds'⟩
        rw [show processFirstLine cfg _ = _ from line, done]
        rfl

/-- One exchange that ends the request is the last one. -/
theorem feedAll_last {rest : List (List UInt8)} {msg : MemcachedReq}
    (within : (decoder cfg).Within d (piece :: rest))
    (done : deliver cfg d piece = some (initial cfg, [msg])) (nothing : rest.flatten = []) :
    (decoder cfg).feedAll d (piece :: rest) = some (initial cfg, [msg]) := by
  obtain rfl := (within.tail done).eq_nil_of_flatten nothing
  rw [Decoder.feedAll_cons _ _ done]
  rfl

/-- The rest of a request. -/
theorem feedAll_data {r : Request} (isSet : r = .set key flags exptime bytes noreply data sized)
    (fitting : Fitting cfg r) {pieces : List (List UInt8)} (holds : Holds cfg r taken d)
    (stream : taken ++ pieces.flatten = r.text) (open' : taken.length < r.text.length)
    (within : (decoder cfg).Within d pieces) :
    (decoder cfg).feedAll d pieces = some (initial cfg, [r.message cfg.newNoreply]) := by
  induction pieces generalizing taken d with
  | nil =>
      rw [List.flatten_nil, List.append_nil] at stream
      rw [stream] at open'
      exact absurd open' (Nat.lt_irrefl _)
  | cons piece rest ih =>
      rw [List.flatten_cons, ← List.append_assoc] at stream
      rcases deliver_data isSet fitting holds within.1.1 ⟨_, stream⟩ with
        ⟨whole, done⟩ | ⟨more, d', done, holds'⟩
      · have nothing : rest.flatten = [] := by
          rw [whole] at stream
          exact List.append_cancel_left (stream.trans (List.append_nil _).symm)
        exact feedAll_last within done nothing
      · rw [Decoder.feedAll_cons _ _ done, ih holds' stream more (within.tail done)]
        rfl

end Set

/-! ## Whole requests -/

section Requests

variable {cfg} {r : Request} {pieces : List (List UInt8)}

variable {piece : List UInt8} {rest : List (List UInt8)}

/-- A first piece that ends inside the first line. -/
theorem feedAll_short (fitting : Fitting cfg r) (stream : (piece :: rest).flatten = r.text)
    (within : (decoder cfg).Within (initial cfg) (piece :: rest))
    (short : piece.length < r.firstLine.length) :
    (decoder cfg).feedAll (initial cfg) (piece :: rest) = none :=
  Decoder.feedAll_cons_none (deliver_short fitting within.1.1 ⟨rest.flatten, stream⟩ short)

/-- A `get` request whose first piece holds the first line. -/
theorem feedAll_get {key : { word // IsWord word }} (isGet : r = .get key)
    (fitting : Fitting cfg r) (stream : (piece :: rest).flatten = r.text)
    (within : (decoder cfg).Within (initial cfg) (piece :: rest))
    (long : r.firstLine.length ≤ piece.length) :
    (decoder cfg).feedAll (initial cfg) (piece :: rest) =
      some (initial cfg, [r.message false]) := by
  have text : r.text = r.firstLine := by
    rw [Request.text, isGet]
    exact List.append_nil _
  rw [List.flatten_cons, text] at stream
  have whole : piece = r.firstLine :=
    List.IsPrefix.eq_of_length_le ⟨rest.flatten, stream⟩ long
  refine feedAll_last within ?_ ?_
  · rw [whole, isGet]
    exact deliver_get (isGet ▸ fitting)
  · rw [whole] at stream
    exact List.append_cancel_left (stream.trans (List.append_nil _).symm)

/-- A `set` request whose first piece holds the first line. -/
theorem feedAll_set {key : { word // IsWord word }} {flags : Number (2 ^ 31)}
    {exptime bytes : Number (2 ^ 32)} {noreply : Bool} {data : List UInt8}
    {sized : digitsValue 10 bytes.digits = data.length}
    (isSet : r = .set key flags exptime bytes noreply data sized)
    (fitting : Fitting cfg r) (stream : (piece :: rest).flatten = r.text)
    (within : (decoder cfg).Within (initial cfg) (piece :: rest))
    (long : r.firstLine.length ≤ piece.length) :
    (decoder cfg).feedAll (initial cfg) (piece :: rest) =
      if noreply then none else some (initial cfg, [r.message cfg.newNoreply]) := by
  have part : piece <+: r.text := ⟨rest.flatten, stream⟩
  have room : piece.length ≤ cfg.bufStartLen := by
    refine Nat.le_trans (within.1.2 _ rfl) (Nat.le_trans (Nat.sub_le _ _) ?_)
    exact Nat.le_of_eq (length_malloc _ _)
  obtain ⟨block, holds⟩ : r.firstLine <+: piece :=
    List.prefix_of_prefix_length_le (List.prefix_append _ _) part long
  have first := deliver_first isSet fitting holds.symm room part
  cases noreply with
  | true => exact Decoder.feedAll_cons_none (show (decoder cfg).deliver _ _ = none from first)
  | false =>
      show _ = some _
      rcases first with ⟨whole, done⟩ | ⟨more, d', done, holds'⟩
      · refine feedAll_last within done ?_
        rw [List.flatten_cons, whole] at stream
        exact List.append_cancel_left (stream.trans (List.append_nil _).symm)
      · rw [Decoder.feedAll_cons _ _ done,
          feedAll_data isSet fitting holds' stream more (within.tail done)]
        rfl

/-- The flag of a reported `set` is part of the message. -/
theorem Request.message_inj {a b : Bool} (isSet : r.isSet) (same : r.message a = r.message b) :
    a = b := by
  cases r with
  | get key => cases isSet
  | set key flags exptime bytes noreply data sized =>
      exact congrArg MemcachedSetReq.noreply (MemcachedReq.set.inj same).1

/-- The cuts behind a first piece that holds the first line. -/
theorem le_cuts (long : r.firstLine.length ≤ piece.length) (rest : List (List UInt8)) :
    ∀ k ∈ cutsFrom 0 (piece :: rest), r.firstLine.length ≤ k := by
  intro k member
  rcases List.mem_cons.mp member with rfl | later
  · rwa [Nat.zero_add]
  · have base := le_of_mem_cutsFrom later
    rw [Nat.zero_add] at base
    exact Nat.le_trans long base

/-- A request is decoded from its pieces just when the first piece holds the first line, the request
wants a reply and the flag of the new request happens to say so. -/
theorem decodes_iff_clear (fitting : Fitting cfg r) (stream : pieces.flatten = r.text)
    (within : (decoder cfg).Within (initial cfg) pieces) :
    Decodes cfg r pieces ↔ Clear cfg r pieces := by
  cases pieces with
  | nil =>
      have empty := congrArg List.length stream
      rw [List.flatten_nil, Request.text, List.length_append, r.length_firstLine,
        List.length_nil] at empty
      omega
  | cons piece rest =>
      rcases Nat.lt_or_ge piece.length r.firstLine.length with short | long
      · rw [Decodes, feedAll_short fitting stream within short]
        constructor
        · intro decodes
          cases decodes
        · intro clear
          have cut := clear.cuts (0 + piece.length) List.mem_cons_self
          omega
      · have cuts := le_cuts long rest
        cases isReq : r with
        | get key =>
            rw [← isReq, Decodes, feedAll_get isReq fitting stream within long]
            have noreply : r.noreply = false := isReq ▸ rfl
            rw [noreply]
            refine ⟨fun _ => ⟨cuts, noreply, fun isSet => ?_⟩, fun _ => rfl⟩
            rw [isReq] at isSet
            cases isSet
        | set key flags exptime bytes noreply data sized =>
            rw [← isReq, Decodes, feedAll_set isReq fitting stream within long]
            have isSet : r.isSet := isReq ▸ rfl
            have asked : r.noreply = noreply := isReq ▸ rfl
            cases noreply with
            | true =>
                constructor
                · intro decodes
                  cases decodes
                · intro clear
                  have quiet := clear.noreply
                  rw [asked] at quiet
                  cases quiet
            | false =>
                rw [asked]
                constructor
                · intro same
                  have messages := (Prod.mk.inj (Option.some.inj same)).2
                  exact ⟨cuts, asked, fun _ =>
                    Request.message_inj isSet (List.cons.inj messages).1⟩
                · intro clear
                  rw [clear.unset isSet]
                  rfl

/-! ## Examples -/

/-- Buffers of 64 bytes that start with zeros. -/
def smallConfig : Config :=
  { bufStartLen := 64, bufMaxLen := 64, junk := fun _ => 0, startRange := small_range,
    maxRange := small_range, newNoreply := false }

/-- The request `get k`. -/
def getK : Request := .get ⟨[107], by unfold IsWord; decide +kernel⟩

theorem zero_ne_nil : ([48] : List UInt8) ≠ [] := by decide

/-- The request `set k 0 0 1` with the value `v`. -/
def setK (noreply : Bool) : Request :=
  .set ⟨[107], by unfold IsWord; decide +kernel⟩
    ⟨[48], zero_ne_nil, by unfold AreDigits; decide +kernel, by decide⟩
    ⟨[48], zero_ne_nil, by unfold AreDigits; decide +kernel, by decide⟩
    ⟨[49], by decide, by unfold AreDigits; decide +kernel, by decide⟩ noreply [118] (by decide)

/-- The value of a `set` request comes in two pieces. -/
theorem decodes_iff_clear_setK :
    Decodes smallConfig (setK false)
      [(setK false).firstLine ++ [118], crlf] :=
  (decodes_iff_clear ⟨by decide, by decide⟩ (by decide) (by decide)).mpr
    ⟨by decide, rfl, fun _ => rfl⟩

/-- A cut inside the first line, a `set` that wants no reply, and a flag that nobody set. -/
theorem requests_not_decoded :
    (Fitting smallConfig getK ∧ [[103, 101, 116, 32, 107, 13], [10]].flatten = getK.text ∧
        (decoder smallConfig).Within (initial smallConfig) [[103, 101, 116, 32, 107, 13], [10]] ∧
        ¬ Decodes smallConfig getK [[103, 101, 116, 32, 107, 13], [10]]) ∧
      (Fitting smallConfig (setK true) ∧
        (decoder smallConfig).Within (initial smallConfig) [(setK true).text] ∧
        ¬ Decodes smallConfig (setK true) [(setK true).text]) ∧
      Fitting { smallConfig with newNoreply := true } (setK false) ∧
        ¬ Decodes { smallConfig with newNoreply := true } (setK false) [(setK false).text] := by
  refine ⟨⟨⟨by decide, by decide⟩, by decide, by decide, ?_⟩,
    ⟨⟨by decide, by decide⟩, by decide, ?_⟩, ⟨by decide, by decide⟩, ?_⟩
  · unfold Decodes
    decide
  · unfold Decodes
    decide
  · unfold Decodes
    decide

end Requests

end MlsImgSearch.Blitz2.MemcachedReq
