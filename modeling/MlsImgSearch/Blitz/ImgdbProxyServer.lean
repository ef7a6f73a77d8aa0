import Mathlib.Data.List.Forall2
import MlsImgSearch.Blitz.MemcachedServerMsg
import MlsImgSearch.Lib.Int32
import MlsImgSearch.Lib.Strings

/-!
# The image proxy

A message is split at its blanks in place. The data of `set` is taken from behind the first
line, over the number of bytes that the line announces.
-/

namespace MlsImgSearch.Blitz.ImgdbProxyServer

open Lib.Strings Lib.Int32

def blank : UInt8 := 32

def cr : UInt8 := 13

def lf : UInt8 := 10

def crlf : List UInt8 := [cr, lf]

def ascii (text : String) : List UInt8 := text.toList.map fun c => c.toNat.toUInt8

def MAX_TOKENS : Nat := 8

def COMMAND_TOKEN : Nat := 0

def KEY_TOKEN : Nat := 1

def KEY_MAX_LENGTH : Nat := 250

def HEAD_MAX_LENGTH : Nat := 200

/-! ## Memory -/

/-- Why a function has no result: it left its memory or read what was never set, or it threw. -/
inductive Fault where
  | outside
  | thrown
  deriving DecidableEq

/-- What a token points to: the message, another block, nothing, or what was there before. -/
inductive Value where
  | inside (offset : Nat)
  | copy (bytes : List UInt8)
  | null
  | unset
  deriving DecidableEq

structure Token where
  value : Value
  length : Nat
  deriving DecidableEq

/-- The message with a zero at its end, the tokens that are filled, and the pointers `s` and `e`. -/
structure Scan where
  command : List UInt8
  tokens : List Token
  s : Nat
  e : Nat
  deriving DecidableEq

namespace Scan

variable (scan : Scan)

def read (at' : Nat) : Except Fault UInt8 :=
  (scan.command[at']?).elim (.error .outside) .ok

/-- A zero at `e`. -/
def terminate : Except Fault Scan :=
  if scan.e < scan.command.length then .ok { scan with command := scan.command.set scan.e 0 }
  else .error .outside

/-- `tokens[ntokens]` is filled and `ntokens` grows. -/
def push (maxTokens : Nat) (token : Token) : Except Fault Scan :=
  if scan.tokens.length < maxTokens then .ok { scan with tokens := scan.tokens ++ [token] }
  else .error .outside

/-- The bytes from `s` to `e`. -/
def word : Token := ⟨.inside scan.s, scan.e - scan.s⟩

/-- The word becomes a token, and a zero ends it. -/
def endWord (maxTokens : Nat) : Except Fault Scan := do
  let scan ← scan.push maxTokens scan.word
  scan.terminate

/-- Whether the byte `c` at `e` begins CRLF. -/
def atCrlf (c : UInt8) : Except Fault Bool := do
  if c = cr then
    let next ← scan.read (scan.e + 1)
    pure (next == lf)
  else pure false

end Scan

/-- The bytes from a position to the next zero. -/
def cStringAt (command : List UInt8) (offset : Nat) : Except Fault (List UInt8) :=
  if 0 ∈ command.drop offset then .ok ((command.drop offset).takeWhile (· ≠ 0))
  else .error .outside

/-- The string of the token with this index. -/
def tokenString (command : List UInt8) (tokens : List Token) (index : Nat) :
    Except Fault (List UInt8) :=
  match tokens[index]? with
  | some ⟨.inside offset, _⟩ => cStringAt command offset
  | _ => .error .outside

def castText (text : List UInt8) : Option Int :=
  lexicalCastInt (text.map fun c => Char.ofNat c.toNat)

/-- `boost::lexical_cast<int>` of a string. -/
def lexicalCast (text : List UInt8) : Except Fault Int := (castText text).elim (.error .thrown) .ok

/-! ## Tokens -/

/-- The loop over the first line; `left` bytes follow from `e` on. -/
def tokenizeLoop (maxTokens : Nat) : Nat → Scan → Except Fault Scan
  | left, scan =>
      if scan.tokens.length < maxTokens - 1 then
        match left with
        | 0 => .error .outside
        | left + 1 => do
            let c ← scan.read scan.e
            if c = blank then
              if scan.s ≠ scan.e then
                let scan ← scan.endWord maxTokens
                tokenizeLoop maxTokens left { scan with s := scan.e + 1, e := scan.e + 1 }
              else tokenizeLoop maxTokens left { scan with s := scan.e + 1, e := scan.e + 1 }
            else
              let isCrlf ← scan.atCrlf c
              if isCrlf then
                let scan ← scan.endWord maxTokens
                pure { scan with s := scan.e + 2, e := scan.e + 2 }
              else if c = 0 then
                if scan.s ≠ scan.e then scan.push maxTokens scan.word else pure scan
              else tokenizeLoop maxTokens left { scan with e := scan.e + 1 }
      else pure scan

/-- What `uncompress` returns. -/
inductive Uncompressed where
  | ok (result : List UInt8)
  | bufError
  | failed
  deriving DecidableEq

section Tokenize

variable (uncompress : List UInt8 → Nat → Uncompressed)

/-- The loop of `mmc_uncompress`: the result may be twice as long at each try. -/
def mmcUncompress (data : List UInt8) : Nat → Nat → Option (List UInt8)
  | 0, _ => none
  | tries + 1, factor =>
      match uncompress data (data.length * 2 ^ factor) with
      | .ok result => some result
      | .bufError => mmcUncompress data tries (factor + 1)
      | .failed => none

/-- The token for the data. A result that was not uncompressed is freed and copied from all the
same. -/
def dataToken (scan : Scan) (flag : Int) (dataLen : Nat) : Except Fault Token :=
  if flag = 0 then .ok ⟨.inside scan.s, dataLen⟩
  else if flag = 2 then
    if scan.s + dataLen ≤ scan.command.length then
      (mmcUncompress uncompress ((scan.command.drop scan.s).take dataLen) 15 1).elim
        (.error .outside) fun result => .ok ⟨.copy result, result.length⟩
    else .error .outside
  else .ok ⟨.unset, 0⟩

/-- A token for the announced data, and the zeros behind them. -/
def takeData (maxTokens : Nat) (scan : Scan) (announced flag : Int) : Except Fault Scan := do
  let token ← dataToken uncompress scan flag (sizeT announced)
  let scan ← scan.push maxTokens token
  if sizeT announced < 2 ^ 31 then
    let scan ← { scan with e := scan.e + sizeT announced }.terminate
    { scan with e := scan.e + 1 }.terminate
  else .error .thrown

/-- What is done for `set`. -/
def tokenizeData (maxTokens : Nat) (scan : Scan) : Except Fault Scan := do
  let announced ← tokenString scan.command scan.tokens 4 >>= lexicalCast
  let flag ← tokenString scan.command scan.tokens 2 >>= lexicalCast
  takeData uncompress maxTokens scan announced flag

/-- The last token points to what is left. -/
def tokenizeRest (maxTokens : Nat) (scan : Scan) : Except Fault Scan := do
  let c ← scan.read scan.e
  scan.push maxTokens ⟨if c = 0 then .null else .inside scan.e, 0⟩

def tokenizeCommand (maxTokens : Nat) (message : List UInt8) : Except Fault Scan := do
  let scan ← tokenizeLoop maxTokens (message.length + 1) ⟨message ++ [0], [], 0, 0⟩
  let command ← tokenString scan.command scan.tokens COMMAND_TOKEN
  (if command = ascii "set" then tokenizeData uncompress maxTokens scan else .ok scan) >>=
    tokenizeRest maxTokens

end Tokenize

/-! ## Commands -/

inductive Event where
  | got (key : List UInt8)
  | set (key data : List UInt8)
  | sent (bytes : List UInt8)
  | closed
  deriving DecidableEq

/-- The processor, the library that uncompresses, and what sending returns. -/
structure Server where
  get : List UInt8 → Option (List UInt8)
  set : List UInt8 → List UInt8 → Int
  uncompress : List UInt8 → Nat → Uncompressed
  sendMsg : List UInt8 → Int

section Commands

variable (server : Server)

def echoString (str : List UInt8) : Int × List Event :=
  let line := if HEAD_MAX_LENGTH < str.length + 2 then ascii "SERVER_ERROR output line too long"
    else str
  (server.sendMsg (line ++ crlf), [.sent (line ++ crlf)])

/-- The head is printed into `KEY_MAX_LENGTH` bytes. -/
def echoData (data key : List UInt8) : Except Fault (Int × List Event) :=
  if KEY_MAX_LENGTH < key.length + 2 then
    .ok (echoString server (ascii "SERVER_ERROR out of memory preparing response"))
  else if data = [] then
    .ok (echoString server (ascii "SERVER_ERROR out of memory preparing response"))
  else
    let head := ascii "VALUE " ++ key ++ ascii " 0 " ++ decimal data.length ++ crlf
    if KEY_MAX_LENGTH < head.length + 1 then .error .outside
    else
      let reply := head ++ data ++ crlf ++ ascii "END" ++ crlf
      .ok (server.sendMsg reply, [.sent reply])

/-- Erases the first end of line. -/
def parseRequest : List UInt8 → List UInt8
  | [] => []
  | c :: rest =>
      if c = cr ∧ rest.head? = some lf then rest.tail else c :: parseRequest rest

/-- The bytes of a token that is passed on with its length. -/
def tokenData (command : List UInt8) (tokens : List Token) (index : Nat) :
    Except Fault (List UInt8) :=
  match tokens[index]? with
  | some ⟨.inside offset, length⟩ =>
      if offset + length ≤ command.length then .ok ((command.drop offset).take length)
      else .error .outside
  | some ⟨.copy bytes, _⟩ => .ok bytes
  | some ⟨.null, 0⟩ => .ok []
  | _ => .error .outside

/-- The key of a request and what is done with it, when it is not missing or too long. -/
def withKey (scan : Scan) (missing : List UInt8)
    (next : List UInt8 → Except Fault (Int × List Event)) : Except Fault (Int × List Event) :=
  match scan.tokens[KEY_TOKEN]? with
  | none => .ok (0, [])
  | some ⟨.null, _⟩ => .ok (echoString server missing)
  | some ⟨_, length⟩ =>
      if length = 0 then .ok (echoString server missing)
      else do
        let request ← tokenString scan.command scan.tokens KEY_TOKEN
        if KEY_MAX_LENGTH < length then
          .ok (echoString server (ascii "CLIENT_ERROR bad command line format"))
        else next (parseRequest request)

def processGetCommand (scan : Scan) : Except Fault (Int × List Event) :=
  withKey server scan (ascii "END") fun key =>
    match server.get key with
    | none =>
        let (ret, events) := echoString server (ascii "END")
        .ok (ret, .got key :: events)
    | some data => do
        let (ret, events) ← echoData server data key
        .ok (ret, .got key :: events)

def processSetCommand (scan : Scan) : Except Fault (Int × List Event) :=
  withKey server scan (ascii "ERROR") fun key => do
    let data ← tokenData scan.command scan.tokens 5
    let (ret, events) := echoString server
      (ascii (if server.set key data = 0 then "STORED" else "SERVER_ERROR"))
    .ok (ret, .set key data :: events)

def processCommand (command : List UInt8) : Except Fault (Int × List Event) := do
  let scan ← tokenizeCommand server.uncompress MAX_TOKENS command
  if scan.tokens.length < 3 then
    .ok (echoString server (ascii "CLIENT_ERROR bad command line format"))
  else
    let command ← tokenString scan.command scan.tokens COMMAND_TOKEN
    if command = ascii "get" then processGetCommand server scan
    else if command = ascii "set" then processSetCommand server scan
    else .ok (echoString server (ascii "CLIENT_ERROR bad command line format"))

/-- The connection is closed after a failure. -/
def realProcessMsg (message : List UInt8) : Except Fault (List Event) := do
  let (ret, events) ← processCommand server message
  .ok (events ++ if ret = 0 then [] else [.closed])

/-- Messages are processed one after the other. -/
def processAll : List (List UInt8) → Except Fault (List Event)
  | [] => .ok []
  | message :: rest => do
      let events ← realProcessMsg server message
      let later ← processAll rest
      .ok (events ++ later)

end Commands

/-! ## The first line -/

/-- The words of a line, when `word` stands before the bytes. The line ends with CRLF, with a zero or
with the message; the word before CRLF may be empty. -/
def fields : List UInt8 → List UInt8 → List (List UInt8)
  | word, [] => if word = [] then [] else [word]
  | word, c :: rest =>
      if c = blank then (if word = [] then [] else [word]) ++ fields [] rest
      else if c = cr ∧ rest.head? = some lf then [word]
      else if c = 0 then if word = [] then [] else [word]
      else fields (word ++ [c]) rest

/-- What follows the line. A zero that ends it is left. -/
def lineEnd : List UInt8 → List UInt8
  | [] => []
  | c :: rest =>
      if c = cr ∧ rest.head? = some lf then rest.tail
      else if c = 0 then c :: rest
      else lineEnd rest

/-- Where the data begins: behind CRLF, or else at the last word. -/
def dataStart : List UInt8 → List UInt8 → List UInt8
  | word, [] => word
  | word, c :: rest =>
      if c = blank then dataStart [] rest
      else if c = cr ∧ rest.head? = some lf then rest.tail
      else if c = 0 then word ++ c :: rest
      else dataStart (word ++ [c]) rest

/-! ## The loop -/

section Results

variable {α β : Type}

theorem ok_bind (x : α) (next : α → Except Fault β) : (Except.ok x >>= next) = next x := rfl

end Results

section Loop

variable {command word rest : List UInt8} {words : List (List UInt8)} {tokens : List Token}
  {token : Token} {scan : Scan} {limit i maxTokens : Nat}

/-- A token for a word that a zero ends, before a position. -/
structure IsToken (limit : Nat) (command : List UInt8) (token : Token) (word : List UInt8) : Prop where
  noZero : 0 ∉ word
  place : ∃ before after, command = before ++ word ++ 0 :: after ∧
    token = ⟨.inside before.length, word.length⟩ ∧ before.length + word.length ≤ limit

theorem IsToken.mono (isToken : IsToken limit command token word) (le : limit ≤ i) :
    IsToken i command token word := by
  obtain ⟨noZero, before, after, isCommand, isToken, bound⟩ := isToken
  exact ⟨noZero, before, after, isCommand, isToken, Nat.le_trans bound le⟩

/-- A zero that is written behind a token leaves it. -/
theorem IsToken.set (isToken : IsToken limit command token word) (le : limit ≤ i) :
    IsToken limit (command.set i 0) token word := by
  obtain ⟨noZero, before, after, rfl, isToken, bound⟩ := isToken
  refine ⟨noZero, before, ((0 :: after).set (i - (before ++ word).length) 0).tail, ?_, isToken, bound⟩
  rw [List.set_append_right _ _ (by rw [List.length_append]; omega)]
  cases i - (before ++ word).length <;> rfl

/-- The string of a token is its word. -/
theorem IsToken.cStringAt (isToken : IsToken limit command token word) :
    ∃ offset, token = ⟨.inside offset, word.length⟩ ∧ cStringAt command offset = .ok word := by
  obtain ⟨noZero, before, after, rfl, rfl, -⟩ := isToken
  refine ⟨before.length, rfl, ?_⟩
  have behind : (before ++ word ++ 0 :: after).drop before.length = word ++ 0 :: after := by
    rw [List.append_assoc, List.drop_left]
  have whole : (word ++ 0 :: after).takeWhile (· ≠ 0) = word := by
    rw [List.takeWhile_append_of_pos fun c member => decide_eq_true (ne_of_mem_of_not_mem member noZero)]
    simp
  rw [ImgdbProxyServer.cStringAt, behind, if_pos (by simp), whole]

theorem tokenString_eq (areTokens : List.Forall₂ (IsToken limit command) tokens words) (i : Nat) :
    tokenString command tokens i = (words[i]?).elim (.error .outside) .ok := by
  induction areTokens generalizing i with
  | nil => rfl
  | cons isToken later ih =>
      cases i with
      | zero =>
          obtain ⟨offset, rfl, isString⟩ := isToken.cStringAt
          exact isString
      | succ i => exact ih i

/-- The loop stands behind `word`, with tokens for the words before it, and `rest` follows. -/
structure Ready (scan : Scan) (word rest : List UInt8) (words : List (List UInt8)) : Prop where
  noZero : 0 ∉ word
  bytes : scan.command.drop scan.s = word ++ rest ++ [0]
  place : scan.e = scan.s + word.length
  tokens : List.Forall₂ (IsToken scan.s scan.command) scan.tokens words

/-- The loop has ended with as many of the words as there is room for. If there is room for all, it
stands at the end of the line. -/
structure Ended (maxTokens length : Nat) (scan : Scan) (words : List (List UInt8))
    (lineEnd dataStart : List UInt8) : Prop where
  tokens : List.Forall₂ (IsToken scan.e scan.command) scan.tokens (words.take (maxTokens - 1))
  length : scan.command.length = length
  le : scan.s ≤ scan.e
  inside : scan.e < scan.command.length
  behind : words.length < maxTokens - 1 → scan.command.drop scan.e = lineEnd ++ [0]
  start : words.length < maxTokens - 1 → scan.command.drop scan.s = dataStart ++ [0]

theorem read_eq {before after : List UInt8} {c : UInt8} {at' : Nat}
    (bytes : scan.command.drop at' = before ++ c :: after) :
    scan.read (at' + before.length) = .ok c := by
  have found : scan.command[at' + before.length]? = some c := by
    rw [← List.getElem?_drop, bytes, List.getElem?_append_right (Nat.le_refl _), Nat.sub_self]
    rfl
  rw [Scan.read, found]
  rfl

theorem isToken_word {after : List UInt8} {at' : Nat} (noZero : 0 ∉ word)
    (bytes : command.drop at' = word ++ 0 :: after) :
    IsToken (at' + word.length) command ⟨.inside at', word.length⟩ word := by
  have inside : at' ≤ command.length := by
    by_contra outside
    rw [List.drop_eq_nil_of_le (by omega)] at bytes
    exact absurd bytes.symm (by simp)
  have front : (command.take at').length = at' := by
    rw [List.length_take]
    omega
  refine ⟨noZero, command.take at', after, ?_, by rw [front], by omega⟩
  rw [List.append_assoc, ← bytes, List.take_append_drop]

theorem Ready.follows (ready : Ready scan word rest words) :
    scan.command.drop scan.e = rest ++ [0] := by
  rw [ready.place, ← List.drop_drop, ready.bytes, List.append_assoc, List.drop_left]

theorem Ready.inside (ready : Ready scan word rest words) :
    scan.e + rest.length + 1 = scan.command.length := by
  have length := congrArg List.length ready.follows
  rw [List.length_drop, List.length_append, List.length_singleton] at length
  omega

theorem Ready.read {c : UInt8} {after : List UInt8} (ready : Ready scan word rest words)
    (isNext : rest ++ [0] = c :: after) : scan.read scan.e = .ok c :=
  @read_eq scan [] after c scan.e (ready.follows.trans isNext)

/-- A zero behind the word. -/
theorem Ready.terminated {c : UInt8} (ready : Ready scan word (c :: rest) words) :
    (scan.command.set scan.e 0).drop scan.s = word ++ 0 :: (rest ++ [0]) := by
  rw [List.drop_set, if_neg (by rw [ready.place]; omega), ready.bytes, ready.place,
    Nat.add_sub_cancel_left, List.append_assoc, List.set_append_right _ _ (Nat.le_refl _),
    Nat.sub_self]
  rfl

/-- The word gets a token, and a zero behind it. -/
theorem Ready.endWord {c : UInt8} (ready : Ready scan word (c :: rest) words)
    (few : scan.tokens.length < maxTokens) :
    ∃ scan', scan.endWord maxTokens = .ok scan' ∧
      scan'.s = scan.s ∧ scan'.e = scan.e ∧ scan'.command = scan.command.set scan.e 0 ∧
      List.Forall₂ (IsToken scan.e scan'.command) scan'.tokens (words ++ [word]) := by
  have inside : scan.e < scan.command.length := by
    have total := ready.inside
    omega
  have pushed : scan.push maxTokens scan.word =
      .ok { scan with tokens := scan.tokens ++ [scan.word] } := if_pos few
  have terminated : Scan.terminate { scan with tokens := scan.tokens ++ [scan.word] } =
      .ok ⟨scan.command.set scan.e 0, scan.tokens ++ [scan.word], scan.s, scan.e⟩ := if_pos inside
  rw [Scan.endWord, pushed, ok_bind]
  refine ⟨_, terminated, rfl, rfl, rfl, ?_⟩
  have last := isToken_word ready.noZero ready.terminated
  rw [← ready.place] at last
  have length : scan.word = ⟨.inside scan.s, word.length⟩ := by
    rw [Scan.word, ready.place, Nat.add_sub_cancel_left]
  rw [length]
  have le : scan.s ≤ scan.e := by
    rw [ready.place]
    exact Nat.le_add_right _ _
  refine List.rel_append (ready.tokens.imp fun _ _ isToken => ?_) (.cons last .nil)
  exact (isToken.set le).mono le

theorem Ready.atCrlf {c : UInt8} (ready : Ready scan word (c :: rest) words) :
    scan.atCrlf c = .ok (c = cr ∧ rest.head? = some lf) := by
  unfold Scan.atCrlf
  by_cases isCr : c = cr
  · obtain ⟨next, after, isNext⟩ : ∃ next after, rest ++ [0] = next :: after :=
      List.exists_cons_of_ne_nil (by simp)
    have read : scan.read (scan.e + 1) = .ok next :=
      @read_eq scan [c] after next scan.e (by rw [ready.follows, List.cons_append, isNext]; rfl)
    have same : (next == lf) = decide (rest.head? = some lf) := by
      cases rest with
      | nil =>
          obtain rfl := (List.cons.inj isNext).1
          rfl
      | cons d rest =>
          obtain rfl := (List.cons.inj isNext).1
          simp only [List.head?_cons, Option.some.injEq]
          rfl
    rw [if_pos isCr, read, ok_bind, same]
    simp only [isCr, true_and]
    rfl
  · rw [if_neg isCr]
    simp only [isCr, false_and, decide_false]
    rfl

/-- There is no room for more. -/
theorem Ready.full (ready : Ready scan word rest words) (full : words.length = maxTokens - 1)
    (more : List (List UInt8)) (atEnd atData : List UInt8) (left : Nat) :
    tokenizeLoop maxTokens left scan = .ok scan ∧
      Ended maxTokens scan.command.length scan (words ++ more) atEnd atData := by
  have count := ready.tokens.length_eq
  have long : ¬ (words ++ more).length < maxTokens - 1 := by
    rw [List.length_append]
    omega
  have le : scan.s ≤ scan.e := by
    rw [ready.place]
    exact Nat.le_add_right _ _
  have total := ready.inside
  refine ⟨?_, ?_, rfl, le, by omega, fun few => absurd few long, fun few => absurd few long⟩
  · rw [tokenizeLoop.eq_def]
    dsimp only
    rw [if_neg (by omega)]
    rfl
  · rw [← full, List.take_left]
    exact ready.tokens.imp fun _ _ isToken => isToken.mono le

/-- A zero ends the line. -/
theorem Ready.atZero {left : Nat} {after line start : List UInt8}
    (ready : Ready scan word rest words) (isZero : rest ++ [0] = 0 :: after)
    (isLine : line ++ [0] = 0 :: after) (isStart : start = word ++ line)
    (few : words.length < maxTokens - 1) :
    ∃ scan', tokenizeLoop maxTokens (left + 1) scan = .ok scan' ∧
      Ended maxTokens scan.command.length scan'
        (words ++ if word = [] then [] else [word]) line start := by
  have count := ready.tokens.length_eq
  have bytes : scan.command.drop scan.s = word ++ 0 :: after := by
    rw [ready.bytes, List.append_assoc, isZero]
  have total := ready.inside
  have le : scan.s ≤ scan.e := by
    rw [ready.place]
    exact Nat.le_add_right _ _
  have earlier := ready.tokens.imp fun _ _ (isToken : IsToken _ _ _ _) => isToken.mono le
  have behind : scan.command.drop scan.e = line ++ [0] := by rw [ready.follows, isZero, isLine]
  have atStart : scan.command.drop scan.s = start ++ [0] := by
    rw [bytes, ← isLine, isStart, List.append_assoc]
  have isWord : scan.word = ⟨.inside scan.s, word.length⟩ := by
    rw [Scan.word, ready.place, Nat.add_sub_cancel_left]
  have noCrlf : scan.atCrlf 0 = .ok false := if_neg (by decide)
  rw [tokenizeLoop, if_pos (by omega), ready.read isZero, ok_bind, if_neg (by decide), noCrlf, ok_bind,
    if_neg Bool.false_ne_true, if_pos rfl]
  by_cases empty : word = []
  · have same : ¬ scan.s ≠ scan.e := by
      rw [ready.place, empty]
      simp
    rw [if_pos empty, List.append_nil]
    refine ⟨scan, if_neg same, ?_, rfl, le, by omega, fun _ => behind, fun _ => atStart⟩
    rw [List.take_of_length_le (by omega)]
    exact earlier
  · have other : scan.s ≠ scan.e := by
      have positive := List.length_pos_of_ne_nil empty
      have place := ready.place
      omega
    have pushed : scan.push maxTokens scan.word =
        .ok { scan with tokens := scan.tokens ++ [scan.word] } := if_pos (by omega)
    rw [if_neg empty]
    refine ⟨{ scan with tokens := scan.tokens ++ [scan.word] }, ?_, ?_, rfl, le, by dsimp only; omega,
      fun _ => behind, fun _ => atStart⟩
    · exact (if_pos other).trans pushed
    · rw [List.take_of_length_le (by rw [List.length_append, List.length_singleton]; omega), isWord]
      have last := isToken_word ready.noZero bytes
      rw [← ready.place] at last
      exact List.rel_append earlier (.cons last .nil)

theorem tokenizeLoop_spec (ready : Ready scan word rest words) (bound : words.length ≤ maxTokens - 1) :
    ∃ scan', tokenizeLoop maxTokens (rest.length + 1) scan = .ok scan' ∧
      Ended maxTokens scan.command.length scan' (words ++ fields word rest)
        (lineEnd rest) (dataStart word rest) := by
  induction rest generalizing scan word words with
  | nil =>
      by_cases full : words.length = maxTokens - 1
      · exact ⟨scan, ready.full full _ _ _ _⟩
      · exact ready.atZero rfl rfl (List.append_nil word).symm (by omega)
  | cons c rest ih =>
      by_cases full : words.length = maxTokens - 1
      · exact ⟨scan, ready.full full _ _ _ _⟩
      have count := ready.tokens.length_eq
      have few : scan.tokens.length < maxTokens - 1 := by omega
      have read := ready.read rfl
      have total := ready.inside
      rw [List.length_cons] at total
      rw [fields, lineEnd, dataStart, List.length_cons]
      by_cases isBlank : c = blank
      · have noCr : ¬ (c = cr ∧ rest.head? = some lf) := fun both =>
          absurd (isBlank.symm.trans both.1) (by decide)
        have noZero : c ≠ 0 := fun isZero => absurd (isBlank.symm.trans isZero) (by decide)
        rw [tokenizeLoop, if_pos few, read, ok_bind, if_pos isBlank, if_pos isBlank, if_neg noCr,
          if_neg noZero, if_pos isBlank]
        by_cases empty : word = []
        · have same : ¬ scan.s ≠ scan.e := by
            rw [ready.place, empty]
            simp
          have next : Ready { scan with s := scan.e + 1, e := scan.e + 1 } [] rest words := by
            refine ⟨List.not_mem_nil, ?_, rfl, ?_⟩
            · show scan.command.drop (scan.e + 1) = _
              rw [← List.drop_drop, ready.follows]
              rfl
            · exact ready.tokens.imp fun _ _ isToken => isToken.mono
                (show scan.s ≤ scan.e + 1 by rw [ready.place]; omega)
          rw [if_neg same, if_pos empty, List.nil_append]
          exact ih next bound
        · have other : scan.s ≠ scan.e := by
            have positive := List.length_pos_of_ne_nil empty
            have place := ready.place
            omega
          obtain ⟨scan', ended, isS, isE, isCommand, areTokens⟩ := ready.endWord
            (show scan.tokens.length < maxTokens by omega)
          have next : Ready { scan' with s := scan'.e + 1, e := scan'.e + 1 } [] rest
              (words ++ [word]) := by
            refine ⟨List.not_mem_nil, ?_, rfl, ?_⟩
            · show scan'.command.drop (scan'.e + 1) = _
              rw [isCommand, isE, List.drop_set, if_pos (by omega), ← List.drop_drop, ready.follows]
              rfl
            · rw [← isE] at areTokens
              exact areTokens.imp fun _ _ isToken => isToken.mono (Nat.le_succ _)
          have length : scan'.command.length = scan.command.length := by
            rw [isCommand, List.length_set]
          rw [if_pos other, ended, ok_bind, if_neg empty, ← List.append_assoc, ← length]
          exact ih next (by rw [List.length_append, List.length_singleton]; omega)
      · rw [if_neg isBlank, if_neg isBlank]
        by_cases isCrlf : c = cr ∧ rest.head? = some lf
        · obtain ⟨scan', ended, isS, isE, isCommand, areTokens⟩ := ready.endWord
            (show scan.tokens.length < maxTokens by omega)
          obtain ⟨rest, rfl⟩ : ∃ tail, rest = lf :: tail := by
            cases rest with
            | nil => cases isCrlf.2
            | cons d tail => exact ⟨tail, congrArg (· :: tail) (Option.some.inj isCrlf.2)⟩
          have length : scan'.command.length = scan.command.length := by
            rw [isCommand, List.length_set]
          rw [List.length_cons] at total
          rw [tokenizeLoop, if_pos few, read, ok_bind, if_neg isBlank, ready.atCrlf, ok_bind,
            if_pos (decide_eq_true isCrlf), ended, ok_bind, if_pos isCrlf, if_pos isCrlf,
            if_pos isCrlf]
          have behind : scan'.command.drop (scan'.e + 2) = (lf :: rest).tail ++ [0] := by
            rw [isCommand, isE, List.drop_set, if_pos (by omega), ← List.drop_drop, ready.follows]
            rfl
          refine ⟨_, rfl, ?_, length, Nat.le_refl _, ?_, fun _ => behind, fun _ => behind⟩
          · rw [List.take_of_length_le (by rw [List.length_append, List.length_singleton]; omega)]
            rw [← isE] at areTokens
            exact areTokens.imp fun _ _ isToken => isToken.mono (Nat.le_add_right _ _)
          · show scan'.e + 2 < scan'.command.length
            omega
        · rw [if_neg isCrlf, if_neg isCrlf, if_neg isCrlf]
          by_cases isZero : c = 0
          · subst isZero
            rw [if_pos rfl, if_pos rfl, if_pos rfl]
            exact ready.atZero rfl rfl rfl (by omega)
          · have next : Ready { scan with e := scan.e + 1 } (word ++ [c]) rest words := by
              refine ⟨?_, ?_, ?_, ready.tokens⟩
              · rw [List.mem_append, List.mem_singleton, not_or]
                exact ⟨ready.noZero, Ne.symm isZero⟩
              · show scan.command.drop scan.s = _
                rw [ready.bytes, List.append_assoc word [c] rest]
                rfl
              · show scan.e + 1 = _
                rw [List.length_append, List.length_singleton, ready.place, Nat.add_assoc]
            rw [tokenizeLoop, if_pos few, read, ok_bind, if_neg isBlank, ready.atCrlf, ok_bind,
              if_neg (by rw [decide_eq_true_eq]; exact isCrlf), if_neg isZero, if_neg isZero,
              if_neg isZero, if_neg isZero]
            exact ih next bound

end Loop

/-! ## Staying inside -/

/-- Neither the message nor the tokens are left, and nothing is read that was not set. -/
def Inside (uncompress : List UInt8 → Nat → Uncompressed) (maxTokens : Nat) (message : List UInt8) :
    Prop :=
  tokenizeCommand uncompress maxTokens message ≠ .error .outside

/-- What the words of `set` need: the numbers, and room for the data that they announce, with one byte
more. -/
def SetFits (uncompress : List UInt8 → Nat → Uncompressed) (maxTokens : Nat) (message : List UInt8)
    (words : List (List UInt8)) : Prop :=
  5 ≤ words.length ∧ ∀ announced flag : Int,
    words[4]?.bind castText = some announced → words[2]?.bind castText = some flag →
      if announced < 0 then flag ≠ 2
      else words.length + 2 ≤ maxTokens ∧ announced < (lineEnd message).length ∧
        (flag = 2 → mmcUncompress uncompress
          ((dataStart [] message ++ [0]).take announced.toNat) 15 1 ≠ none)

/-- The first line has a word, and what follows fits if that word is `set`. -/
def Tokenizable (uncompress : List UInt8 → Nat → Uncompressed) (maxTokens : Nat)
    (message : List UInt8) : Prop :=
  let words := (fields [] message).take (maxTokens - 1)
  words ≠ [] ∧ (words.head? = some (ascii "set") → SetFits uncompress maxTokens message words)

section Inside

variable {uncompress : List UInt8 → Nat → Uncompressed} {maxTokens : Nat} {scan : Scan}
  {announced flag : Int}

theorem castText_range {text : List UInt8} {n : Int} (cast : castText text = some n) :
    -2 ^ 31 ≤ n ∧ n < 2 ^ 31 := by
  have digits : ∀ negative digits, castDigits negative digits = some n →
      -2 ^ 31 ≤ n ∧ n < 2 ^ 31 := by
    intro negative digits found
    obtain ⟨-, found⟩ := Option.ite_none_right_eq_some.mp found
    obtain ⟨range, found⟩ := Option.ite_none_right_eq_some.mp found
    rwa [← Option.some.inj found]
  unfold castText lexicalCastInt at cast
  split at cast <;> exact digits _ _ cast

theorem sizeT_of_nonneg {n : Nat} (isNat : announced = n) (range : announced < 2 ^ 31) :
    sizeT announced = n := by
  rw [isNat]
  exact sizeT_small (by omega)

theorem tokenizeRest_inside (inside : scan.e < scan.command.length) :
    tokenizeRest maxTokens scan ≠ .error .outside ↔ scan.tokens.length < maxTokens := by
  have read : scan.read scan.e = .ok scan.command[scan.e] := by
    rw [Scan.read, List.getElem?_eq_getElem inside]
    rfl
  rw [tokenizeRest, read, ok_bind, Scan.push]
  split
  · rename_i room
    exact iff_of_true nofun room
  · rename_i full
    exact iff_of_false (fun other => other rfl) full

/-- A negative number throws behind the token. -/
theorem takeData_negative (room : scan.tokens.length < maxTokens) (negative : announced < 0)
    (range : -2 ^ 31 ≤ announced) (length : scan.command.length ≤ 2 ^ 32) :
    (takeData uncompress maxTokens scan announced flag >>= tokenizeRest maxTokens) ≠
      .error .outside ↔ flag ≠ 2 := by
  have huge : 2 ^ 32 < sizeT announced := by
    rw [sizeT]
    omega
  have thrown : ∀ token, dataToken uncompress scan flag (sizeT announced) = .ok token →
      takeData uncompress maxTokens scan announced flag = .error .thrown := by
    intro token isToken
    have pushed : scan.push maxTokens token =
        .ok { scan with tokens := scan.tokens ++ [token] } := if_pos room
    rw [takeData, isToken, ok_bind, pushed, ok_bind, if_neg (by omega)]
  by_cases compressed : flag = 2
  · have outside : dataToken uncompress scan flag (sizeT announced) = .error .outside := by
      rw [dataToken, if_neg (by omega), if_pos compressed, if_neg (by omega)]
    rw [takeData, outside]
    exact iff_of_false (fun other => other rfl) (fun other => other compressed)
  · have isThrown : takeData uncompress maxTokens scan announced flag = .error .thrown := by
      by_cases plain : flag = 0
      · exact thrown _ (if_pos plain)
      · exact thrown _ ((if_neg plain).trans (if_neg compressed))
    rw [isThrown]
    exact iff_of_true (fun same => absurd (Except.error.inj same) (by decide)) compressed

/-- Two zeros are written behind the data. -/
theorem takeData_eq {token : Token} {n : Nat} (room : scan.tokens.length < maxTokens)
    (isNat : announced = n) (range : announced < 2 ^ 31)
    (isToken : dataToken uncompress scan flag n = .ok token) :
    takeData uncompress maxTokens scan announced flag =
      if scan.e + n + 1 < scan.command.length then
        .ok ⟨(scan.command.set (scan.e + n) 0).set (scan.e + n + 1) 0, scan.tokens ++ [token], scan.s,
          scan.e + n + 1⟩
      else .error .outside := by
  have isSize := sizeT_of_nonneg isNat range
  have pushed : scan.push maxTokens token =
      .ok { scan with tokens := scan.tokens ++ [token] } := if_pos room
  rw [takeData, isSize, isToken, ok_bind, pushed, ok_bind, if_pos (by omega)]
  by_cases first : scan.e + n < scan.command.length
  · have terminated : Scan.terminate ⟨scan.command, scan.tokens ++ [token], scan.s, scan.e + n⟩ =
        .ok ⟨scan.command.set (scan.e + n) 0, scan.tokens ++ [token], scan.s, scan.e + n⟩ :=
      if_pos first
    rw [terminated, ok_bind, Scan.terminate, List.length_set]
  · have outside : Scan.terminate ⟨scan.command, scan.tokens ++ [token], scan.s, scan.e + n⟩ =
        .error .outside := if_neg first
    rw [outside, if_neg (by omega)]
    rfl

theorem takeData_inside {n : Nat} (room : scan.tokens.length < maxTokens) (le : scan.s ≤ scan.e)
    (isNat : announced = n) (range : announced < 2 ^ 31) :
    (takeData uncompress maxTokens scan announced flag >>= tokenizeRest maxTokens) ≠
      .error .outside ↔
        scan.tokens.length + 2 ≤ maxTokens ∧ scan.e + n + 1 < scan.command.length ∧
          (flag = 2 →
            mmcUncompress uncompress ((scan.command.drop scan.s).take n) 15 1 ≠ none) := by
  have isSize := sizeT_of_nonneg isNat range
  -- With a token everything depends on the room for the zeros and for the last token.
  have found : ∀ token, dataToken uncompress scan flag n = .ok token →
      ((takeData uncompress maxTokens scan announced flag >>= tokenizeRest maxTokens) ≠
        .error .outside ↔
          scan.tokens.length + 2 ≤ maxTokens ∧ scan.e + n + 1 < scan.command.length) := by
    intro token isToken
    rw [takeData_eq room isNat range isToken]
    by_cases fits : scan.e + n + 1 < scan.command.length
    · rw [if_pos fits, ok_bind, tokenizeRest_inside (by simpa using fits), List.length_append,
        List.length_singleton]
      exact ⟨fun fewer => ⟨fewer, fits⟩, fun both => both.1⟩
    · rw [if_neg fits]
      exact iff_of_false (fun other => other rfl) fun both => fits both.2
  by_cases compressed : flag = 2
  · have plain : flag ≠ 0 := by omega
    by_cases within : scan.s + n ≤ scan.command.length
    · cases result : mmcUncompress uncompress ((scan.command.drop scan.s).take n) 15 1 with
      | none =>
          have outside : dataToken uncompress scan flag n = .error .outside := by
            rw [dataToken, if_neg plain, if_pos compressed, if_pos within, result]
            rfl
          rw [takeData, isSize, outside]
          exact iff_of_false (fun other => other rfl) fun all => all.2.2 compressed rfl
      | some bytes =>
          have isToken : dataToken uncompress scan flag n =
              .ok ⟨.copy bytes, bytes.length⟩ := by
            rw [dataToken, if_neg plain, if_pos compressed, if_pos within, result]
            rfl
          rw [found _ isToken]
          exact ⟨fun both => ⟨both.1, both.2, fun _ => nofun⟩, fun all => ⟨all.1, all.2.1⟩⟩
    · have outside : dataToken uncompress scan flag n = .error .outside := by
        rw [dataToken, if_neg plain, if_pos compressed, if_neg within]
      rw [takeData, isSize, outside]
      exact iff_of_false (fun other => other rfl) fun all => by omega
  · have someToken : ∃ token, dataToken uncompress scan flag n = .ok token := by
      rw [dataToken, if_neg compressed]
      split <;> exact ⟨_, rfl⟩
    obtain ⟨token, isToken⟩ := someToken
    rw [found token isToken]
    exact ⟨fun both => ⟨both.1, both.2, fun wrong => absurd wrong compressed⟩,
      fun all => ⟨all.1, all.2.1⟩⟩

/-- The loop reads the first line of every message. -/
theorem tokenizeLoop_message (maxTokens : Nat) (message : List UInt8) :
    ∃ scan, tokenizeLoop maxTokens (message.length + 1) ⟨message ++ [0], [], 0, 0⟩ = .ok scan ∧
      Ended maxTokens (message.length + 1) scan (fields [] message) (lineEnd message)
        (dataStart [] message) := by
  have ready : Ready ⟨message ++ [0], [], 0, 0⟩ [] message [] :=
    ⟨List.not_mem_nil, rfl, rfl, .nil⟩
  obtain ⟨scan, looped, ended⟩ := tokenizeLoop_spec ready
    (show ([] : List (List UInt8)).length ≤ maxTokens - 1 from Nat.zero_le _)
  rw [List.length_append, List.length_singleton] at ended
  exact ⟨scan, looped, ended⟩

variable {message : List UInt8} {words : List (List UInt8)}

theorem Ended.count (ended : Ended maxTokens (message.length + 1) scan (fields [] message)
    (lineEnd message) (dataStart [] message)) (two : 1 < maxTokens) :
    scan.tokens.length = ((fields [] message).take (maxTokens - 1)).length ∧
      scan.tokens.length < maxTokens := by
  have count := ended.tokens.length_eq
  refine ⟨count, ?_⟩
  rw [count, List.length_take]
  omega

/-- What the loop leaves is taken as data exactly if the words fit. -/
theorem tokenizeData_inside (ended : Ended maxTokens (message.length + 1) scan (fields [] message)
    (lineEnd message) (dataStart [] message)) (two : 1 < maxTokens)
    (short : message.length < 2 ^ 32) :
    (tokenizeData uncompress maxTokens scan >>= tokenizeRest maxTokens) ≠ .error .outside ↔
      SetFits uncompress maxTokens message ((fields [] message).take (maxTokens - 1)) := by
  obtain ⟨count, room⟩ := ended.count two
  have strings := tokenString_eq ended.tokens
  have length := ended.length
  rw [SetFits]
  generalize isWords : (fields [] message).take (maxTokens - 1) = words at count strings ⊢
  by_cases five : 5 ≤ words.length
  · rw [and_iff_right five]
    have announcing : words[4]? = some words[4] := List.getElem?_eq_getElem (by omega)
    have flagging : words[2]? = some words[2] := List.getElem?_eq_getElem (by omega)
    rw [tokenizeData, strings 4, strings 2, announcing, flagging, Option.bind_some, Option.bind_some]
    simp only [Option.elim, ok_bind, lexicalCast]
    cases castFour : castText words[4] with
    | none => exact iff_of_true nofun nofun
    | some announced =>
        cases castTwo : castText words[2] with
        | none => exact iff_of_true nofun nofun
        | some flag =>
            obtain ⟨low, high⟩ := castText_range castFour
            have same : (∀ announced' flag' : Int, some announced = some announced' →
                some flag = some flag' → if announced' < 0 then flag' ≠ 2
                  else words.length + 2 ≤ maxTokens ∧ announced' < (lineEnd message).length ∧
                    (flag' = 2 → mmcUncompress uncompress
                      ((dataStart [] message ++ [0]).take announced'.toNat) 15 1 ≠ none)) ↔
                if announced < 0 then flag ≠ 2
                  else words.length + 2 ≤ maxTokens ∧ announced < (lineEnd message).length ∧
                    (flag = 2 → mmcUncompress uncompress
                      ((dataStart [] message ++ [0]).take announced.toNat) 15 1 ≠ none) :=
              ⟨fun all => all announced flag rfl rfl, by
                rintro fits _ _ ⟨⟩ ⟨⟩
                exact fits⟩
            rw [same]
            show (takeData uncompress maxTokens scan announced flag >>= tokenizeRest maxTokens) ≠
              .error .outside ↔ _
            by_cases negative : announced < 0
            · rw [if_pos negative]
              exact takeData_negative room negative low (by omega)
            · obtain ⟨n, isNat⟩ := Int.eq_ofNat_of_zero_le (Int.not_lt.mp negative)
              rw [if_neg negative, takeData_inside room ended.le isNat high, count]
              refine and_congr_right fun fewer => ?_
              have few : (fields [] message).length < maxTokens - 1 := by
                have isLength := congrArg List.length isWords
                rw [List.length_take] at isLength
                omega
              have behind := congrArg List.length (ended.behind few)
              rw [List.length_drop, List.length_append, List.length_singleton] at behind
              have inside := ended.inside
              have isData : announced.toNat = n := by omega
              rw [ended.start few, isData]
              exact and_congr_left' (by omega)
  · have missing : words[4]? = none := List.getElem?_eq_none (by omega)
    rw [tokenizeData, strings 4, missing]
    exact iff_of_false (fun other => other rfl) fun fits => five fits.1

/-- A message is tokenized without leaving it exactly if its first line has a word and, for `set`, its
words fit. -/
theorem inside_iff (uncompress : List UInt8 → Nat → Uncompressed) (two : 1 < maxTokens)
    (short : message.length < 2 ^ 32) :
    Inside uncompress maxTokens message ↔ Tokenizable uncompress maxTokens message := by
  obtain ⟨scan, looped, ended⟩ := tokenizeLoop_message maxTokens message
  have strings := tokenString_eq ended.tokens COMMAND_TOKEN
  have data := @tokenizeData_inside uncompress _ _ _ ended two short
  obtain ⟨count, room⟩ := ended.count two
  rw [Inside, tokenizeCommand, looped, ok_bind, strings, Tokenizable]
  generalize (fields [] message).take (maxTokens - 1) = words at data ⊢
  cases words with
  | nil => exact iff_of_false (fun other => other rfl) fun both => both.1 rfl
  | cons command words =>
      show (if command = ascii "set" then tokenizeData uncompress maxTokens scan
        else .ok scan) >>= tokenizeRest maxTokens ≠ .error .outside ↔ _
      by_cases isSet : command = ascii "set"
      · rw [if_pos isSet, data]
        simp [isSet]
      · rw [if_neg isSet]
        have other : (command :: words).head? = some (ascii "set") →
            SetFits uncompress maxTokens message (command :: words) :=
          fun same => absurd (Option.some.inj same) isSet
        exact iff_of_true ((tokenizeRest_inside ended.inside).mpr room)
          ⟨List.cons_ne_nil _ _, other⟩

end Inside

/-! ## Requests -/

/-- Neither blanks nor control characters, and not empty. -/
def IsWord (word : List UInt8) : Prop := word ≠ [] ∧ ∀ c ∈ word, 32 < c ∧ c ≠ 127

/-- `set <key> 0 <exptime> <bytes> CRLF <data> CRLF`. -/
structure Request where
  key : List UInt8
  exptime : List UInt8
  data : List UInt8
  isKey : IsWord key
  isExptime : IsWord exptime

namespace Request

variable (request : Request)

def words : List (List UInt8) :=
  [ascii "set", request.key, ascii "0", request.exptime, decimal request.data.length]

def line : List UInt8 :=
  ascii "set" ++ blank :: (request.key ++ blank :: (ascii "0" ++ blank :: (request.exptime ++
    blank :: decimal request.data.length)))

def bytes : List UInt8 := request.line ++ crlf ++ request.data ++ crlf

end Request

def Event.isSet : Event → Bool
  | .set _ _ => true
  | _ => false

/-- The messages of a request lead to one call of the processor, with its key and its data, and to one
reply, without leaving a message. -/
def Arrives (server : Server) (junk : Nat → UInt8) (maxLength : Nat) (request : Request)
    (pieces : List (List UInt8)) : Prop :=
  ∃ s msgs events,
    (MemcachedServerMsg.decoder junk maxLength).feedAll .initial pieces = some (s, msgs) ∧
      processAll server (msgs.map LineMsg.InMsg.bytes) = .ok events ∧
      events.filter Event.isSet = [.set request.key request.data] ∧
      events.count (.sent (ascii "STORED" ++ crlf)) = 1

section Lines

variable {word before rest : List UInt8}

theorem fields_word (plain : ∀ c ∈ word, 32 < c) :
    fields before (word ++ rest) = fields (before ++ word) rest := by
  induction word generalizing before with
  | nil => rw [List.append_nil, List.nil_append]
  | cons c word ih =>
      have large := plain c List.mem_cons_self
      have noBlank : c ≠ blank := fun same => absurd (same ▸ large) (by decide)
      have noCr : c ≠ cr := fun same => absurd (same ▸ large) (by decide)
      have noZero : c ≠ 0 := fun same => absurd (same ▸ large) (by decide)
      rw [List.cons_append, fields, if_neg noBlank, if_neg (fun both => noCr both.1), if_neg noZero,
        ih fun other member => plain other (List.mem_cons_of_mem _ member), List.append_assoc]
      rfl

theorem fields_blank (plain : ∀ c ∈ word, 32 < c) (nonempty : word ≠ []) (rest : List UInt8) :
    fields [] (word ++ blank :: rest) = word :: fields [] rest := by
  rw [fields_word plain, List.nil_append, fields, if_pos rfl, if_neg nonempty]
  rfl

theorem fields_crlf (plain : ∀ c ∈ word, 32 < c) (rest : List UInt8) :
    fields [] (word ++ (crlf ++ rest)) = [word] := by
  rw [fields_word plain, List.nil_append, crlf]
  simp [fields, blank, cr]

theorem lineEnd_crlf {line : List UInt8} (plain : ∀ c ∈ line, 32 ≤ c) (rest : List UInt8) :
    lineEnd (line ++ (crlf ++ rest)) = rest := by
  induction line with
  | nil => rfl
  | cons c line ih =>
      have large := plain c List.mem_cons_self
      have noCr : c ≠ cr := fun same => absurd (same ▸ large) (by decide)
      have noZero : c ≠ 0 := fun same => absurd (same ▸ large) (by decide)
      rw [List.cons_append, lineEnd, if_neg (fun both => noCr both.1), if_neg noZero]
      exact ih fun other member => plain other (List.mem_cons_of_mem _ member)

theorem dataStart_crlf {line : List UInt8} (plain : ∀ c ∈ line, 32 ≤ c) (word rest : List UInt8) :
    dataStart word (line ++ (crlf ++ rest)) = rest := by
  induction line generalizing word with
  | nil =>
      rw [List.nil_append, crlf]
      simp [dataStart, blank, cr]
  | cons c line ih =>
      have large := plain c List.mem_cons_self
      have noCr : c ≠ cr := fun same => absurd (same ▸ large) (by decide)
      have noZero : c ≠ 0 := fun same => absurd (same ▸ large) (by decide)
      have later := fun word => ih (fun other member => plain other (List.mem_cons_of_mem _ member)) word
      rw [List.cons_append, dataStart]
      by_cases isBlank : c = blank
      · rw [if_pos isBlank]
        exact later []
      · rw [if_neg isBlank, if_neg (fun both => noCr both.1), if_neg noZero]
        exact later (word ++ [c])

theorem decimal_large (n : Nat) : ∀ c ∈ decimal n, 32 < c := by
  intro c member
  have digit := isDigit_of_mem_decimal member
  rw [isDigit, Bool.and_eq_true, decide_eq_true_eq] at digit
  exact UInt8.lt_of_lt_of_le (by decide) digit.1

/-- A number that was printed is read again. -/
theorem castText_decimal {n : Nat} (small : n < 2 ^ 31) : castText (decimal n) = some (n : Int) := by
  have digits : (decimal n).map (fun c => Char.ofNat c.toNat) = Nat.toDigits 10 n := by
    rw [decimal, List.map_map]
    conv_rhs => rw [← List.map_id (Nat.toDigits 10 n)]
    refine List.map_congr_left fun c member => ?_
    have isDigit := Nat.isDigit_of_mem_toDigits (by decide) (by decide) member
    have range := (Char.isDigit_iff_toNat.mp isDigit).2
    have byte : c.toNat.toUInt8.toNat = c.toNat := Nat.mod_eq_of_lt (Nat.lt_of_le_of_lt range (by decide))
    rw [Function.comp, byte, Char.ofNat_toNat]
    rfl
  have text : intText n = Nat.toDigits 10 n := by
    rw [intText, if_neg (by omega), Int.natAbs_natCast]
  rw [castText, digits, ← text, lexicalCastInt_intText, if_pos (by omega)]

theorem castText_zero : castText (ascii "0") = some 0 := by
  have isDecimal : ascii "0" = decimal 0 := by decide
  rw [isDecimal]
  exact castText_decimal (by decide)

namespace Request

variable (request : Request)

theorem line_large : ∀ c ∈ request.line, 32 ≤ c := by
  have ofWord : ∀ word : List UInt8, (∀ c ∈ word, 32 < c) → ∀ c ∈ word, 32 ≤ c :=
    fun _ large c member => UInt8.le_of_lt (large c member)
  have set := ofWord (ascii "set") (forall_mem_of_all (by decide))
  have zero := ofWord (ascii "0") (forall_mem_of_all (by decide))
  have key := ofWord request.key fun c member => (request.isKey.2 c member).1
  have exptime := ofWord request.exptime fun c member => (request.isExptime.2 c member).1
  have number := ofWord _ (decimal_large request.data.length)
  intro c member
  simp only [line, List.mem_append, List.mem_cons] at member
  rcases member with inSet | rfl | inKey | rfl | inZero | rfl | inTime | rfl | inNumber
  · exact set c inSet
  · decide
  · exact key c inKey
  · decide
  · exact zero c inZero
  · decide
  · exact exptime c inTime
  · decide
  · exact number c inNumber

theorem fields_line (rest : List UInt8) :
    fields [] (request.line ++ (crlf ++ rest)) = request.words := by
  have key : ∀ c ∈ request.key, 32 < c := fun c member => (request.isKey.2 c member).1
  have exptime : ∀ c ∈ request.exptime, 32 < c := fun c member => (request.isExptime.2 c member).1
  simp only [line, List.append_assoc, List.cons_append]
  rw [fields_blank (forall_mem_of_all (by decide)) (by decide), fields_blank key request.isKey.1,
    fields_blank (forall_mem_of_all (by decide)) (by decide), fields_blank exptime request.isExptime.1,
    fields_crlf (decimal_large _), words]

end Request

end Lines

/-! ## One line for one message -/

section Messages

variable {server : Server} {junk : Nat → UInt8} {maxLength : Nat}

theorem lines_bytes (request : Request) :
    ∃ more, (Lib.Lines.lines LineMsg.lf request.bytes).1 = (request.line ++ crlf) :: more := by
  have noLf : LineMsg.lf ∉ request.line ++ [cr] := by
    rw [List.mem_append, not_or]
    exact ⟨fun member => absurd (request.line_large _ member) (by decide), by decide⟩
  have split : request.bytes = (request.line ++ [cr]) ++ (LineMsg.lf :: (request.data ++ crlf)) := by
    simp [Request.bytes, crlf, lf, LineMsg.lf]
  rw [split, Lib.Lines.lines, Lib.Lines.linesFrom_plain noLf, Lib.Lines.linesFrom_sep]
  refine ⟨_, congrArg (· :: _) ?_⟩
  simp [crlf, lf, LineMsg.lf]

/-- No data follow the line in its message, so the tokenizer leaves it. -/
theorem line_outside (uncompress : List UInt8 → Nat → Uncompressed) (request : Request)
    (short : request.data.length < 2 ^ 31) (small : (request.line ++ crlf).length < 2 ^ 32) :
    ¬ Inside uncompress MAX_TOKENS (request.line ++ crlf) := by
  rw [inside_iff uncompress (by decide) small]
  rintro ⟨-, fits⟩
  have isLine := request.fields_line []
  have nothing := lineEnd_crlf request.line_large []
  rw [List.append_nil] at isLine nothing
  rw [isLine] at fits
  obtain ⟨-, all⟩ := fits rfl
  have four : (request.words.take (MAX_TOKENS - 1))[4]? = some (decimal request.data.length) := rfl
  have two : (request.words.take (MAX_TOKENS - 1))[2]? = some (ascii "0") := rfl
  have fits := all request.data.length 0
    (by rw [four, Option.bind_some, castText_decimal short])
    (by rw [two, Option.bind_some, castText_zero])
  rw [if_neg (by omega), nothing] at fits
  exact absurd fits.2.1 (by simp)

/-- A request never arrives, however it is cut. -/
theorem not_arrives (server : Server) (junk : Nat → UInt8) (isInt : maxLength < 2 ^ 31)
    (request : Request) {pieces : List (List UInt8)} (cut : pieces.flatten = request.bytes)
    (short : request.bytes.length < maxLength) :
    ¬ Arrives server junk maxLength request pieces := by
  rintro ⟨s, msgs, events, fed, processed, -⟩
  obtain ⟨s', msgs', fed', isLines⟩ := MemcachedServerMsg.feedAll_lines junk
    (show pieces.flatten.length < maxLength by rwa [cut])
  obtain ⟨rfl, rfl⟩ := Prod.mk.inj (Option.some.inj (fed.symm.trans fed'))
  obtain ⟨more, isFirst⟩ := lines_bytes request
  have sizes : request.data.length ≤ request.bytes.length ∧
      (request.line ++ crlf).length ≤ request.bytes.length := by
    simp only [Request.bytes, List.length_append]
    omega
  have outside : tokenizeCommand server.uncompress MAX_TOKENS (request.line ++ crlf) =
      .error .outside :=
    not_not.mp (line_outside server.uncompress request (by omega) (by omega))
  rw [isLines, cut, isFirst, processAll, realProcessMsg, processCommand, outside] at processed
  cases processed

end Messages

/-! ## One message -/

section Whole

variable {server : Server} {command : List UInt8} {tokens more : List Token} {i : Nat}

theorem token_at {limit : Nat} {words : List (List UInt8)} {word : List UInt8}
    (areTokens : List.Forall₂ (IsToken limit command) tokens words) (isWord : words[i]? = some word) :
    ∃ offset, tokens[i]? = some ⟨.inside offset, word.length⟩ := by
  induction areTokens generalizing i with
  | nil => cases isWord
  | cons isToken later ih =>
      cases i with
      | zero =>
          obtain ⟨offset, rfl, -⟩ := isToken.cStringAt
          obtain rfl := Option.some.inj isWord
          exact ⟨offset, rfl⟩
      | succ i => exact ih isWord

theorem tokenString_append (inside : i < tokens.length) :
    tokenString command (tokens ++ more) i = tokenString command tokens i := by
  rw [tokenString, tokenString, List.getElem?_append_left inside]

/-- The bytes in front of a zero that is written stay. -/
theorem take_drop_set {s n i : Nat} (beyond : s + n ≤ i) :
    ((command.set i 0).drop s).take n = (command.drop s).take n := by
  rw [List.drop_set, if_neg (by omega), List.take_set, List.set_eq_of_length_le]
  rw [List.length_take]
  omega

/-- The tokens of a message that holds a whole request. -/
theorem tokenizeCommand_whole (uncompress : List UInt8 → Nat → Uncompressed) (request : Request)
    (short : request.data.length < 2 ^ 31) :
    ∃ scan, tokenizeCommand uncompress MAX_TOKENS request.bytes = .ok scan ∧
      scan.tokens.length = 7 ∧
      (∀ i < 5, tokenString scan.command scan.tokens i =
        (request.words[i]?).elim (.error .outside) .ok) ∧
      (∃ offset, scan.tokens[KEY_TOKEN]? = some ⟨.inside offset, request.key.length⟩) ∧
      tokenData scan.command scan.tokens 5 = .ok request.data := by
  obtain ⟨scan, looped, ended⟩ := tokenizeLoop_message MAX_TOKENS request.bytes
  have assoc : request.bytes = request.line ++ (crlf ++ (request.data ++ crlf)) := by
    rw [Request.bytes, List.append_assoc, List.append_assoc]
  have isLine := request.fields_line (request.data ++ crlf)
  have isEnd := lineEnd_crlf request.line_large (request.data ++ crlf)
  have isStart := dataStart_crlf request.line_large [] (request.data ++ crlf)
  rw [← assoc] at isLine isEnd isStart
  rw [isLine, isEnd, isStart] at ended
  obtain ⟨areTokens, length, le, inside, behind, start⟩ := ended
  have few : request.words.length < MAX_TOKENS - 1 := show 5 < 7 by decide
  replace behind := behind few
  replace start := start few
  have isE := congrArg List.length behind
  have isS := congrArg List.length start
  simp only [List.length_drop, List.length_append, List.length_singleton] at isE isS
  have five : scan.tokens.length = 5 := areTokens.length_eq
  have same : scan.s = scan.e := by omega
  have crlfLength : crlf.length = 2 := rfl
  have strings := tokenString_eq areTokens
  -- The zeros are written over the CRLF behind the data.
  have isToken : dataToken uncompress scan 0 request.data.length =
      .ok ⟨.inside scan.s, request.data.length⟩ := if_pos rfl
  have taken := takeData_eq (show scan.tokens.length < MAX_TOKENS by rw [five]; decide) rfl
    (show (request.data.length : Int) < 2 ^ 31 by omega) isToken
  rw [if_pos (by omega)] at taken
  obtain ⟨command, isCommand⟩ : ∃ command, command =
    (scan.command.set (scan.e + request.data.length) 0).set (scan.e + request.data.length + 1) 0 :=
    ⟨_, rfl⟩
  rw [← isCommand] at taken
  have zero : Scan.read ⟨command, scan.tokens ++ [⟨.inside scan.s, request.data.length⟩], scan.s,
      scan.e + request.data.length + 1⟩ (scan.e + request.data.length + 1) = .ok 0 := by
    rw [Scan.read, isCommand, List.getElem?_set_self (by rw [List.length_set]; omega)]
    rfl
  refine ⟨⟨command, scan.tokens ++ [⟨.inside scan.s, request.data.length⟩] ++ [⟨.null, 0⟩], scan.s,
    scan.e + request.data.length + 1⟩, ?_, ?_, ?_, ?_, ?_⟩
  · have four : tokenString scan.command scan.tokens 4 = .ok (decimal request.data.length) :=
      strings 4
    have two : tokenString scan.command scan.tokens 2 = .ok (ascii "0") := strings 2
    have first : tokenString scan.command scan.tokens COMMAND_TOKEN = .ok (ascii "set") := strings 0
    rw [tokenizeCommand, looped, ok_bind, first, ok_bind, if_pos rfl, tokenizeData, four, ok_bind,
      lexicalCast, castText_decimal short, Option.elim_some, ok_bind, two, ok_bind, lexicalCast,
      castText_zero, Option.elim_some, ok_bind, taken, ok_bind, tokenizeRest, zero, ok_bind, if_pos rfl]
    refine if_pos ?_
    rw [List.length_append, five]
    exact show 6 < 8 by decide
  · simp [five]
  · intro i few
    have kept : List.Forall₂ (IsToken scan.e command) scan.tokens request.words := by
      rw [isCommand]
      exact areTokens.imp fun _ _ isToken => (isToken.set (by omega)).set (by omega)
    rw [List.append_assoc, tokenString_append (by omega)]
    exact tokenString_eq kept i
  · rw [List.append_assoc, List.getElem?_append_left (by rw [five]; decide)]
    exact token_at areTokens rfl
  · have last : (scan.tokens ++ [⟨.inside scan.s, request.data.length⟩] ++ [⟨.null, 0⟩])[5]? =
        some ⟨.inside scan.s, request.data.length⟩ := by
      rw [List.append_assoc, List.getElem?_append_right (by omega), five]
      rfl
    have size : command.length = scan.command.length := by
      rw [isCommand, List.length_set, List.length_set]
    rw [tokenData, last]
    dsimp only
    rw [if_pos (by omega), isCommand, take_drop_set (by omega), take_drop_set (by omega), start,
      List.append_assoc, List.take_left]

theorem parseRequest_word {key : List UInt8} (plain : ∀ c ∈ key, 32 < c) :
    parseRequest key = key := by
  induction key with
  | nil => rfl
  | cons c key ih =>
      have noCr : c ≠ cr := fun same => absurd (same ▸ plain c List.mem_cons_self) (by decide)
      rw [parseRequest, if_neg (fun both => noCr both.1),
        ih fun other member => plain other (List.mem_cons_of_mem _ member)]

/-- A message that holds the whole request would be stored. -/
theorem realProcessMsg_whole (request : Request) (short : request.data.length < 2 ^ 31)
    (fits : request.key.length ≤ KEY_MAX_LENGTH) (stores : server.set request.key request.data = 0)
    (sends : server.sendMsg (ascii "STORED" ++ crlf) = 0) :
    realProcessMsg server request.bytes =
      .ok [.set request.key request.data, .sent (ascii "STORED" ++ crlf)] := by
  obtain ⟨scan, tokenized, seven, strings, ⟨offset, isToken⟩, isData⟩ :=
    tokenizeCommand_whole server.uncompress request short
  have command : tokenString scan.command scan.tokens COMMAND_TOKEN = .ok (ascii "set") :=
    strings 0 (by decide)
  have key : tokenString scan.command scan.tokens KEY_TOKEN = .ok request.key :=
    strings 1 (by decide)
  have nonempty := List.length_pos_of_ne_nil request.isKey.1
  have noCrlf := parseRequest_word fun c member => (request.isKey.2 c member).1
  have echoed : echoString server (ascii "STORED") = (0, [.sent (ascii "STORED" ++ crlf)]) := by
    have short : ¬ HEAD_MAX_LENGTH < (ascii "STORED").length + 2 := by decide
    rw [echoString, if_neg short, sends]
  rw [realProcessMsg, processCommand, tokenized, ok_bind, if_neg (by rw [seven]; decide), command,
    ok_bind, if_neg (by decide), if_pos rfl, processSetCommand, withKey, isToken]
  dsimp only
  rw [if_neg (by omega), key, ok_bind, if_neg (by omega), noCrlf, isData, ok_bind, if_pos stores,
    echoed]
  rfl


end Whole

/-! ## Both parts -/

/-- No request arrives, and a message is tokenized without leaving it exactly if its first line has a
word and, for `set`, its words fit. -/
theorem requests_and_messages (server : Server) (junk : Nat → UInt8) :
    (∀ (maxLength : Nat) (request : Request) (pieces : List (List UInt8)), maxLength < 2 ^ 31 →
      pieces.flatten = request.bytes → request.bytes.length < maxLength →
        ¬ Arrives server junk maxLength request pieces) ∧
      ∀ (maxTokens : Nat) (message : List UInt8), 1 < maxTokens → message.length < 2 ^ 32 →
        (Inside server.uncompress maxTokens message ↔
          Tokenizable server.uncompress maxTokens message) := by
  refine ⟨fun maxLength request pieces isInt cut short => ?_, fun maxTokens message two short => ?_⟩
  · exact not_arrives server junk isInt request cut short
  · exact inside_iff server.uncompress two short

/-- A request with one byte of data. -/
def oneByte : Request where
  key := [107]
  exptime := [48]
  data := [118]
  isKey := ⟨by decide, forall_mem_of_all (by decide)⟩
  isExptime := ⟨by decide, forall_mem_of_all (by decide)⟩

/-- A processor that stores everything. -/
def storing : Server := ⟨fun _ => none, fun _ _ => 0, fun _ _ => .failed, fun _ => 0⟩

theorem requests_and_messages_one :
    ¬ Arrives storing (fun _ => 0) 150 oneByte [oneByte.bytes] ∧
      Inside storing.uncompress MAX_TOKENS (ascii "get k\r\n") := by
  have whole : [oneByte.bytes].flatten = oneByte.bytes := List.append_nil _
  have fine : Tokenizable storing.uncompress MAX_TOKENS (ascii "get k\r\n") :=
    ⟨by decide, fun isSet => absurd isSet (by decide)⟩
  obtain ⟨requests, messages⟩ := requests_and_messages storing fun _ => 0
  exact ⟨requests 150 oneByte _ (by decide) whole (by decide +kernel),
    (messages MAX_TOKENS _ (by decide) (by decide)).mpr fine⟩

/-- The line of the request is a message without the data, and the zeros are written behind it. -/
theorem line_without_data :
    ((MemcachedServerMsg.decoder (fun _ => 0) 150).feedAll .initial [oneByte.bytes]).map
        (fun (_, msgs) => msgs.map LineMsg.InMsg.bytes) =
      some [ascii "set k 0 0 1\r\n", ascii "v\r\n"] ∧
      tokenizeCommand storing.uncompress MAX_TOKENS (ascii "set k 0 0 1\r\n") = .error .outside ∧
      ¬ Arrives storing (fun _ => 0) 150 oneByte [oneByte.bytes] := by
  refine ⟨by decide +kernel, by decide +kernel, ?_⟩
  exact not_arrives storing _ (by decide) oneByte (List.append_nil _) (by decide +kernel)

end MlsImgSearch.Blitz.ImgdbProxyServer
