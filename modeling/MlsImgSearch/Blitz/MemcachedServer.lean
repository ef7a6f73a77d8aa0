import MlsImgSearch.Blitz.ImgdbProxyServer
import MlsImgSearch.Blitz.MemcachedReply
import MlsImgSearch.Blitz.MemcachedReqFunction
import MlsImgSearch.Blitz.TaskServer

/-!
# The memcached server

Only `get` with one key is served. The functions that answer and that erase the line end are those of
the image proxy; the words of a command are found by a loop that does not stop at a line end.
-/

namespace MlsImgSearch.Blitz.MemcachedServer

open Lib.Words
open ImgdbProxyServer (Fault Scan Token Event blank cr lf crlf ascii MAX_TOKENS COMMAND_TOKEN KEY_TOKEN
  KEY_MAX_LENGTH HEAD_MAX_LENGTH tokenString tokenizeRest echoString echoData parseRequest withKey
  IsToken Ready ok_bind)
open Lib.Strings (decimal)

/-! ## The code -/

/-- The loop of `TokenizeCommand`; `left` bytes follow from `e` on. -/
def tokenizeLoop (maxTokens : Nat) : Nat → Scan → Except Fault Scan
  | left, scan =>
      if scan.tokens.length < maxTokens - 1 then
        match left with
        | 0 => .error .outside
        | left + 1 => do
            let c ← scan.read scan.e
            if c = blank then
              if scan.s ≠ scan.e then
                let scan ← scan.endWord maxTokens
                tokenizeLoop maxTokens left { scan with s := scan.e + 1, e := scan.e + 1 }
              else tokenizeLoop maxTokens left { scan with s := scan.e + 1, e := scan.e + 1 }
            else if c = 0 then
              if scan.s ≠ scan.e then scan.push maxTokens scan.word else pure scan
            else tokenizeLoop maxTokens left { scan with e := scan.e + 1 }
      else pure scan

/-- The last token points to what is left. -/
def tokenizeCommand (maxTokens : Nat) (command : List UInt8) : Except Fault Scan :=
  tokenizeLoop maxTokens (command.length + 1) ⟨command ++ [0], [], 0, 0⟩ >>= tokenizeRest maxTokens

/-- The processor of the server and what sending returns, as the functions of the proxy take them. -/
def server (getItemData : List UInt8 → Option (List UInt8)) (sendMsg : Int) :
    ImgdbProxyServer.Server :=
  ⟨getItemData, fun _ _ => 0, fun _ _ => .failed, fun _ => sendMsg⟩

section Commands

variable (getItemData : List UInt8 → Option (List UInt8)) (sendMsg : Int)

def processGetCommand (scan : Scan) : Except Fault (Int × List Event) :=
  ImgdbProxyServer.processGetCommand (server getItemData sendMsg) scan

def processCommand (command : List UInt8) : Except Fault (Int × List Event) := do
  let scan ← tokenizeCommand MAX_TOKENS command
  if scan.tokens.length < 3 then
    .ok (echoString (server getItemData sendMsg) (ascii "CLIENT_ERROR bad command line format"))
  else
    let command ← tokenString scan.command scan.tokens COMMAND_TOKEN
    if command = ascii "get" then processGetCommand getItemData sendMsg scan
    else .ok (echoString (server getItemData sendMsg) (ascii "CLIENT_ERROR bad command line format"))

/-- The command ends at the first zero of the message. The connection is closed after a failure. -/
def realProcessMsg (message : List UInt8) : Except Fault (List Event) := do
  let (ret, events) ← processCommand getItemData sendMsg (message.takeWhile (· ≠ 0))
  .ok (events ++ if ret = 0 then [] else [.closed])

end Commands

/-! ## The words of a command -/

section Loop

variable {maxTokens : Nat} {scan : Scan} {word rest : List UInt8} {found : List (List UInt8)}

/-- The loop has ended with as many of the words as there is room for. -/
structure Ended (maxTokens : Nat) (scan : Scan) (found : List (List UInt8)) : Prop where
  tokens : List.Forall₂ (IsToken scan.e scan.command) scan.tokens (found.take (maxTokens - 1))
  inside : scan.e < scan.command.length

/-- There is no room for more. -/
theorem tokenizeLoop_full (ready : Ready scan word rest found) (full : found.length = maxTokens - 1)
    (more : List (List UInt8)) (left : Nat) :
    tokenizeLoop maxTokens left scan = .ok scan ∧ Ended maxTokens scan (found ++ more) := by
  have count := ready.tokens.length_eq
  have total := ready.inside
  constructor
  · rw [tokenizeLoop.eq_def]
    dsimp only
    rw [if_neg (by omega)]
    rfl
  · constructor
    · rw [← full, List.take_left]
      exact ready.tokens.imp fun _ _ isToken => isToken.mono (by rw [ready.place]; omega)
    · omega

/-- The last word ends at the zero behind the command. -/
theorem tokenizeLoop_zero (ready : Ready scan word [] found) (plain : blank ∉ word)
    (few : found.length < maxTokens - 1) :
    ∃ scan', tokenizeLoop maxTokens 1 scan = .ok scan' ∧
      Ended maxTokens scan' (found ++ words blank word) := by
  have count := ready.tokens.length_eq
  have total := ready.inside
  rw [List.length_nil] at total
  have earlier : List.Forall₂ (IsToken scan.e scan.command) scan.tokens found :=
    ready.tokens.imp fun _ _ isToken => isToken.mono (by rw [ready.place]; omega)
  rw [tokenizeLoop, if_pos (by omega), ready.read rfl, ok_bind, if_neg (by decide), if_pos rfl,
    words_plain plain]
  by_cases empty : word = []
  · have same : ¬ scan.s ≠ scan.e := by
      rw [ready.place, empty]
      simp
    rw [if_pos empty, if_neg same, List.append_nil]
    refine ⟨scan, rfl, ?_, by omega⟩
    rwa [List.take_of_length_le (by omega)]
  · have other : scan.s ≠ scan.e := by
      have positive := List.length_pos_of_ne_nil empty
      have place := ready.place
      omega
    have isWord : scan.word = ⟨.inside scan.s, word.length⟩ := by
      rw [Scan.word, ready.place, Nat.add_sub_cancel_left]
    have bytes : scan.command.drop scan.s = word ++ 0 :: [] := by
      rw [ready.bytes, List.append_nil]
    have last := ImgdbProxyServer.isToken_word ready.noZero bytes
    rw [← ready.place, ← isWord] at last
    rw [if_neg empty, if_pos other]
    refine ⟨{ scan with tokens := scan.tokens ++ [scan.word] }, if_pos (by omega), ?_, ?_⟩
    · rw [List.take_of_length_le (by rw [List.length_append, List.length_singleton]; omega)]
      exact List.rel_append earlier (.cons last .nil)
    · show scan.e < scan.command.length
      omega

/-- The tokens are the words between blanks, as many as there is room for. -/
theorem tokenizeLoop_spec (ready : Ready scan word rest found) (plain : blank ∉ word)
    (noZero : 0 ∉ rest) (bound : found.length ≤ maxTokens - 1) :
    ∃ scan', tokenizeLoop maxTokens (rest.length + 1) scan = .ok scan' ∧
      Ended maxTokens scan' (found ++ words blank (word ++ rest)) := by
  induction rest generalizing scan word found with
  | nil =>
      by_cases full : found.length = maxTokens - 1
      · exact ⟨scan, tokenizeLoop_full ready full _ _⟩
      · rw [List.append_nil]
        exact tokenizeLoop_zero ready plain (by omega)
  | cons c rest ih =>
      by_cases full : found.length = maxTokens - 1
      · exact ⟨scan, tokenizeLoop_full ready full _ _⟩
      obtain ⟨other, noZero⟩ := not_or.mp (mt List.mem_cons.mpr noZero)
      have count := ready.tokens.length_eq
      have total := ready.inside
      rw [List.length_cons] at total
      rw [List.length_cons, tokenizeLoop, if_pos (by omega), ready.read rfl, ok_bind]
      by_cases isBlank : c = blank
      · rw [if_pos isBlank, isBlank, words_append plain]
        by_cases empty : word = []
        · have same : ¬ scan.s ≠ scan.e := by
            rw [ready.place, empty]
            simp
          have next : Ready { scan with s := scan.e + 1, e := scan.e + 1 } [] rest found := by
            refine ⟨List.not_mem_nil, ?_, rfl, ?_⟩
            · show scan.command.drop (scan.e + 1) = _
              rw [← List.drop_drop, ready.follows]
              rfl
            · exact ready.tokens.imp fun _ _ isToken => isToken.mono
                (show scan.s ≤ scan.e + 1 by rw [ready.place]; omega)
          rw [if_neg same, if_pos empty, List.nil_append]
          exact ih next List.not_mem_nil noZero bound
        · have differ : scan.s ≠ scan.e := by
            have positive := List.length_pos_of_ne_nil empty
            have place := ready.place
            omega
          obtain ⟨scan', ended, isS, isE, isCommand, areTokens⟩ := ready.endWord
            (show scan.tokens.length < maxTokens by omega)
          have next : Ready { scan' with s := scan'.e + 1, e := scan'.e + 1 } [] rest
              (found ++ [word]) := by
            refine ⟨List.not_mem_nil, ?_, rfl, ?_⟩
            · show scan'.command.drop (scan'.e + 1) = _
              rw [isCommand, isE, List.drop_set, if_pos (by omega), ← List.drop_drop, ready.follows]
              rfl
            · rw [← isE] at areTokens
              exact areTokens.imp fun _ _ isToken => isToken.mono (Nat.le_succ _)
          rw [if_pos differ, ended, ok_bind, if_neg empty, ← List.append_assoc]
          exact ih next List.not_mem_nil noZero (by rw [List.length_append, List.length_singleton]; omega)
      · have next : Ready { scan with e := scan.e + 1 } (word ++ [c]) rest found := by
          refine ⟨?_, ?_, ?_, ready.tokens⟩
          · rw [List.mem_append, List.mem_singleton, not_or]
            exact ⟨ready.noZero, other⟩
          · show scan.command.drop scan.s = _
            rw [ready.bytes, List.append_assoc word [c] rest]
            rfl
          · show scan.e + 1 = _
            rw [List.length_append, List.length_singleton, ready.place, Nat.add_assoc]
        have plain' : blank ∉ word ++ [c] := by
          rw [List.mem_append, List.mem_singleton, not_or]
          exact ⟨plain, Ne.symm isBlank⟩
        rw [if_neg isBlank, if_neg (Ne.symm other)]
        have later := ih next plain' noZero bound
        rwa [List.append_assoc, List.singleton_append] at later

/-- The tokens of a command: its words, as many as there is room for, and one more. -/
theorem tokenizeCommand_spec (two : 1 < maxTokens) {command : List UInt8} (noZero : 0 ∉ command) :
    ∃ scan tokens last, tokenizeCommand maxTokens command = .ok scan ∧
      scan.tokens = tokens ++ [last] ∧
      List.Forall₂ (IsToken scan.e scan.command) tokens
        ((words blank command).take (maxTokens - 1)) := by
  have start : Ready ⟨command ++ [0], [], 0, 0⟩ [] command [] :=
    ⟨List.not_mem_nil, rfl, rfl, .nil⟩
  obtain ⟨scan, looped, ended⟩ := tokenizeLoop_spec start List.not_mem_nil noZero
    (Nat.zero_le (maxTokens - 1))
  rw [List.nil_append, List.nil_append] at ended
  have count := ended.tokens.length_eq
  rw [List.length_take] at count
  obtain ⟨c, read⟩ : ∃ c, scan.read scan.e = .ok c := by
    refine ⟨scan.command.get ⟨scan.e, ended.inside⟩, ?_⟩
    rw [Scan.read, List.getElem?_eq_getElem ended.inside]
    rfl
  refine ⟨{ scan with tokens := scan.tokens ++ [⟨if c = 0 then .null else .inside scan.e, 0⟩] },
    scan.tokens, _, ?_, rfl, ended.tokens⟩
  rw [tokenizeCommand, looped, ok_bind, tokenizeRest, read, ok_bind]
  exact if_pos (by omega)

end Loop

/-! ## Answers -/

section Answers

variable (getItemData : List UInt8 → Option (List UInt8)) (sendMsg : Int)

/-- The answer for a key. -/
def valueReply (key : List UInt8) : List UInt8 :=
  match getItemData key with
  | none => ascii "END" ++ crlf
  | some [] => ascii "SERVER_ERROR out of memory preparing response" ++ crlf
  | some data =>
      ascii "VALUE " ++ key ++ ascii " 0 " ++ decimal data.length ++ crlf ++ data ++ crlf ++
        ascii "END" ++ crlf

/-- The key that a line asks for. -/
def requestedKey (line : List UInt8) : Option (List UInt8) :=
  match words blank (line.takeWhile (· ≠ 0)) with
  | command :: request :: _ => if command = ascii "get" then some (parseRequest request) else none
  | _ => none

def answer (line : List UInt8) : List UInt8 :=
  (requestedKey line).elim (ascii "CLIENT_ERROR bad command line format" ++ crlf)
    (valueReply getItemData)

/-- What is done for a line: the key is looked up, and there is one answer. -/
def answered (line : List UInt8) : List Event :=
  (requestedKey line).toList.map .got ++ [.sent (answer getItemData line)]

variable {getItemData sendMsg}

theorem length_parseRequest (request : List UInt8) :
    (parseRequest request).length ≤ request.length := by
  induction request with
  | nil => exact Nat.le_refl _
  | cons c rest ih =>
      rw [parseRequest]
      split
      · rw [List.length_tail, List.length_cons]
        omega
      · exact Nat.succ_le_succ ih

theorem length_le_of_mem_words {line word : List UInt8} (member : word ∈ words blank line) :
    word.length ≤ line.length := by
  have total := length_words blank line
  have part := List.single_le_sum (fun _ _ => Nat.zero_le _) _
    (List.mem_map_of_mem (f := fun word : List UInt8 => word.length + 1) member)
  omega

/-- A short line is sent as it is. -/
theorem echoString_short {str : List UInt8} (short : str.length + 2 ≤ HEAD_MAX_LENGTH) :
    echoString (server getItemData sendMsg) str = (sendMsg, [.sent (str ++ crlf)]) := by
  rw [echoString, if_neg (Nat.not_lt.mpr short)]
  rfl

/-- The head of a value fits. -/
theorem echoData_short {data key : List UInt8} (some' : data ≠ []) (small : data.length < 10 ^ 20)
    (short : key.length ≤ 200) :
    echoData (server getItemData sendMsg) data key =
      .ok (sendMsg, [.sent (ascii "VALUE " ++ key ++ ascii " 0 " ++ decimal data.length ++ crlf ++
        data ++ crlf ++ ascii "END" ++ crlf)]) := by
  have digits : (decimal data.length).length ≤ 20 := by
    rw [decimal, List.length_map]
    exact (Nat.length_toDigits_le_iff (by decide) (by decide)).mpr small
  have size : (ascii "VALUE " ++ key ++ ascii " 0 " ++ decimal data.length ++ crlf).length =
      11 + key.length + (decimal data.length).length := by
    simp only [List.length_append]
    have first : (ascii "VALUE ").length = 6 := rfl
    have second : (ascii " 0 ").length = 3 := rfl
    have last : crlf.length = 2 := rfl
    omega
  have most : KEY_MAX_LENGTH = 250 := rfl
  rw [echoData, if_neg (by omega), if_neg some', if_neg (by omega)]
  rfl

/-- The longest line of the decoder. -/
def kDefaultMaxMemcachedServerLength : Nat := 150

/-- The size of an item is a `size_t`. -/
def Sized (getItemData : List UInt8 → Option (List UInt8)) : Prop :=
  ∀ key, ∀ data ∈ getItemData key, data.length < 2 ^ 64

/-- A `get` whose second token is a word. -/
theorem processGetCommand_spec (sized : Sized getItemData) {scan : Scan} {request : List UInt8}
    {offset : Nat} (isToken : scan.tokens[KEY_TOKEN]? = some ⟨.inside offset, request.length⟩)
    (isString : tokenString scan.command scan.tokens KEY_TOKEN = .ok request)
    (some' : request ≠ []) (short : request.length ≤ kDefaultMaxMemcachedServerLength) :
    processGetCommand getItemData sendMsg scan =
      .ok (sendMsg, [.got (parseRequest request),
        .sent (valueReply getItemData (parseRequest request))]) := by
  have most : KEY_MAX_LENGTH = 250 ∧ kDefaultMaxMemcachedServerLength = 150 := ⟨rfl, rfl⟩
  have positive := List.length_pos_of_ne_nil some'
  have shorter := length_parseRequest request
  rw [processGetCommand, ImgdbProxyServer.processGetCommand, withKey, isToken]
  dsimp only
  rw [if_neg (by omega), isString, ok_bind, if_neg (by omega), valueReply]
  have same : (server getItemData sendMsg).get (parseRequest request) =
      getItemData (parseRequest request) := rfl
  rw [same]
  cases found : getItemData (parseRequest request) with
  | none =>
      dsimp only
      rw [echoString_short (by decide)]
  | some data =>
      have small : data.length < 10 ^ 20 :=
        Nat.lt_trans (sized (parseRequest request) data found) (by decide)
      dsimp only
      cases data with
      | nil =>
          rw [echoData, if_neg (by omega), if_pos rfl, echoString_short (by decide)]
          rfl
      | cons c data =>
          rw [echoData_short (List.cons_ne_nil c data) small (by omega)]
          rfl

/-- A line of the decoder is answered once, without leaving any buffer. -/
theorem realProcessMsg_spec (sized : Sized getItemData) (sendMsg : Int) {line : List UInt8}
    (short : line.length ≤ kDefaultMaxMemcachedServerLength) :
    realProcessMsg getItemData sendMsg line =
      .ok (answered getItemData line ++ if sendMsg = 0 then [] else [.closed]) := by
  have noZero : 0 ∉ line.takeWhile (· ≠ 0) := by
    intro member
    have other := List.mem_takeWhile_imp member
    exact of_decide_eq_true other rfl
  obtain ⟨scan, tokens, last, tokenized, isTokens, areTokens⟩ :=
    tokenizeCommand_spec (show 1 < MAX_TOKENS by decide) noZero
  have count := areTokens.length_eq
  have prefix' : (line.takeWhile (· ≠ 0)).length ≤ line.length :=
    (List.takeWhile_prefix _).length_le
  have length : ∀ word ∈ words blank (line.takeWhile (· ≠ 0)), word.length ≤ line.length :=
    fun _ member => Nat.le_trans (length_le_of_mem_words member) prefix'
  have nonempty : ∀ word ∈ words blank (line.takeWhile (· ≠ 0)), word ≠ [] :=
    fun _ member => words_ne_nil member
  have bad : echoString (server getItemData sendMsg) (ascii "CLIENT_ERROR bad command line format") =
      (sendMsg, [.sent (ascii "CLIENT_ERROR bad command line format" ++ crlf)]) :=
    echoString_short (by decide)
  rw [realProcessMsg, processCommand, tokenized, ok_bind, answered, answer, requestedKey, isTokens,
    List.length_append, List.length_singleton, bad]
  generalize words blank (line.takeWhile (· ≠ 0)) = found at *
  match found, areTokens, count, length, nonempty with
  | [], _, count, _, _ =>
      have none' : tokens.length = 0 := count
      rw [if_pos (by omega)]
      rfl
  | [_], _, count, _, _ =>
      have one : tokens.length = 1 := count
      rw [if_pos (by omega)]
      rfl
  | command :: request :: more, areTokens, count, length, nonempty =>
      have two : 2 ≤ tokens.length := by
        rw [count]
        exact Nat.le_add_left 2 _
      have inTokens (i : Nat) (few : i < 2) : tokenString scan.command (tokens ++ [last]) i =
          ((command :: request :: more).take (MAX_TOKENS - 1))[i]?.elim (.error .outside) .ok := by
        rw [ImgdbProxyServer.tokenString_append (by omega)]
        exact ImgdbProxyServer.tokenString_eq areTokens i
      have isCommand : tokenString scan.command (tokens ++ [last]) COMMAND_TOKEN = .ok command :=
        inTokens 0 (by decide)
      rw [if_neg (by omega), isCommand, ok_bind]
      dsimp only
      by_cases isGet : command = ascii "get"
      · have second : ((command :: request :: more).take (MAX_TOKENS - 1))[1]? = some request := rfl
        obtain ⟨offset, isToken⟩ := ImgdbProxyServer.token_at areTokens second
        have member : request ∈ command :: request :: more :=
          List.mem_cons_of_mem _ List.mem_cons_self
        have isKey : scan.tokens[KEY_TOKEN]? = some ⟨.inside offset, request.length⟩ := by
          rw [isTokens]
          exact (List.getElem?_append_left two).trans isToken
        have isString : tokenString scan.command scan.tokens KEY_TOKEN = .ok request := by
          rw [isTokens]
          exact inTokens 1 (by decide)
        rw [if_pos isGet, if_pos isGet, processGetCommand_spec sized isKey isString
          (nonempty request member) (Nat.le_trans (length request member) short)]
        rfl
      · rw [if_neg isGet, if_neg isGet]
        rfl

end Answers

end MlsImgSearch.Blitz.MemcachedServer
