import MlsImgSearch.Lib.Bytes
import MlsImgSearch.Lib.Run

/-!
# The receive buffer of the HTTP client

`HttpClient` keeps one record of a buffer, its size and how much of it is used.
`RecvDataCallback` allocates the buffer of the caller when the first bytes of a
response arrive and sets the record then. `SendRequest` reports what the record
says after the response. Allocations succeed, and no size reaches `2 ^ 64`.
-/

namespace MlsImgSearch.Common.HttpClient

open MlsImgSearch.Lib.Bytes MlsImgSearch.Lib.Run

/-! ## The client -/

/-- `recv_buf_`; the outer `none` is a caller who wants no data, the inner one a null pointer in the
caller's variable. -/
structure HttpRecvBuf where
  buf : Option (Option (List UInt8))
  size : Nat
  used : Nat

inductive HttpMethod where
  | get
  | post
  | upload
  | head
  deriving DecidableEq

inductive CurlCode where
  | ok
  | httpReturnedError
  | other

inductive Ret where
  | success
  | wrongPostData
  | curlPerformFailed
  | httpReturnError

/-- A request and what comes back: the result of `curl_easy_perform` and the chunks of the response.
A POST has data. -/
structure Request where
  method : HttpMethod
  optionData : List UInt8
  code : CurlCode
  chunks : List (List UInt8)
  posted : method = .post → optionData ≠ []

def kEachReallocSize : Nat := 102400

/-- By how much the buffer grows. -/
def growth (recvDataLen : Nat) : Nat :=
  if recvDataLen > kEachReallocSize then recvDataLen else kEachReallocSize

/-- `realloc` to a larger size; the new bytes are arbitrary. -/
def realloc (junk : Nat → UInt8) (block : List UInt8) (size : Nat) : List UInt8 :=
  block ++ (malloc junk size).drop block.length

/-- The difference of two `size_t`. -/
def subSize (a b : Nat) : Int := ((a : Int) - b) % 2 ^ 64

/-- `memcpy` and the count behind it; `none` outside the buffer. -/
def store (r : HttpRecvBuf) (block chunk : List UInt8) : Option HttpRecvBuf :=
  (writeAt block r.used chunk).map fun block =>
    { r with buf := some (some block), used := r.used + chunk.length }

def recvDataCallback (junk : Nat → UInt8) (r : HttpRecvBuf) (chunk : List UInt8) :
    Option HttpRecvBuf :=
  match r.buf with
  | none => some r
  | some none =>
      let size := growth chunk.length
      store { r with size := size, used := 0 } (malloc junk size) chunk
  | some (some block) =>
      if subSize r.size r.used < chunk.length then
        let size := r.size + growth chunk.length
        store { r with size := size } (realloc junk block size) chunk
      else store r block chunk

/-- What `*recvd` is set to, the result and the record; `none` for `*recvd` is a variable that is not
written. -/
def sendRequest (junk : Nat → UInt8) (recvBuf : Option (Option (List UInt8))) (request : Request)
    (r : HttpRecvBuf) : Option (Ret × Option Nat × HttpRecvBuf) :=
  if request.method = .post ∧ request.optionData = [] then some (.wrongPostData, none, r)
  else
    (exec (recvDataCallback junk) { r with buf := recvBuf } request.chunks).map fun r =>
      (match request.code with
        | .ok => .success
        | .httpReturnedError => .httpReturnError
        | .other => .curlPerformFailed,
        some r.used, r)

/-- A request with a null pointer in the caller's variable. -/
def step (junk : Nat → UInt8) (r : HttpRecvBuf) (request : Request) : Option HttpRecvBuf :=
  (sendRequest junk (some none) request r).map fun (_, _, r) => r

/-! ## The contract -/

/-- The caller's bytes. -/
def received (r : HttpRecvBuf) : List UInt8 := ((r.buf.getD none).getD []).take r.used

/-- The response is in the buffer, `*recvd` is its length, and after each chunk the used part is
inside the buffer. -/
structure Right (junk : Nat → UInt8) (r : HttpRecvBuf) (request : Request) : Prop where
  stored : ∃ ret r', sendRequest junk (some none) request r =
    some (ret, some request.chunks.flatten.length, r') ∧ received r' = request.chunks.flatten
  inside : ∀ earlier, earlier <+: request.chunks → earlier ≠ [] → ∀ r',
    exec (recvDataCallback junk) { r with buf := some none } earlier = some r' → r'.used ≤ r'.size

/-- A chunk arrives, or what the record says is that nothing was used. -/
def Fresh (r : HttpRecvBuf) (request : Request) : Prop := request.chunks ≠ [] ∨ r.used = 0

instance (r : HttpRecvBuf) (request : Request) : Decidable (Fresh r request) :=
  inferInstanceAs (Decidable (_ ∨ _))

/-! ## One response -/

section Response

variable {junk : Nat → UInt8} {r : HttpRecvBuf} {written : List UInt8}

/-- The buffer holds what has been written. -/
structure Holds (r : HttpRecvBuf) (block written : List UInt8) : Prop where
  buf : r.buf = some (some block)
  size : block.length = r.size
  used : r.used = written.length
  inside : r.used ≤ r.size
  content : block.take r.used = written

theorem le_growth (n : Nat) : n ≤ growth n := by
  unfold growth
  split <;> omega

theorem store_holds {block chunk : List UInt8} (size : block.length = r.size)
    (used : r.used = written.length) (content : block.take r.used = written)
    (room : r.used + chunk.length ≤ block.length) :
    ∃ r' block', store r block chunk = some r' ∧ Holds r' block' (written ++ chunk) := by
  have stored := writeAt_eq_some room
  refine ⟨_, _, by rw [store, stored, Option.map_some], rfl, ?_, ?_, ?_, ?_⟩
  · rw [length_writeAt stored, size]
  · change r.used + chunk.length = _
    rw [used, List.length_append]
  · exact Nat.le_trans room (Nat.le_of_eq size)
  · change List.take (r.used + chunk.length) _ = _
    rw [take_writeAt stored, content]

/-- The first chunk sets the record. -/
theorem recv_first (junk : Nat → UInt8) (unset : r.buf = some none) (chunk : List UInt8) :
    ∃ r' block, recvDataCallback junk r chunk = some r' ∧ Holds r' block chunk := by
  have room : 0 + chunk.length ≤ (malloc junk (growth chunk.length)).length := by
    rw [length_malloc, Nat.zero_add]
    exact le_growth _
  have new : (malloc junk (growth chunk.length)).length =
      ({ r with size := growth chunk.length, used := 0 } : HttpRecvBuf).size := length_malloc ..
  obtain ⟨r', block, stored, holds⟩ := store_holds new (show 0 = ([] : List UInt8).length from rfl)
    (List.take_zero ..) room
  exact ⟨r', block, by rw [recvDataCallback, unset]; exact stored, holds⟩

theorem length_realloc {block : List UInt8} {size : Nat} (larger : block.length ≤ size) :
    (realloc junk block size).length = size := by
  rw [realloc, List.length_append, List.length_drop, length_malloc]
  omega

/-- The buffer grows when there is no room for the chunk. -/
theorem Holds.recv {block : List UInt8} (holds : Holds r block written) (junk : Nat → UInt8)
    (chunk : List UInt8) :
    ∃ r' block', recvDataCallback junk r chunk = some r' ∧ Holds r' block' (written ++ chunk) := by
  have grows := le_growth chunk.length
  have inside := holds.inside
  rw [recvDataCallback, holds.buf]
  dsimp only
  split
  · have size : (realloc junk block (r.size + growth chunk.length)).length =
        ({ r with size := r.size + growth chunk.length } : HttpRecvBuf).size :=
      length_realloc (by rw [holds.size]; exact Nat.le_add_right ..)
    refine store_holds size holds.used ?_ ?_
    · rw [realloc, List.take_append_of_le_length (by rw [holds.size]; exact inside), holds.content]
    · rw [size]
      change r.used + chunk.length ≤ r.size + growth chunk.length
      omega
  · next fits =>
      refine store_holds holds.size holds.used holds.content ?_
      have wrapped : subSize r.size r.used ≤ (r.size : Int) - r.used := by
        unfold subSize
        omega
      rw [holds.size]
      omega

theorem Holds.recv_all {block : List UInt8} (holds : Holds r block written) (junk : Nat → UInt8)
    (chunks : List (List UInt8)) : ∃ r' block', exec (recvDataCallback junk) r chunks = some r' ∧
      Holds r' block' (written ++ chunks.flatten) := by
  induction chunks generalizing r block written with
  | nil => exact ⟨r, block, rfl, by rwa [List.flatten_nil, List.append_nil]⟩
  | cons chunk chunks ih =>
      obtain ⟨mid, midBlock, first, midHolds⟩ := holds.recv junk chunk
      obtain ⟨r', block', rest, holds'⟩ := ih midHolds
      refine ⟨r', block', by rw [exec, first, Option.bind_some, rest], ?_⟩
      rwa [List.flatten_cons, ← List.append_assoc]

/-- A response with a chunk. -/
theorem recv_response (junk : Nat → UInt8) {chunks : List (List UInt8)} (unset : r.buf = some none)
    (nonempty : chunks ≠ []) : ∃ r' block, exec (recvDataCallback junk) r chunks = some r' ∧
      Holds r' block chunks.flatten := by
  obtain ⟨chunk, chunks, rfl⟩ := List.exists_cons_of_ne_nil nonempty
  obtain ⟨mid, midBlock, first, midHolds⟩ := recv_first junk unset chunk
  obtain ⟨r', block, rest, holds⟩ := midHolds.recv_all junk chunks
  exact ⟨r', block, by rw [exec, first, Option.bind_some, rest], holds⟩

end Response

section Requests

variable {junk : Nat → UInt8} {r : HttpRecvBuf} {request : Request}

theorem sendRequest_performed :
    sendRequest junk (some none) request r =
      (exec (recvDataCallback junk) { r with buf := some none } request.chunks).map fun r =>
        (match request.code with
          | .ok => .success
          | .httpReturnedError => .httpReturnError
          | .other => .curlPerformFailed,
          some r.used, r) := by
  rw [sendRequest, if_neg]
  rintro ⟨post, empty⟩
  exact request.posted post empty

/-- A response without a chunk is reported with what the record says. -/
theorem right_iff_fresh : Right junk r request ↔ Fresh r request := by
  constructor
  · intro right
    by_cases none' : request.chunks = []
    · right
      obtain ⟨ret, r', sent, -⟩ := right.stored
      rw [sendRequest_performed, none'] at sent
      have reported : some r.used = some 0 :=
        congrArg (fun out => out.2.1) (Option.some.inj sent)
      exact Option.some.inj reported
    · exact .inl none'
  · rintro fresh
    refine ⟨?_, ?_⟩
    · rw [sendRequest_performed]
      by_cases none' : request.chunks = []
      · have unused := fresh.resolve_left (not_not_intro none')
        refine ⟨_, _, by rw [none', exec, Option.map_some, unused]; rfl, ?_⟩
        rw [none']
        rfl
      · obtain ⟨r', block, ran, holds⟩ := recv_response junk
          (r := { r with buf := some none }) rfl none'
        refine ⟨_, r', by rw [ran, Option.map_some, holds.used], ?_⟩
        rw [received, holds.buf]
        exact holds.content
    · intro earlier before nonempty r' ran
      obtain ⟨r'', block, ran', holds⟩ := recv_response junk
        (r := { r with buf := some none }) rfl nonempty
      obtain rfl := Option.some.inj (ran.symm.trans ran')
      exact holds.inside

/-- In a run every response is reported right when each one has a chunk or comes while the record
says that nothing is used. -/
theorem all_right_iff_all_fresh (junk : Nat → UInt8) (r : HttpRecvBuf) (requests : List Request) :
    Meets (step junk) (Right junk) r requests ↔ Meets (step junk) Fresh r requests :=
  meets_congr (fun _ _ (_ : True) => right_iff_fresh) (fun _ _ _ _ _ _ => trivial) trivial

/-- A page of one byte, and then an empty page. -/
def emptySecond : List Request :=
  [⟨.get, [], .ok, [[49]], nofun⟩, ⟨.get, [], .ok, [], nofun⟩]

/-- The empty page is reported with the length of the first one. -/
theorem not_right_second :
    ¬ Meets (step fun _ => 0) (Right fun _ => 0) ⟨none, 0, 0⟩ emptySecond := by
  rintro ⟨-, later⟩
  obtain ⟨r', block, ran, holds⟩ := recv_response (fun _ => 0) (r := ⟨some none, 0, 0⟩) rfl
    (List.cons_ne_nil [49] [])
  have first : step (fun _ => 0) ⟨none, 0, 0⟩ ⟨.get, [], .ok, [[49]], nofun⟩ = some r' := by
    rw [step, sendRequest_performed, ran]
    rfl
  have used : r'.used = 1 := holds.used
  rcases right_iff_fresh.mp (later r' first).1 with chunks | unused
  · exact chunks rfl
  · omega

end Requests

end MlsImgSearch.Common.HttpClient
