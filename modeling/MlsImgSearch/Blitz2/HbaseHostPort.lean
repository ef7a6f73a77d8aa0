import MlsImgSearch.Blitz2.HbaseRequests

/-!
# The address of the root server

Zookeeper keeps the address in one of two forms, and some versions put it behind a magic
byte and an id. The length of the id is a signed number of the value itself.
-/

namespace MlsImgSearch.Blitz2.HbaseHostPort

open Lib.Strings (lexicalCastInt)
open HbaseRegions (Text)
open HbaseRequests (HostPort idLength)

/-! ## The code -/

/-- The result of `ParseHostPort`: `badCast` is the exception of `lexical_cast`, `lengthError` the
one of `std::string`, and `outside` a read outside of the value. -/
inductive Outcome where
  | parsed (host : Text) (port : Int)
  | rejected
  | badCast
  | lengthError
  | outside
  deriving DecidableEq

/-- The conversion of a number to `int32_t`. -/
def int32 (n : Int) : Int := (n + 2 ^ 31) % 2 ^ 32 - 2 ^ 31

/-- The `length` bytes from `offset`, as a string. -/
def bytes (hostport : Text) (offset length : Int) : Except Outcome Text :=
  if length < 0 then .error .lengthError
  else if offset < 0 ∨ hostport.length < offset + length then .error .outside
  else .ok ((hostport.drop offset.toNat).take length.toNat)

def realHostport (hostport : Text) : Except Outcome Text :=
  if hostport.head? = some 255 then
    if hostport.length < 5 then .error .outside
    else
      let dataLength := int32 (hostport.length - 1 - 4 - idLength hostport)
      let dataOffset := int32 (1 + 4 + idLength hostport)
      bytes hostport dataOffset dataLength
  else .ok hostport

def castPort (port : Text) : Option Int := lexicalCastInt (port.map fun b => Char.ofNat b.val)

def readPieces (real : Text) : Outcome :=
  let pieces := real.splitOn 44
  -- A text without a comma is split by commas once more.
  let pieces := if pieces.length = 1 then real.splitOn 44 else pieces
  match pieces with
  | host :: port :: _ => (castPort port).elim .badCast (.parsed host)
  | _ => .rejected

def parseHostPort (hostport : Text) : Outcome :=
  match realHostport hostport with
  | .error outcome => outcome
  | .ok real => readPieces real

/-! ## Addresses -/

/-- A port in decimal. -/
def decimal (port : Nat) : Text := (Nat.toDigits 10 port).map fun c => Fin.ofNat 256 c.toNat

/-- `host:port`. -/
def Colon (x host : Text) (port : Nat) : Prop :=
  44 ∉ host ∧ 58 ∉ host ∧ port ≤ 65535 ∧ x = host ++ 58 :: decimal port

/-- `host,port,timestamp`. -/
def Comma (x host : Text) (port : Nat) : Prop :=
  44 ∉ host ∧ 58 ∉ host ∧ port ≤ 65535 ∧ ∃ stamp, x = host ++ 44 :: (decimal port ++ 44 :: stamp)

def bigEndian (four : Text) : Int := four.foldl (fun n b => n * 256 + b.val) 0

/-- The magic byte, the length of the id in four bytes, the id and the text. -/
def Wrapped (u x : Text) : Prop :=
  ∃ four id : Text, four.length = 4 ∧ bigEndian four = id.length ∧ u = 255 :: (four ++ (id ++ x))

/-- Behind the magic byte an address stands in an envelope, and elsewhere alone. -/
def IsAddress (u host : Text) (port : Nat) : Prop :=
  ∃ x, (u.head? ≠ some 255 ∧ x = u ∨ Wrapped u x) ∧ (Colon x host port ∨ Comma x host port)

/-- An address is taken with its host and port, and anything else is refused. -/
def Right (u : Text) : Prop :=
  (∀ host port, IsAddress u host port → parseHostPort u = .parsed host port) ∧
    ((∀ host port, ¬IsAddress u host port) →
      parseHostPort u = .rejected ∨ parseHostPort u = .badCast)

/-! ## The condition -/

/-- The host and the number on both sides of the first comma. -/
def Numbered (x host : Text) (port : Int) : Prop :=
  ∃ digits rest, x.splitOn 44 = host :: digits :: rest ∧ castPort digits = some port

def HasColon (x : Text) : Prop := ∃ host port, Colon x host port

def HasComma (x : Text) : Prop := ∃ host port, Comma x host port

def NoNumber (x : Text) : Prop := ∀ host port, ¬Numbered x host port

/-- A text that is not `host:port`, and has a number behind its first comma only in an address. -/
def Plain (x : Text) : Prop := ¬HasColon x ∧ (HasComma x ∨ NoNumber x)

/-- What stands behind the id. -/
def behind (u : Text) : Text := u.drop (5 + idLength u).toNat

def Inside (u : Text) : Prop :=
  5 ≤ u.length ∧ 0 ≤ 5 + idLength u ∧ 5 + idLength u ≤ u.length

/-- The text behind the id lies within the string; with a negative length of the id it is no
address, and then it has no number behind its first comma. -/
def Enveloped (u : Text) : Prop :=
  Inside u ∧ if 0 ≤ idLength u then Plain (behind u) else NoNumber (behind u)

def Legible (u : Text) : Prop := if u.head? = some 255 then Enveloped u else Plain u

/-! ## The pieces of the text -/

variable {u x host : Text} {port : Nat}

theorem int32_eq {n : Int} (range : -2 ^ 31 ≤ n ∧ n < 2 ^ 31) : int32 n = n := by
  unfold int32
  omega

theorem decimal_char {c : Char} (digit : c.isDigit) :
    Char.ofNat (Fin.ofNat 256 c.toNat).val = c := by
  obtain ⟨_, high⟩ := Char.isDigit_iff_toNat.mp digit
  have small : c.toNat % 256 = c.toNat := Nat.mod_eq_of_lt (Nat.lt_of_le_of_lt high (by decide))
  show Char.ofNat (c.toNat % 256) = c
  rw [small, Char.ofNat_toNat]

theorem mem_decimal {b : Fin 256} (member : b ∈ decimal port) : 48 ≤ b.val ∧ b.val ≤ 57 := by
  obtain ⟨c, printed, rfl⟩ := List.mem_map.mp member
  obtain ⟨low, high⟩ := Char.isDigit_iff_toNat.mp
    (Nat.isDigit_of_mem_toDigits (by decide) (by decide) printed)
  have small : c.toNat % 256 = c.toNat := Nat.mod_eq_of_lt (Nat.lt_of_le_of_lt high (by decide))
  show 48 ≤ c.toNat % 256 ∧ c.toNat % 256 ≤ 57
  rw [small]
  exact ⟨low, high⟩

theorem comma_not_mem_decimal : 44 ∉ decimal port :=
  fun member => absurd (mem_decimal member).1 (by decide)

/-- A port is read as it was written. -/
theorem castPort_decimal (small : port ≤ 65535) : castPort (decimal port) = some (port : Int) := by
  have text : (decimal port).map (fun b => Char.ofNat b.val) = Lib.Strings.intText port := by
    have unsigned : Lib.Strings.intText port = Nat.toDigits 10 port := if_neg (by omega)
    rw [unsigned, decimal, List.map_map]
    refine (List.map_congr_left fun c printed => ?_).trans (List.map_id _)
    exact decimal_char (Nat.isDigit_of_mem_toDigits (by decide) (by decide) printed)
  rw [castPort, text, Lib.Strings.lexicalCastInt_intText, if_pos (by omega)]

theorem readPieces_eq (x : Text) :
    readPieces x = match x.splitOn 44 with
      | host :: port :: _ => (castPort port).elim .badCast (.parsed host)
      | _ => .rejected := by
  unfold readPieces
  simp only [ite_self]

theorem readPieces_numbered {port : Int} (numbered : Numbered x host port) :
    readPieces x = .parsed host port := by
  obtain ⟨digits, rest, pieces, value⟩ := numbered
  rw [readPieces_eq, pieces]
  show (castPort digits).elim Outcome.badCast (Outcome.parsed host) = _
  rw [value]
  rfl

/-- Without a number behind the first comma the text is refused. -/
theorem readPieces_noNumber (none : NoNumber x) :
    readPieces x = .rejected ∨ readPieces x = .badCast := by
  rw [readPieces_eq]
  match pieces : x.splitOn 44 with
  | [] => exact Or.inl rfl
  | [_] => exact Or.inl rfl
  | host :: digits :: rest =>
      cases value : castPort digits with
      | none =>
          right
          show (castPort digits).elim Outcome.badCast (Outcome.parsed host) = _
          rw [value]
          rfl
      | some port => exact absurd ⟨digits, rest, pieces, value⟩ (none host port)

theorem numbered_iff {port : Int} : Numbered x host port ↔ readPieces x = .parsed host port := by
  refine ⟨readPieces_numbered, fun parsed => ?_⟩
  by_contra other
  by_cases none : NoNumber x
  · rcases readPieces_noNumber none with refused | refused <;> rw [refused] at parsed <;>
      cases parsed
  · obtain ⟨name, number, numbered⟩ : ∃ name number, Numbered x name number := by
      simpa [NoNumber] using none
    have same := (readPieces_numbered numbered).symm.trans parsed
    cases same
    exact other numbered

theorem refused_iff :
    (readPieces x = .rejected ∨ readPieces x = .badCast) ↔ NoNumber x := by
  refine ⟨fun refused name number numbered => ?_, readPieces_noNumber⟩
  rcases refused with refused | refused <;>
    rw [readPieces_numbered numbered] at refused <;> cases refused

theorem Comma.numbered (comma : Comma x host port) : Numbered x host port := by
  obtain ⟨plain, _, small, stamp, rfl⟩ := comma
  refine ⟨decimal port, stamp.splitOn 44, ?_, castPort_decimal small⟩
  rw [List.splitOn_append_cons_self_of_not_mem plain,
    List.splitOn_append_cons_self_of_not_mem comma_not_mem_decimal]

theorem noNumber_of_not_mem (plain : 44 ∉ x) : NoNumber x := by
  rintro name number ⟨digits, rest, pieces, _⟩
  rw [List.splitOn_eq_singleton plain] at pieces
  cases pieces

theorem Colon.not_mem (colon : Colon x host port) : 44 ∉ x := by
  obtain ⟨plain, _, _, rfl⟩ := colon
  intro member
  rcases List.mem_append.mp member with inside | inside
  · exact plain inside
  · rcases List.mem_cons.mp inside with wrong | inside
    · exact absurd wrong (by decide)
    · exact comma_not_mem_decimal inside

/-! ## The envelope -/

theorem idLength_eq (u : Text) :
    idLength u = if bigEndian ((u.drop 1).take 4) < 2 ^ 31 then bigEndian ((u.drop 1).take 4)
      else bigEndian ((u.drop 1).take 4) - 2 ^ 32 := rfl

theorem bigEndian_range {four : Text} (length : four.length = 4) :
    0 ≤ bigEndian four ∧ bigEndian four < 2 ^ 32 := by
  match four, length with
  | [a, b, c, d], _ =>
      have value : bigEndian [a, b, c, d] =
          (((0 * 256 + a.val) * 256 + b.val) * 256 + c.val) * 256 + d.val := rfl
      rw [value]
      omega

theorem take_four (long : 5 ≤ u.length) : ((u.drop 1).take 4).length = 4 := by
  rw [List.length_take, List.length_drop]
  omega

theorem idLength_range (long : 5 ≤ u.length) : -2 ^ 31 ≤ idLength u ∧ idLength u < 2 ^ 31 := by
  have range := bigEndian_range (take_four long)
  rw [idLength_eq]
  split <;> omega

/-- The text of an envelope is what the code reads. -/
theorem wrapped_iff (short : u.length < 2 ^ 31) :
    Wrapped u x ↔ u.head? = some 255 ∧ Inside u ∧ 0 ≤ idLength u ∧ x = behind u := by
  constructor
  · rintro ⟨four, id, length, size, rfl⟩
    have total : (255 :: (four ++ (id ++ x))).length = 5 + id.length + x.length := by
      simp only [List.length_cons, List.length_append]
      omega
    have first : ((255 :: (four ++ (id ++ x))).drop 1).take 4 = four := List.take_left' length
    have value : idLength (255 :: (four ++ (id ++ x))) = id.length := by
      rw [idLength_eq, first, size, if_pos (by omega)]
    refine ⟨rfl, ⟨by omega, by omega, by omega⟩, by omega, ?_⟩
    have offset : (5 + (id.length : Int)).toNat = 1 + 4 + id.length := by omega
    rw [behind, value, offset, ← List.drop_drop, ← List.drop_drop]
    show x = ((four ++ (id ++ x)).drop 4).drop id.length
    rw [List.drop_left' length, List.drop_left]
  · rintro ⟨magic, ⟨long, _, inside⟩, positive, rfl⟩
    obtain ⟨tail, rfl⟩ := List.head?_eq_some_iff.mp magic
    have range := bigEndian_range (take_four long)
    have value : bigEndian (tail.take 4) = idLength (255 :: tail) := by
      rw [idLength_eq] at positive ⊢
      show bigEndian (((255 :: tail).drop 1).take 4) = _
      split at positive
      · next small => rw [if_pos small]
      · omega
    rw [List.length_cons] at long inside
    refine ⟨tail.take 4, (tail.drop 4).take (idLength (255 :: tail)).toNat, ?_, ?_, ?_⟩
    · rw [List.length_take]
      omega
    · rw [value, List.length_take, List.length_drop]
      omega
    · have offset : (5 + idLength (255 :: tail)).toNat =
          (4 + (idLength (255 :: tail)).toNat) + 1 := by omega
      rw [behind, offset, List.drop_succ_cons, ← List.drop_drop, List.take_append_drop,
        List.take_append_drop]

theorem parseHostPort_bare (bare : u.head? ≠ some 255) : parseHostPort u = readPieces u := by
  rw [parseHostPort, realHostport, if_neg bare]

theorem parseHostPort_inside (short : u.length < 2 ^ 31) (magic : u.head? = some 255)
    (inside : Inside u) : parseHostPort u = readPieces (behind u) := by
  obtain ⟨long, low, high⟩ := inside
  have whole : realHostport u = .ok (behind u) := by
    rw [realHostport, if_pos magic, if_neg (by omega)]
    dsimp only
    rw [int32_eq (by omega), int32_eq (by omega), bytes, if_neg (by omega), if_neg (by omega)]
    congr 1
    have offset : (1 + 4 + idLength u).toNat = (5 + idLength u).toNat := by omega
    rw [offset, behind]
    refine List.take_of_length_le ?_
    rw [List.length_drop]
    omega
  rw [parseHostPort, whole]

/-- Any other length of the id makes `std::string` throw, or read outside of the value. -/
theorem parseHostPort_outside (short : u.length < 2 ^ 31) (magic : u.head? = some 255)
    (outside : ¬Inside u) :
    parseHostPort u = .lengthError ∨ parseHostPort u = .outside := by
  have failed : realHostport u = .error .lengthError ∨ realHostport u = .error .outside := by
    rw [realHostport, if_pos magic]
    by_cases long : u.length < 5
    · exact Or.inr (if_pos long)
    · rw [if_neg long]
      have range := idLength_range (u := u) (by omega)
      dsimp only
      unfold bytes
      by_cases negative : int32 (u.length - 1 - 4 - idLength u) < 0
      · exact Or.inl (if_pos negative)
      · rw [if_neg negative]
        refine Or.inr (if_pos ?_)
        unfold Inside at outside
        unfold int32 at negative ⊢
        omega
  rcases failed with failed | failed
  · exact Or.inl (by rw [parseHostPort, failed])
  · exact Or.inr (by rw [parseHostPort, failed])

/-- The two failures outside of `lexical_cast` are faults of the requests as well. -/
theorem requests_parseHostPort (short : u.length < 2 ^ 31) :
    HbaseRequests.parseHostPort u = match parseHostPort u with
      | .parsed host port => .parsed host port
      | .rejected => .rejected
      | _ => .fault := by
  have pieces : ∀ real : Text, (match real.splitOn 44 with
      | host :: port :: _ => (castPort port).elim HostPort.fault (HostPort.parsed host)
      | _ => .rejected) = match readPieces real with
      | .parsed host port => HostPort.parsed host port
      | .rejected => .rejected
      | _ => .fault := by
    intro real
    rw [readPieces_eq]
    match real.splitOn 44 with
    | [] => rfl
    | [_] => rfl
    | host :: digits :: rest =>
        dsimp only
        cases castPort digits with
        | none => rfl
        | some port => rfl
  unfold HbaseRequests.parseHostPort
  by_cases magic : u.head? = some 255
  · by_cases inside : Inside u
    · have real : HbaseRequests.realHostport u = some (behind u) := by
        rw [HbaseRequests.realHostport, if_pos magic]
        exact if_pos inside
      rw [real, parseHostPort_inside short magic inside]
      exact pieces (behind u)
    · have real : HbaseRequests.realHostport u = none := by
        rw [HbaseRequests.realHostport, if_pos magic]
        exact if_neg inside
      rw [real]
      rcases parseHostPort_outside short magic inside with failed | failed <;> rw [failed]
  · have real : HbaseRequests.realHostport u = some u := if_neg magic
    rw [real, parseHostPort_bare magic]
    exact pieces u

/-! ## Which texts are parsed right -/

theorem isAddress_bare (bare : u.head? ≠ some 255) :
    IsAddress u host port ↔ Colon u host port ∨ Comma u host port := by
  refine ⟨?_, fun form => ⟨u, Or.inl ⟨bare, rfl⟩, form⟩⟩
  rintro ⟨x, ⟨_, rfl⟩ | ⟨four, id, _, _, rfl⟩, form⟩
  · exact form
  · exact absurd rfl bare

theorem isAddress_magic (short : u.length < 2 ^ 31) (magic : u.head? = some 255)
    (inside : Inside u) : IsAddress u host port ↔
      0 ≤ idLength u ∧ (Colon (behind u) host port ∨ Comma (behind u) host port) := by
  constructor
  · rintro ⟨x, ⟨bare, _⟩ | wrapped, form⟩
    · exact absurd magic bare
    · obtain ⟨_, _, positive, rfl⟩ := (wrapped_iff short).mp wrapped
      exact ⟨positive, form⟩
  · rintro ⟨positive, form⟩
    exact ⟨behind u, Or.inr ((wrapped_iff short).mpr ⟨magic, inside, positive, rfl⟩), form⟩

theorem right_iff_numbered {real : Text} (read : parseHostPort u = readPieces real) :
    Right u ↔ (∀ host port, IsAddress u host port → Numbered real host port) ∧
      ((∀ host port, ¬IsAddress u host port) → NoNumber real) := by
  unfold Right
  rw [read, refused_iff]
  simp only [numbered_iff]

/-- Of the two forms of a text only the one with commas is taken. -/
theorem forms_iff_plain :
    ((∀ host port, Colon x host port ∨ Comma x host port → Numbered x host port) ∧
      ((∀ host port, ¬(Colon x host port ∨ Comma x host port)) → NoNumber x)) ↔ Plain x := by
  constructor
  · rintro ⟨taken, refused⟩
    have noColon : ¬HasColon x := fun ⟨host, port, colon⟩ =>
      noNumber_of_not_mem colon.not_mem host port (taken host port (Or.inl colon))
    refine ⟨noColon, ?_⟩
    by_cases comma : HasComma x
    · exact Or.inl comma
    · refine Or.inr (refused fun host port form => ?_)
      rcases form with form | form
      · exact noColon ⟨host, port, form⟩
      · exact comma ⟨host, port, form⟩
  · rintro ⟨noColon, other⟩
    refine ⟨fun host port form => ?_, fun none => ?_⟩
    · rcases form with form | form
      · exact absurd ⟨host, port, form⟩ noColon
      · exact form.numbered
    · rcases other with ⟨host, port, comma⟩ | noNumber
      · exact absurd (Or.inr comma) (none host port)
      · exact noNumber

theorem right_bare (bare : u.head? ≠ some 255) : Right u ↔ Plain u := by
  rw [right_iff_numbered (parseHostPort_bare bare)]
  simp only [isAddress_bare bare]
  exact forms_iff_plain

theorem right_inside (short : u.length < 2 ^ 31) (magic : u.head? = some 255)
    (inside : Inside u) : Right u ↔ Enveloped u := by
  rw [right_iff_numbered (parseHostPort_inside short magic inside), Enveloped,
    and_iff_right inside]
  simp only [isAddress_magic short magic inside]
  by_cases positive : 0 ≤ idLength u
  · rw [if_pos positive, ← forms_iff_plain]
    simp only [positive, true_and]
  · rw [if_neg positive]
    refine ⟨fun right => right.2 fun host port form => positive form.1, fun none => ?_⟩
    exact ⟨fun host port form => absurd form.1 positive, fun _ => none⟩

theorem not_right_outside (short : u.length < 2 ^ 31) (magic : u.head? = some 255)
    (outside : ¬Inside u) : ¬Right u := by
  rintro ⟨taken, refused⟩
  have failed := parseHostPort_outside short magic outside
  by_cases address : ∃ host port, IsAddress u host port
  · obtain ⟨host, port, form⟩ := address
    rw [taken host port form] at failed
    rcases failed with failed | failed <;> cases failed
  · rcases refused fun host port form => address ⟨host, port, form⟩ with result | result <;>
      rw [result] at failed <;> rcases failed with failed | failed <;> cases failed

/-- `value_len` is an `int`, so that no value is longer. -/
theorem right_iff_legible (u : Text) (short : u.length < 2 ^ 31) : Right u ↔ Legible u := by
  unfold Legible
  by_cases magic : u.head? = some 255
  · rw [if_pos magic]
    by_cases inside : Inside u
    · exact right_inside short magic inside
    · exact iff_of_false (not_right_outside short magic inside) fun e => inside e.1
  · rw [if_neg magic]
    exact right_bare magic

/-- `h,80,1` behind an id of two bytes. -/
theorem right_envelope : Right [255, 0, 0, 0, 2, 105, 100, 104, 44, 56, 48, 44, 49] := by
  refine (right_iff_legible _ (by decide)).mpr ?_
  refine (if_pos rfl).mpr ⟨⟨by decide, by decide, by decide⟩, (if_pos (by decide)).mpr ⟨?_, ?_⟩⟩
  · rintro ⟨host, port, colon⟩
    exact colon.not_mem (by decide)
  · exact Or.inl ⟨[104], 80, by decide, by decide, by decide, [49], by decide⟩

/-- `h:80` is not taken. -/
theorem not_right_colon : ¬Right [104, 58, 56, 48] := by
  rintro ⟨taken, _⟩
  have colon : Colon [104, 58, 56, 48] [104] 80 := ⟨by decide, by decide, by decide, by decide⟩
  have parsed := taken [104] 80 ⟨_, Or.inl ⟨by decide, rfl⟩, Or.inl colon⟩
  rw [parseHostPort_bare (by decide)] at parsed
  exact noNumber_of_not_mem colon.not_mem _ _ (numbered_iff.mpr parsed)

end MlsImgSearch.Blitz2.HbaseHostPort
