import Mathlib.Data.List.TakeDrop
import MlsImgSearch.Blitz.HttpCommon

/-!
# The URI of a request

`HttpRequest::ParseUri` splits a URI into a path, an anchor and parameters. The
anchor stands in front of the question mark. Values are percent-decoded.
-/

namespace MlsImgSearch.Blitz2.HttpUri

open Blitz.HttpCommon (digitValue)

/-- The values of a name, in the order of the names' first occurrence. -/
abbrev ParamsMap := List (List UInt8 × List (List UInt8))

/-- `path_`, `anchor_` and `params_`. -/
structure Uri where
  path : List UInt8 := []
  anchor : List UInt8 := []
  params : ParamsMap := []
  deriving DecidableEq

def hexVal (c : UInt8) : Int :=
  if 48 ≤ c ∧ c ≤ 57 then c.toNat - 48
  else if 97 ≤ c ∧ c ≤ 102 then c.toNat - 97 + 10
  else if 65 ≤ c ∧ c ≤ 70 then c.toNat - 65 + 10
  else -1

/-- `HexVal(high) << 4 | HexVal(low)` as a `char`. -/
def unescape (high low : UInt8) : UInt8 :=
  .ofBitVec ((BitVec.ofInt 32 (hexVal high) <<< 4 ||| BitVec.ofInt 32 (hexVal low)).setWidth 8)

/-- The value behind what was read of it, and the text from the `&` on. -/
def parseValue : List UInt8 → List UInt8 → List UInt8 × List UInt8
  | [], value => (value, [])
  | c :: rest, value =>
      if c = 38 then (value, c :: rest)
      else if c = 37 then
        match rest with
        | [] => (value, [])
        -- behind the URI stands the blank in front of the version
        | [high] => (value ++ [unescape high 32], [])
        | high :: low :: rest => parseValue rest (value ++ [unescape high low])
      else parseValue rest (value ++ [c])

/-- `GetParam(name, true)->push_back(value)`. -/
def addParam (params : ParamsMap) (name value : List UInt8) : ParamsMap :=
  if params.any fun param => param.1 == name then
    params.map fun param => if param.1 == name then (param.1, param.2 ++ [value]) else param
  else params ++ [(name, [value])]

/-- The loop over the parameters. Each turn reads a byte or more, so that the length is enough
fuel. -/
def parseParams : Nat → List UInt8 → ParamsMap → ParamsMap
  | 0, _, params => params
  | fuel + 1, uri, params =>
      if uri = [] then params
      else
        let name := uri.takeWhile (· != 61)
        match uri.dropWhile (· != 61) with
        | [] => addParam params name []
        | _ :: rest =>
            let split := parseValue rest []
            parseParams fuel split.2.tail (addParam params name split.1)

/-- The parts of a URI; the parameters are added to those that are there. -/
def parseUri (old : Uri) (uri : List UInt8) : Uri :=
  let path := uri.takeWhile fun c => c != 63 && c != 35
  match uri.dropWhile fun c => c != 63 && c != 35 with
  | [] => { old with path }
  | c :: rest =>
      if c = 35 then
        let query := rest.dropWhile (· != 63)
        { path
          anchor := rest.takeWhile (· != 63)
          params := parseParams query.length query.tail old.params }
      else { old with path, params := parseParams rest.length rest old.params }

/-! ## Well-formed URIs -/

/-- A byte of a value: as it is, or with two hexadecimal digits. -/
inductive ValueByte where
  | plain (c : UInt8) (ok : c ≠ 37 ∧ c ≠ 38)
  | escaped (high low : UInt8) (d e : Fin 16) (isHigh : digitValue high = some d.val)
      (isLow : digitValue low = some e.val)

namespace ValueByte

def text : ValueByte → List UInt8
  | .plain c _ => [c]
  | .escaped high low .. => [37, high, low]

def byte : ValueByte → UInt8
  | .plain c _ => c
  | .escaped _ _ d e .. => .ofNat (16 * d + e)

end ValueByte

structure Param where
  name : List UInt8
  value : List ValueByte
  nameOk : ∀ c ∈ name, c ≠ 61 ∧ c ≠ 38

def Param.text (p : Param) : List UInt8 := p.name ++ 61 :: p.value.flatMap ValueByte.text

/-- A path, an anchor and parameters. -/
structure Target where
  path : List UInt8
  anchor : Option (List UInt8)
  params : List Param
  pathOk : ∀ c ∈ path, c ≠ 63 ∧ c ≠ 35
  anchorOk : ∀ anchor', anchor = some anchor' → 63 ∉ anchor'

namespace Target

def query (t : Target) : List UInt8 :=
  if t.params = [] then [] else 63 :: [38].intercalate (t.params.map Param.text)

def text (t : Target) : List UInt8 :=
  t.path ++ ((t.anchor.map (35 :: ·)).getD [] ++ t.query)

/-- The parts that are to be found. -/
def uri (t : Target) : Uri :=
  { path := t.path
    anchor := t.anchor.getD []
    params := t.params.foldl (fun params p => addParam params p.name (p.value.map ValueByte.byte)) [] }

end Target

/-! ## Parsing -/

section Parse

theorem hexVal_eq {c : UInt8} {d : Nat} (small : d < 16) (digit : digitValue c = some d) :
    hexVal c = d := by
  unfold digitValue at digit
  unfold hexVal
  split at digit
  · next range =>
      have low := UInt8.le_iff_toNat_le.mp range.1
      have value := Option.some.inj digit
      have least : (48 : UInt8).toNat = 48 := rfl
      rw [if_pos range]
      omega
  · next notDecimal =>
      split at digit
      · next range =>
          have low := UInt8.le_iff_toNat_le.mp range.1
          have value := Option.some.inj digit
          have least : (65 : UInt8).toNat = 65 := rfl
          have upper : c ≤ 70 := UInt8.le_iff_toNat_le.mpr (show c.toNat ≤ 70 by omega)
          have notLower : ¬ (97 ≤ c ∧ c ≤ 102) := by
            rintro ⟨above, -⟩
            have above' : 97 ≤ c.toNat := UInt8.le_iff_toNat_le.mp above
            omega
          rw [if_neg notDecimal, if_neg notLower, if_pos ⟨range.1, upper⟩]
          omega
      · split at digit
        · next range =>
            have low := UInt8.le_iff_toNat_le.mp range.1
            have value := Option.some.inj digit
            have least : (97 : UInt8).toNat = 97 := rfl
            have upper : c ≤ 102 := UInt8.le_iff_toNat_le.mpr (show c.toNat ≤ 102 by omega)
            rw [if_neg notDecimal, if_pos ⟨range.1, upper⟩]
            omega
        · cases digit

/-- Two hexadecimal digits give their byte. -/
theorem unescape_eq {high low : UInt8} {d e : Fin 16} (isHigh : digitValue high = some d.val)
    (isLow : digitValue low = some e.val) : unescape high low = .ofNat (16 * d + e) := by
  have all : ∀ d e : Fin 16, UInt8.ofBitVec
      ((BitVec.ofInt 32 d <<< 4 ||| BitVec.ofInt 32 e).setWidth 8) = .ofNat (16 * d + e) := by
    decide +kernel
  rw [unescape, hexVal_eq d.isLt isHigh, hexVal_eq e.isLt isLow]
  exact all d e

/-- A value up to its end. -/
theorem parseValue_text (value : List ValueByte) {rest : List UInt8}
    (ends : rest = [] ∨ rest.head? = some 38) (before : List UInt8) :
    parseValue (value.flatMap ValueByte.text ++ rest) before =
      (before ++ value.map ValueByte.byte, rest) := by
  induction value generalizing before with
  | nil =>
      rw [List.flatMap_nil, List.nil_append, List.map_nil, List.append_nil]
      rcases ends with rfl | isEnd
      · rfl
      · obtain ⟨more, rfl⟩ := List.head?_eq_some_iff.mp isEnd
        rw [parseValue.eq_def]
        exact if_pos rfl
  | cons b value ih =>
      rw [List.flatMap_cons, List.append_assoc, List.map_cons]
      cases b with
      | plain c ok =>
          rw [ValueByte.text, List.singleton_append, parseValue.eq_def]
          dsimp only
          rw [if_neg ok.2, if_neg ok.1, ih, List.append_assoc]
          rfl
      | escaped high low d e isHigh isLow =>
          have notAmp : (37 : UInt8) ≠ 38 := by decide
          rw [ValueByte.text]
          show parseValue (37 :: high :: low :: (value.flatMap ValueByte.text ++ rest)) before = _
          rw [parseValue.eq_def]
          dsimp only
          rw [if_neg notAmp, if_pos rfl, ih, unescape_eq isHigh isLow, List.append_assoc]
          rfl

/-- One parameter and what follows it. -/
theorem parseParams_param (p : Param) {rest : List UInt8}
    (ends : rest = [] ∨ rest.head? = some 38) (fuel : Nat) (params : ParamsMap) :
    parseParams (fuel + 1) (p.text ++ rest) params =
      parseParams fuel rest.tail (addParam params p.name (p.value.map ValueByte.byte)) := by
  have notEquals : ∀ c ∈ p.name, (c != 61) = true := fun c member =>
    bne_iff_ne.mpr (p.nameOk c member).1
  have text : p.text ++ rest = p.name ++ 61 :: (p.value.flatMap ValueByte.text ++ rest) := by
    rw [Param.text, List.append_assoc, List.cons_append]
  have some' : p.text ++ rest ≠ [] := by
    rw [text]
    exact List.append_ne_nil_of_right_ne_nil _ (List.cons_ne_nil _ _)
  have front : (p.text ++ rest).takeWhile (· != 61) = p.name := by
    rw [text, List.takeWhile_append_of_pos notEquals]
    exact List.append_nil _
  have back : (p.text ++ rest).dropWhile (· != 61) =
      61 :: (p.value.flatMap ValueByte.text ++ rest) := by
    rw [text, List.dropWhile_append_of_pos notEquals]
    rfl
  rw [parseParams, if_neg some']
  dsimp only
  rw [front, back]
  dsimp only
  rw [parseValue_text p.value ends, List.nil_append]

theorem parseParams_text (params : List Param) {fuel : Nat} (enough : params.length ≤ fuel)
    (known : ParamsMap) :
    parseParams fuel ([38].intercalate (params.map Param.text)) known =
      params.foldl (fun params p => addParam params p.name (p.value.map ValueByte.byte)) known := by
  induction params generalizing fuel known with
  | nil =>
      cases fuel with
      | zero => rfl
      | succ fuel => exact if_pos rfl
  | cons p params ih =>
      obtain ⟨fuel, rfl⟩ := Nat.exists_eq_succ_of_ne_zero
        (Nat.ne_zero_of_lt (Nat.lt_of_lt_of_le (Nat.succ_pos _) enough))
      have fewer := Nat.le_of_succ_le_succ enough
      cases params with
      | nil =>
          have ends : ([] : List UInt8) = [] ∨ ([] : List UInt8).head? = some 38 := Or.inl rfl
          have last := parseParams_param p ends fuel known
          rw [List.append_nil] at last
          rw [List.map_singleton, List.intercalate_singleton, last]
          exact ih fewer _
      | cons q params =>
          have text : [38].intercalate ((p :: q :: params).map Param.text) =
              p.text ++ 38 :: [38].intercalate ((q :: params).map Param.text) := by
            rw [List.map_cons, List.map_cons, List.intercalate_cons_cons, List.append_assoc]
            rfl
          rw [text, parseParams_param p (Or.inr rfl) fuel known, List.tail_cons, ih fewer]
          rfl

/-- The text of the parameters is longer than their number. -/
theorem length_params (params : List Param) :
    params.length ≤ ([38].intercalate (params.map Param.text)).length := by
  induction params with
  | nil => exact Nat.zero_le _
  | cons p params ih =>
      have some' : 1 ≤ p.text.length := by
        rw [Param.text, List.length_append, List.length_cons]
        omega
      cases params with
      | nil =>
          rw [List.map_singleton, List.intercalate_singleton]
          exact some'
      | cons q params =>
          rw [List.map_cons, List.map_cons, List.intercalate_cons_cons, List.length_append,
            List.length_append, List.length_cons]
          rw [List.map_cons] at ih
          omega

/-- The query of a URI, with or without its question mark. -/
theorem parseParams_query (t : Target) {fuel : Nat} (enough : t.params.length ≤ fuel) :
    parseParams fuel t.query.tail [] = t.uri.params := by
  have known := parseParams_text t.params enough []
  unfold Target.query
  split
  · next none' =>
      rw [none'] at known
      rw [List.tail_nil]
      unfold Target.uri
      rw [none']
      exact known
  · exact known

/-- A well-formed URI is split into its parts. -/
theorem parseUri_text (t : Target) : parseUri {} t.text = t.uri := by
  have inPath : ∀ c ∈ t.path, (c != 63 && c != 35) = true := by
    intro c member
    rw [Bool.and_eq_true, bne_iff_ne, bne_iff_ne]
    exact t.pathOk c member
  obtain ⟨rest, isRest⟩ : ∃ rest, rest = (t.anchor.map (35 :: ·)).getD [] ++ t.query := ⟨_, rfl⟩
  have text : t.text = t.path ++ rest := by
    rw [Target.text, isRest]
  have stops : rest = [] ∨ rest.head? = some 35 ∨ rest.head? = some 63 := by
    cases anchor : t.anchor with
    | some anchor' =>
        rw [isRest, anchor]
        exact Or.inr (Or.inl rfl)
    | none =>
        rw [isRest, anchor]
        show t.query = [] ∨ _
        unfold Target.query
        split
        · exact Or.inl rfl
        · exact Or.inr (Or.inr rfl)
  have front : t.text.takeWhile (fun c => c != 63 && c != 35) = t.path := by
    rw [text, List.takeWhile_append_of_pos inPath]
    have nothing : rest.takeWhile (fun c => c != 63 && c != 35) = [] := by
      rcases stops with rfl | isHead | isHead
      · rfl
      · obtain ⟨more, rfl⟩ := List.head?_eq_some_iff.mp isHead
        rfl
      · obtain ⟨more, rfl⟩ := List.head?_eq_some_iff.mp isHead
        rfl
    rw [nothing, List.append_nil]
  have back : t.text.dropWhile (fun c => c != 63 && c != 35) = rest := by
    rw [text, List.dropWhile_append_of_pos inPath]
    rcases stops with rfl | isHead | isHead
    · rfl
    · obtain ⟨more, rfl⟩ := List.head?_eq_some_iff.mp isHead
      rfl
    · obtain ⟨more, rfl⟩ := List.head?_eq_some_iff.mp isHead
      rfl
  have fewer : t.params ≠ [] → t.params.length < t.query.length := by
    intro some'
    rw [Target.query, if_neg some', List.length_cons]
    exact Nat.lt_succ_of_le (length_params t.params)
  rw [parseUri]
  dsimp only
  rw [front, back]
  cases anchor : t.anchor with
  | some anchor' =>
      have noMark : ∀ c ∈ anchor', (c != 63) = true := by
        intro c member
        rw [bne_iff_ne]
        rintro rfl
        exact t.anchorOk anchor' anchor member
      have isRest' : rest = 35 :: (anchor' ++ t.query) := by
        rw [isRest, anchor]
        rfl
      have queryStarts : t.query.takeWhile (· != 63) = [] ∧ t.query.dropWhile (· != 63) = t.query := by
        unfold Target.query
        split
        · exact ⟨rfl, rfl⟩
        · exact ⟨rfl, rfl⟩
      have enough : t.params.length ≤ t.query.length := by
        by_cases none' : t.params = []
        · rw [none']
          exact Nat.zero_le _
        · exact Nat.le_of_lt (fewer none')
      rw [isRest']
      dsimp only
      rw [if_pos rfl, List.takeWhile_append_of_pos noMark, List.dropWhile_append_of_pos noMark,
        queryStarts.1, queryStarts.2, List.append_nil, parseParams_query t enough]
      unfold Target.uri
      rw [anchor]
      rfl
  | none =>
      have isRest' : rest = t.query := by
        rw [isRest, anchor]
        rfl
      have parts : t.uri = { path := t.path, anchor := [], params := t.uri.params } := by
        unfold Target.uri
        rw [anchor]
        rfl
      rw [isRest', parts]
      by_cases none' : t.params = []
      · have noQuery : t.query = [] := if_pos none'
        have noParams : t.uri.params = [] := by
          unfold Target.uri
          rw [none']
          rfl
        rw [noQuery, noParams]
      · have query : t.query = 63 :: t.query.tail := by
          rw [Target.query, if_neg none']
          rfl
        have enough : t.params.length ≤ t.query.tail.length := by
          have less := fewer none'
          rw [query, List.length_cons] at less
          omega
        have notAnchor : (63 : UInt8) ≠ 35 := by decide
        rw [query]
        dsimp only
        rw [if_neg notAnchor, parseParams_query t enough]

end Parse

end MlsImgSearch.Blitz2.HttpUri
