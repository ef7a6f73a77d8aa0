import MlsImgSearch.Blitz2.HttpUri

/-!
# Reads of the URI parser

`ParseUri` has a pointer and a length. Its scanners compare the pointer with the end
before they read, but the decoder of a percent sign reads two bytes on, and looks for
one of them only. The name of a parameter goes on up to the next equals sign, wherever
that is.
-/

namespace MlsImgSearch.Blitz2.UriReads

open HttpUri

/-- What the parser has come to; `outside` is a read behind the end. -/
inductive Outcome (α : Type) where
  | done (result : α)
  | outside
  | running
  deriving DecidableEq

/-- `ParseValue` on the bytes up to the end. -/
def parseValue : List UInt8 → List UInt8 → Option (List UInt8 × List UInt8)
  | [], value => some (value, [])
  | c :: rest, value =>
      if c = 38 then some (value, c :: rest)
      else if c = 37 then
        match rest with
        | [] => some (value, [])
        | [_] => none
        | high :: low :: rest => parseValue rest (value ++ [unescape high low])
      else parseValue rest (value ++ [c])

/-- One turn of the loop over the parameters. -/
def parseParam (uri : List UInt8) (params : ParamsMap) : Option (List UInt8 × ParamsMap) :=
  match uri.dropWhile (· != 61) with
  | [] => some ([], addParam params (uri.takeWhile (· != 61)) [])
  | _ :: rest =>
      (parseValue rest []).map fun (value, after) =>
        (after.tail, addParam params (uri.takeWhile (· != 61)) value)

def parseParams : Nat → List UInt8 → ParamsMap → Outcome ParamsMap
  | 0, _, _ => .running
  | fuel + 1, uri, params =>
      if uri = [] then .done params
      else
        match parseParam uri params with
        | none => .outside
        | some (after, params') => parseParams fuel after params'

/-- The text of the parameters; `none` when `ParseUri` returns before them. -/
def queryOf (uri : List UInt8) : Option (List UInt8) :=
  match uri.dropWhile fun c => c != 63 && c != 35 with
  | [] => none
  | c :: rest =>
      if c = 35 then
        match rest.dropWhile (· != 63) with
        | [] => none
        | _ :: query => some query
      else some rest

def anchorOf (uri : List UInt8) : List UInt8 :=
  match uri.dropWhile fun c => c != 63 && c != 35 with
  | [] => []
  | c :: rest => if c = 35 then rest.takeWhile (· != 63) else []

/-- `ParseUri` on a new request. -/
def parseUri (fuel : Nat) (uri : List UInt8) : Outcome Uri :=
  let path := uri.takeWhile fun c => c != 63 && c != 35
  match queryOf uri with
  | none => .done { path, anchor := anchorOf uri }
  | some query =>
      match parseParams fuel query [] with
      | .done params => .done { path, anchor := anchorOf uri, params }
      | .outside => .outside
      | .running => .running

def getParam (params : ParamsMap) (name : List UInt8) : Option (List (List UInt8)) :=
  (params.find? fun param => param.1 == name).map Prod.snd

/-! ## What is wanted -/

/-- A path, an anchor and a list of parameters behind a question mark. -/
def text (t : Target) : List UInt8 :=
  t.path ++ ((t.anchor.map (35 :: ·)).getD [] ++ 63 :: [38].intercalate (t.params.map Param.text))

/-- The decoded values of a name. -/
def valuesOf (params : List Param) (name : List UInt8) : List (List UInt8) :=
  (params.filter fun p => p.name == name).map fun p => p.value.map ValueByte.byte

/-- The parser comes to its end without a read outside, no name reaches over the `&` of its parameter,
and a well-formed URI is split into its parts. -/
def Right (uri : List UInt8) : Prop :=
  ∃ fuel result, parseUri fuel uri = .done result ∧ (∀ param ∈ result.params, 38 ∉ param.1) ∧
    ∀ t : Target, text t = uri → result.path = t.path ∧ result.anchor = t.anchor.getD [] ∧
      ∀ name, (getParam result.params name).getD [] = valuesOf t.params name

/-! ## When it holds -/

/-- In a name there is no `&` before the equals sign, and the value at the end does not stop one byte
behind a percent sign. -/
def cleanParams : Bool → List UInt8 → Bool
  | _, [] => true
  | false, c :: rest => if c = 61 then cleanParams true rest else c != 38 && cleanParams false rest
  | true, c :: rest =>
      if c = 38 then cleanParams false rest
      else if c = 37 then
        match rest with
        | [] => true
        | [_] => false
        | _ :: _ :: rest => cleanParams true rest
      else cleanParams true rest

def clean (uri : List UInt8) : Bool := (queryOf uri).all (cleanParams false)

/-! ## Values and names -/

section Scan

variable {uri rest : List UInt8} {params : ParamsMap}

theorem parseValue_end {value : List UInt8} :
    parseValue (38 :: rest) value = some (value, 38 :: rest) := by
  rw [parseValue.eq_def]
  exact if_pos rfl

theorem cleanParams_end : cleanParams true (38 :: rest) = cleanParams false rest := by
  rw [cleanParams.eq_def]
  exact if_pos rfl

theorem parseValue_cons {c : UInt8} {value : List UInt8} (notEnd : c ≠ 38) (notPercent : c ≠ 37) :
    parseValue (c :: rest) value = parseValue rest (value ++ [c]) := by
  rw [parseValue.eq_def]
  dsimp only
  rw [if_neg notEnd, if_neg notPercent]

theorem cleanParams_cons {c : UInt8} (notEnd : c ≠ 38) (notPercent : c ≠ 37) :
    cleanParams true (c :: rest) = cleanParams true rest := by
  rw [cleanParams.eq_def]
  dsimp only
  rw [if_neg notEnd, if_neg notPercent]

/-- A value that is clean is read up to its end. -/
theorem cleanParams_value (uri value : List UInt8) :
    cleanParams true uri ↔ ∃ v after, parseValue uri value = some (v, after) ∧
      cleanParams false after.tail := by
  induction uri, value using parseValue.induct with
  | case1 value => exact ⟨fun _ => ⟨value, [], rfl, rfl⟩, fun _ => rfl⟩
  | case2 rest value =>
      rw [parseValue_end, cleanParams_end]
      refine ⟨fun clean => ⟨value, 38 :: rest, rfl, clean⟩, ?_⟩
      rintro ⟨v, after, same, clean⟩
      cases same
      exact clean
  | case3 value => exact ⟨fun _ => ⟨value, [], rfl, rfl⟩, fun _ => rfl⟩
  | case4 value c => exact ⟨fun none' => (nomatch none'), fun ⟨_, _, none', _⟩ => nomatch none'⟩
  | case5 value high low rest _ ih => exact ih
  | case6 c rest value notEnd notPercent ih =>
      rw [parseValue_cons notEnd notPercent, cleanParams_cons notEnd notPercent]
      exact ih

theorem parseValue_length {value v after : List UInt8}
    (parsed : parseValue uri value = some (v, after)) : after.length ≤ uri.length := by
  induction uri, value using parseValue.induct with
  | case1 value =>
      cases parsed
      exact Nat.le_refl _
  | case2 rest value =>
      rw [parseValue_end] at parsed
      cases parsed
      exact Nat.le_refl _
  | case3 value =>
      cases parsed
      exact Nat.zero_le _
  | case4 value c => cases parsed
  | case5 value high low rest _ ih =>
      have bound := ih parsed
      rw [List.length_cons, List.length_cons, List.length_cons]
      omega
  | case6 c rest value notEnd notPercent ih =>
      rw [parseValue_cons notEnd notPercent] at parsed
      exact Nat.le_succ_of_le (ih parsed)

/-- A name is clean when it has no `&`, and the value behind it is. -/
theorem cleanParams_name :
    cleanParams false uri ↔ 38 ∉ uri.takeWhile (· != 61) ∧
      ∀ c rest, uri.dropWhile (· != 61) = c :: rest → cleanParams true rest := by
  induction uri with
  | nil => exact ⟨fun _ => ⟨List.not_mem_nil, fun _ _ none' => nomatch none'⟩, fun _ => rfl⟩
  | cons c uri ih =>
      rw [cleanParams]
      by_cases equals : c = 61
      · subst equals
        rw [if_pos rfl]
        refine ⟨fun clean => ⟨List.not_mem_nil, fun c rest same => ?_⟩, fun both => both.2 61 uri rfl⟩
        cases same
        exact clean
      · have other : (c != 61) = true := bne_iff_ne.mpr equals
        rw [if_neg equals, List.takeWhile_cons_of_pos (p := (· != 61)) other,
          List.dropWhile_cons_of_pos (p := (· != 61)) other, Bool.and_eq_true, ih, List.mem_cons,
          not_or, bne_iff_ne, and_assoc]
        exact and_congr_left fun _ => ne_comm

/-! ## The loop -/

/-- No name has a `&` in it. -/
def CleanNames (params : ParamsMap) : Prop := ∀ param ∈ params, 38 ∉ param.1

theorem addParam_names {name value : List UInt8} :
    CleanNames (addParam params name value) ↔ CleanNames params ∧ 38 ∉ name := by
  unfold addParam CleanNames
  by_cases known : (params.any fun param => param.1 == name) = true
  · rw [if_pos known]
    obtain ⟨entry, member, isName⟩ := List.any_eq_true.mp known
    have sameNames : ∀ param : List UInt8 × List (List UInt8),
        (if param.1 == name then (param.1, param.2 ++ [value]) else param).1 = param.1 := by
      intro param
      by_cases same : (param.1 == name) = true
      · rw [if_pos same]
      · rw [if_neg same]
    rw [List.forall_mem_map]
    simp only [sameNames]
    refine ⟨fun all => ⟨all, ?_⟩, And.left⟩
    rw [← eq_of_beq isName]
    exact all entry member
  · rw [if_neg known, List.forall_mem_append, List.forall_mem_singleton]

theorem parseParam_clean :
    (∃ after params', parseParam uri params = some (after, params') ∧ CleanNames params' ∧
      cleanParams false after) ↔ CleanNames params ∧ cleanParams false uri := by
  rw [cleanParams_name, parseParam]
  cases behind : uri.dropWhile (· != 61) with
  | nil =>
      dsimp only
      constructor
      · rintro ⟨after, params', same, names, -⟩
        cases same
        obtain ⟨known, fresh⟩ := addParam_names.mp names
        exact ⟨known, fresh, fun _ _ none' => nomatch none'⟩
      · rintro ⟨known, fresh, -⟩
        exact ⟨[], _, rfl, addParam_names.mpr ⟨known, fresh⟩, rfl⟩
  | cons c rest =>
      dsimp only
      constructor
      · rintro ⟨after, params', same, names, clean⟩
        obtain ⟨⟨value, after'⟩, parsed, isResult⟩ := Option.map_eq_some_iff.mp same
        cases isResult
        obtain ⟨known, fresh⟩ := addParam_names.mp names
        refine ⟨known, fresh, fun c' rest' isRest => ?_⟩
        cases isRest
        exact (cleanParams_value rest []).mpr ⟨value, after', parsed, clean⟩
      · rintro ⟨known, fresh, clean⟩
        obtain ⟨value, after, parsed, clean'⟩ := (cleanParams_value rest []).mp (clean c rest rfl)
        rw [parsed]
        exact ⟨after.tail, _, rfl, addParam_names.mpr ⟨known, fresh⟩, clean'⟩

/-- One turn shortens the text. -/
theorem parseParam_length {after : List UInt8} {params' : ParamsMap} (some' : uri ≠ [])
    (parsed : parseParam uri params = some (after, params')) : after.length < uri.length := by
  have nonempty := List.length_pos_of_ne_nil some'
  unfold parseParam at parsed
  cases behind : uri.dropWhile (· != 61) with
  | nil =>
      rw [behind] at parsed
      cases parsed
      exact nonempty
  | cons c rest =>
      rw [behind] at parsed
      obtain ⟨⟨value, after'⟩, isValue, isResult⟩ := Option.map_eq_some_iff.mp parsed
      cases isResult
      have shorter := parseValue_length isValue
      have part := (List.dropWhile_suffix (· != 61) (l := uri)).length_le
      rw [behind, List.length_cons] at part
      rw [List.length_tail]
      omega

theorem clean_of_done {fuel : Nat} {result : ParamsMap}
    (done : parseParams fuel uri params = .done result) (names : CleanNames result) :
    CleanNames params ∧ cleanParams false uri := by
  induction fuel generalizing uri params with
  | zero => cases done
  | succ fuel ih =>
      rw [parseParams] at done
      by_cases none' : uri = []
      · rw [if_pos none'] at done
        cases done
        rw [none']
        exact ⟨names, rfl⟩
      · rw [if_neg none'] at done
        cases parsed : parseParam uri params with
        | none =>
            rw [parsed] at done
            cases done
        | some turn =>
            rw [parsed] at done
            obtain ⟨known, clean⟩ := ih done
            exact parseParam_clean.mp ⟨turn.1, turn.2, parsed, known, clean⟩

theorem done_of_clean {fuel : Nat} (enough : uri.length < fuel) (names : CleanNames params)
    (clean : cleanParams false uri) :
    ∃ result, parseParams fuel uri params = .done result ∧ CleanNames result := by
  induction fuel generalizing uri params with
  | zero => exact absurd enough (Nat.not_lt_zero _)
  | succ fuel ih =>
      rw [parseParams]
      by_cases none' : uri = []
      · rw [if_pos none']
        exact ⟨params, rfl, names⟩
      · rw [if_neg none']
        obtain ⟨after, params', parsed, names', clean'⟩ := parseParam_clean.mpr ⟨names, clean⟩
        have shorter := parseParam_length none' parsed
        rw [parsed]
        exact ih (by omega) names' clean'

/-- The loop comes to an end on every text. -/
theorem parseParams_ne_running {fuel : Nat} (enough : uri.length < fuel) :
    parseParams fuel uri params ≠ .running := by
  induction fuel generalizing uri params with
  | zero => exact absurd enough (Nat.not_lt_zero _)
  | succ fuel ih =>
      rw [parseParams]
      by_cases none' : uri = []
      · rw [if_pos none']
        exact nofun
      · rw [if_neg none']
        cases parsed : parseParam uri params with
        | none => exact nofun
        | some turn =>
            have shorter := parseParam_length none' parsed
            exact ih (by omega)

end Scan

/-! ## The parser of the decoder -/

section Decoder

variable {uri : List UInt8} {params : ParamsMap}

theorem parseValue_decoder {value : List UInt8} {result : List UInt8 × List UInt8}
    (parsed : parseValue uri value = some result) : HttpUri.parseValue uri value = result := by
  induction uri, value using parseValue.induct with
  | case1 value => exact Option.some.inj parsed
  | case2 rest value =>
      rw [parseValue_end] at parsed
      rw [HttpUri.parseValue.eq_def, ← Option.some.inj parsed]
      exact if_pos rfl
  | case3 value => exact Option.some.inj parsed
  | case4 value c => cases parsed
  | case5 value high low rest _ ih => exact ih parsed
  | case6 c rest value notEnd notPercent ih =>
      rw [parseValue_cons notEnd notPercent] at parsed
      rw [HttpUri.parseValue.eq_def]
      dsimp only
      rw [if_neg notEnd, if_neg notPercent]
      exact ih parsed

/-- Without a read outside the loop does what the decoder's loop does. -/
theorem parseParams_decoder {fuel fuel' : Nat} {result : ParamsMap} (enough : uri.length ≤ fuel')
    (done : parseParams fuel uri params = .done result) :
    HttpUri.parseParams fuel' uri params = result := by
  induction fuel generalizing uri params fuel' with
  | zero => cases done
  | succ fuel ih =>
      rw [parseParams] at done
      by_cases none' : uri = []
      · rw [if_pos none'] at done
        cases done
        cases fuel' with
        | zero => rfl
        | succ fuel' => exact if_pos none'
      · have nonempty := List.length_pos_of_ne_nil none'
        obtain ⟨fuel', rfl⟩ := Nat.exists_eq_succ_of_ne_zero (show fuel' ≠ 0 by omega)
        rw [if_neg none'] at done
        cases parsed : parseParam uri params with
        | none =>
            rw [parsed] at done
            cases done
        | some turn =>
            obtain ⟨after, params'⟩ := turn
            have shorter := parseParam_length none' parsed
            rw [parsed] at done
            have rest : HttpUri.parseParams fuel' after params' = result := ih (by omega) done
            rw [HttpUri.parseParams, if_neg none']
            unfold parseParam at parsed
            dsimp only
            cases behind : uri.dropWhile (· != 61) with
            | nil =>
                rw [behind] at parsed
                cases parsed
                cases fuel' with
                | zero => exact rest
                | succ fuel' => exact rest
            | cons c more =>
                rw [behind] at parsed
                obtain ⟨⟨value, after'⟩, isValue, isResult⟩ := Option.map_eq_some_iff.mp parsed
                cases isResult
                dsimp only
                rw [parseValue_decoder isValue]
                exact rest

end Decoder

/-! ## Well-formed URIs -/

section Text

variable {params : ParamsMap} {rest : List UInt8}

/-- A well-formed value up to its end. -/
theorem parseValue_text (value : List ValueByte) (ends : rest = [] ∨ rest.head? = some 38)
    (before : List UInt8) :
    parseValue (value.flatMap ValueByte.text ++ rest) before =
      some (before ++ value.map ValueByte.byte, rest) := by
  induction value generalizing before with
  | nil =>
      rw [List.flatMap_nil, List.nil_append, List.map_nil, List.append_nil]
      rcases ends with rfl | isEnd
      · rfl
      · obtain ⟨more, rfl⟩ := List.head?_eq_some_iff.mp isEnd
        exact parseValue_end
  | cons b value ih =>
      rw [List.flatMap_cons, List.append_assoc, List.map_cons]
      cases b with
      | plain c ok =>
          rw [ValueByte.text, List.singleton_append, parseValue_cons ok.2 ok.1, ih, List.append_assoc]
          rfl
      | escaped high low d e isHigh isLow =>
          have escape :
              parseValue (37 :: high :: low :: (value.flatMap ValueByte.text ++ rest)) before =
              parseValue (value.flatMap ValueByte.text ++ rest) (before ++ [unescape high low]) := rfl
          rw [ValueByte.text, List.cons_append, List.cons_append, List.singleton_append, escape, ih,
            unescape_eq isHigh isLow, List.append_assoc]
          rfl

theorem parseParam_text (p : Param) (ends : rest = [] ∨ rest.head? = some 38) :
    parseParam (p.text ++ rest) params =
      some (rest.tail, addParam params p.name (p.value.map ValueByte.byte)) := by
  have notEquals : ∀ c ∈ p.name, (c != 61) = true := fun c member =>
    bne_iff_ne.mpr (p.nameOk c member).1
  have text : p.text ++ rest = p.name ++ 61 :: (p.value.flatMap ValueByte.text ++ rest) := by
    rw [Param.text, List.append_assoc, List.cons_append]
  have front : (p.text ++ rest).takeWhile (· != 61) = p.name := by
    rw [text, List.takeWhile_append_of_pos notEquals]
    exact List.append_nil _
  have back : (p.text ++ rest).dropWhile (· != 61) =
      61 :: (p.value.flatMap ValueByte.text ++ rest) := by
    rw [text, List.dropWhile_append_of_pos notEquals]
    rfl
  rw [parseParam, back, front]
  dsimp only
  rw [parseValue_text p.value ends]
  rfl

theorem parseParams_text (params : List Param) {fuel : Nat}
    (enough : ([38].intercalate (params.map Param.text)).length < fuel) (known : ParamsMap) :
    parseParams fuel ([38].intercalate (params.map Param.text)) known =
      .done (params.foldl
        (fun params p => addParam params p.name (p.value.map ValueByte.byte)) known) := by
  induction params generalizing fuel known with
  | nil =>
      obtain ⟨fuel, rfl⟩ := Nat.exists_eq_succ_of_ne_zero (Nat.ne_zero_of_lt enough)
      exact if_pos rfl
  | cons p params ih =>
      obtain ⟨fuel, rfl⟩ := Nat.exists_eq_succ_of_ne_zero (Nat.ne_zero_of_lt enough)
      have some' : p.text ≠ [] := List.append_ne_nil_of_right_ne_nil _ (List.cons_ne_nil _ _)
      have nonempty := List.length_pos_of_ne_nil some'
      cases params with
      | nil =>
          have last : parseParam (p.text ++ []) known =
              some ([], addParam known p.name (p.value.map ValueByte.byte)) :=
            parseParam_text p (Or.inl rfl)
          rw [List.append_nil] at last
          rw [List.map_singleton, List.intercalate_singleton] at enough ⊢
          rw [parseParams, if_neg some', last]
          have enough' : ([38].intercalate (([] : List Param).map Param.text)).length < fuel := by
            have zero : ([38].intercalate (([] : List Param).map Param.text)).length = 0 := rfl
            omega
          exact ih enough' _
      | cons q params =>
          have text : [38].intercalate ((p :: q :: params).map Param.text) =
              p.text ++ 38 :: [38].intercalate ((q :: params).map Param.text) := by
            rw [List.map_cons, List.map_cons, List.intercalate_cons_cons, List.append_assoc]
            rfl
          rw [text] at enough ⊢
          rw [List.length_append, List.length_cons] at enough
          rw [parseParams, if_neg (List.append_ne_nil_of_left_ne_nil some' _),
            parseParam_text p (Or.inr rfl)]
          exact ih (by omega) _

/-- A value is added behind those of its name. -/
theorem getParam_addParam (name other value : List UInt8) :
    (getParam (addParam params name value) other).getD [] =
      (getParam params other).getD [] ++ if name = other then [value] else [] := by
  unfold getParam addParam
  by_cases known : (params.any fun param => param.1 == name) = true
  · obtain ⟨f, isF⟩ : ∃ f : List UInt8 × List (List UInt8) → List UInt8 × List (List UInt8),
        f = fun param => if param.1 == name then (param.1, param.2 ++ [value]) else param := ⟨_, rfl⟩
    have sameName : ∀ param, (f param).1 = param.1 := by
      intro param
      rw [isF]
      dsimp only
      by_cases same : (param.1 == name) = true
      · rw [if_pos same]
      · rw [if_neg same]
    have sameKey : ((fun param : List UInt8 × List (List UInt8) => param.1 == other) ∘ f) =
        fun param => param.1 == other := funext fun param => congrArg (· == other) (sameName param)
    rw [if_pos known, ← isF, List.find?_map, sameKey]
    cases found : params.find? fun param => param.1 == other with
    | none =>
        obtain ⟨entry, member, isName⟩ := List.any_eq_true.mp known
        have apart : name ≠ other := by
          rintro rfl
          exact List.find?_eq_none.mp found entry member isName
        rw [if_neg apart]
        rfl
    | some param =>
        have isOther : param.1 = other := by simpa using List.find?_some found
        show (f param).2 = param.2 ++ _
        rw [isF]
        dsimp only
        by_cases same : name = other
        · rw [if_pos same, if_pos (beq_iff_eq.mpr (isOther.trans same.symm))]
        · rw [if_neg same, if_neg fun equal => same ((eq_of_beq equal).symm.trans isOther),
            List.append_nil]
  · rw [if_neg known, List.find?_append]
    by_cases same : name = other
    · subst same
      have absent : params.find? (fun param => param.1 == name) = none :=
        List.find?_eq_none.mpr fun param member isName =>
          known (List.any_eq_true.mpr ⟨param, member, isName⟩)
      rw [absent, if_pos rfl, List.find?_singleton, beq_self_eq_true]
      rfl
    · have absent : [(name, [value])].find? (fun param => param.1 == other) = none := by
        rw [List.find?_singleton, beq_eq_false_iff_ne.mpr same]
        rfl
      rw [absent, if_neg same, Option.or_none, List.append_nil]

theorem getParam_foldl (added : List Param) (name : List UInt8) :
    (getParam
        (added.foldl (fun params p => addParam params p.name (p.value.map ValueByte.byte)) params)
        name).getD [] = (getParam params name).getD [] ++ valuesOf added name := by
  induction added generalizing params with
  | nil => exact (List.append_nil _).symm
  | cons p added ih =>
      rw [List.foldl_cons, ih, getParam_addParam, List.append_assoc, valuesOf, valuesOf]
      congr 1
      by_cases same : p.name = name
      · rw [if_pos same, List.filter_cons_of_pos (by simpa using same)]
        rfl
      · rw [if_neg same, List.filter_cons_of_neg (by simpa using same)]
        rfl

/-- The parts of a well-formed URI before its parameters. -/
theorem parts_text (t : Target) :
    (text t).takeWhile (fun c => c != 63 && c != 35) = t.path ∧ anchorOf (text t) = t.anchor.getD [] ∧
      queryOf (text t) = some ([38].intercalate (t.params.map Param.text)) := by
  have inPath : ∀ c ∈ t.path, (c != 63 && c != 35) = true := by
    intro c member
    rw [Bool.and_eq_true, bne_iff_ne, bne_iff_ne]
    exact t.pathOk c member
  unfold text anchorOf queryOf
  rw [List.takeWhile_append_of_pos inPath, List.dropWhile_append_of_pos inPath]
  cases anchor : t.anchor with
  | none => exact ⟨List.append_nil _, rfl, rfl⟩
  | some anchor' =>
      have inAnchor : ∀ c ∈ anchor', (c != 63) = true := by
        intro c member
        rw [bne_iff_ne]
        rintro rfl
        exact t.anchorOk anchor' anchor member
      have front : (anchor' ++ 63 :: [38].intercalate (t.params.map Param.text)).takeWhile (· != 63) =
          anchor' := by
        rw [List.takeWhile_append_of_pos inAnchor]
        exact List.append_nil _
      have back : (anchor' ++ 63 :: [38].intercalate (t.params.map Param.text)).dropWhile (· != 63) =
          63 :: [38].intercalate (t.params.map Param.text) := by
        rw [List.dropWhile_append_of_pos inAnchor]
        rfl
      refine ⟨List.append_nil _, front, ?_⟩
      change (match
        (anchor' ++ 63 :: [38].intercalate (t.params.map Param.text)).dropWhile (· != 63) with
        | [] => none
        | _ :: query => some query) = _
      rw [back]

end Text

theorem Right.clean {uri : List UInt8} (right : Right uri) : clean uri = true := by
  obtain ⟨fuel, result, done, names, -⟩ := right
  unfold UriReads.clean
  cases isQuery : queryOf uri with
  | none => rfl
  | some query =>
      rw [parseUri, isQuery] at done
      dsimp only at done
      rw [Option.all_some]
      cases parsed : parseParams fuel query [] with
      | done params =>
          rw [parsed] at done
          cases done
          exact (clean_of_done parsed names).2
      | outside => rw [parsed] at done; cases done
      | running => rw [parsed] at done; cases done

theorem right_of_clean {uri : List UInt8} (isClean : clean uri = true) : Right uri := by
  unfold clean at isClean
  cases isQuery : queryOf uri with
  | none =>
      refine ⟨0, { path := _, anchor := anchorOf uri }, by rw [parseUri, isQuery], nofun, ?_⟩
      rintro t rfl
      rw [(parts_text t).2.2] at isQuery
      cases isQuery
  | some query =>
      rw [isQuery, Option.all_some] at isClean
      have noNames : CleanNames [] := nofun
      obtain ⟨params, done, names⟩ := done_of_clean (Nat.lt_succ_self query.length) noNames isClean
      refine ⟨query.length + 1, { path := _, anchor := anchorOf uri, params := params },
        by rw [parseUri, isQuery]; dsimp only; rw [done], names, ?_⟩
      rintro t rfl
      obtain ⟨path, anchor, isText⟩ := parts_text t
      obtain rfl := Option.some.inj (isQuery.symm.trans isText)
      rw [parseParams_text t.params (Nat.lt_succ_self _)] at done
      cases done
      exact ⟨path, anchor, fun name => getParam_foldl t.params name⟩

/-- Without a read outside the decoder has the same result. -/
theorem parseUri_decoder {fuel : Nat} {uri : List UInt8} {result : Uri}
    (done : parseUri fuel uri = .done result) : HttpUri.parseUri {} uri = result := by
  unfold parseUri queryOf anchorOf at done
  unfold HttpUri.parseUri
  cases behind : uri.dropWhile fun c => c != 63 && c != 35 with
  | nil =>
      rw [behind] at done
      cases done
      rfl
  | cons c rest =>
      rw [behind] at done
      dsimp only at done ⊢
      by_cases isAnchor : c = 35
      · rw [if_pos isAnchor, if_pos isAnchor] at done
        rw [if_pos isAnchor]
        cases behind' : rest.dropWhile (· != 63) with
        | nil =>
            rw [behind'] at done
            cases done
            rfl
        | cons mark query =>
            rw [behind'] at done
            dsimp only at done
            cases parsed : parseParams fuel query [] with
            | done params =>
                rw [parsed] at done
                cases done
                have same := parseParams_decoder (Nat.le_succ query.length) parsed
                rw [List.tail_cons, List.length_cons, same]
            | outside => rw [parsed] at done; cases done
            | running => rw [parsed] at done; cases done
      · rw [if_neg isAnchor, if_neg isAnchor] at done
        rw [if_neg isAnchor]
        dsimp only at done
        cases parsed : parseParams fuel rest [] with
        | done params =>
            rw [parsed] at done
            cases done
            rw [parseParams_decoder (Nat.le_refl rest.length) parsed]
        | outside => rw [parsed] at done; cases done
        | running => rw [parsed] at done; cases done

theorem queryOf_length {uri query : List UInt8} (isQuery : queryOf uri = some query) :
    query.length < uri.length := by
  unfold queryOf at isQuery
  have part := (List.dropWhile_suffix (fun c => c != 63 && c != 35) (l := uri)).length_le
  cases behind : uri.dropWhile fun c => c != 63 && c != 35 with
  | nil =>
      rw [behind] at isQuery
      cases isQuery
  | cons c rest =>
      rw [behind] at isQuery part
      rw [List.length_cons] at part
      dsimp only at isQuery
      by_cases isAnchor : c = 35
      · rw [if_pos isAnchor] at isQuery
        have part' := (List.dropWhile_suffix (· != 63) (l := rest)).length_le
        cases behind' : rest.dropWhile (· != 63) with
        | nil =>
            rw [behind'] at isQuery
            cases isQuery
        | cons mark query' =>
            rw [behind'] at isQuery part'
            cases isQuery
            rw [List.length_cons] at part'
            omega
      · rw [if_neg isAnchor] at isQuery
        cases isQuery
        omega

/-- `ParseUri` comes to an end on every text. -/
theorem parseUri_ne_running (uri : List UInt8) : parseUri (uri.length + 1) uri ≠ .running := by
  unfold parseUri
  cases isQuery : queryOf uri with
  | none => exact nofun
  | some query =>
      have shorter := queryOf_length isQuery
      have ends : parseParams (uri.length + 1) query [] ≠ .running :=
        parseParams_ne_running (by omega)
      dsimp only
      cases parsed : parseParams (uri.length + 1) query [] with
      | done params => exact nofun
      | outside => exact nofun
      | running => exact absurd parsed ends

/-- The parser works on a text exactly when the parameters of the text are clean. -/
theorem right_iff_clean (uri : List UInt8) : Right uri ↔ clean uri = true :=
  ⟨Right.clean, right_of_clean⟩

/-- One byte behind a percent sign at the end, and a name without an equals sign. -/
theorem not_right :
    parseUri 8 [47, 63, 97, 61, 37, 52] = .outside ∧ ¬ Right [47, 63, 97, 61, 37, 52] ∧
      parseUri 8 [47, 63, 97, 38, 98, 61, 49] =
        .done { path := [47], params := [([97, 38, 98], [[49]])] } ∧
      ¬ Right [47, 63, 97, 38, 98, 61, 49] := by
  refine ⟨by decide, fun right => ?_, by decide, fun right => ?_⟩
  · exact absurd right.clean (by decide)
  · exact absurd right.clean (by decide)

end MlsImgSearch.Blitz2.UriReads
