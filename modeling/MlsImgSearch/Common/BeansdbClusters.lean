import Mathlib.Data.List.Basic
import Mathlib.Logic.Function.Basic
import MlsImgSearch.Lib.Strings

/-!
# Clusters of a picture store

A configuration adds a cluster with a flag to a kind of pictures. A second table
says how many of a hundred new pictures of a kind each flag gets. The key of a new
picture names its kind and the flag that was chosen; a key is routed by the kind
and the flag it names. Clients are left out, but for whether their servers could
be added.
-/

namespace MlsImgSearch.Common.BeansdbClusters

open MlsImgSearch.Lib.Strings

/-- The default kind and the default flag. -/
def defaultName : Text := ['d', 'e', 'f', 'a', 'u', 'l', 't']

def picdetail : Text := ['p', 'i', 'c', 'd', 'e', 't', 'a', 'i', 'l']

/-! ## Configurations -/

structure ServerAddress where
  ip : Text
  port : Int

structure ClusterInfo where
  picType : Text := defaultName
  clusterFlag : Text := defaultName
  poolSize : Int := 0
  clusterScale : Nat := 1
  servers : List ServerAddress := []
  bucketCount : Int := 0
  buckets : List Int := []

/-- An exception, or an access behind a vector. -/
inductive Stop where
  | thrown
  | fault

def castOr {α : Type} (value : Option α) : Except Stop α := value.elim (.error .thrown) .ok

/-- `boost::lexical_cast<size_t>`; a negative number wraps. -/
def lexicalCastSize (text : Text) : Option Nat :=
  let digits := if text.head? = some '-' ∨ text.head? = some '+' then text.tail else text
  if digits ≠ [] ∧ digits.all Char.isDigit ∧ Nat.ofDigitChars 10 digits 0 < 2 ^ 64 then
    let number := Nat.ofDigitChars 10 digits 0
    some (if text.head? = some '-' then (2 ^ 64 - number) % 2 ^ 64 else number)
  else none

def isSpace (c : Char) : Bool := c = ' ' ∨ '\t' ≤ c ∧ c ≤ '\r'

def trim (text : Text) : Text :=
  ((text.dropWhile isSpace).reverse.dropWhile isSpace).reverse

def parseServer (text : Text) : Except Stop ServerAddress :=
  match text.splitOn ':' with
  | ip :: port :: _ =>
      if port = [] then .ok ⟨ip, 7900⟩
      else (castOr (lexicalCastInt port)).map fun port => ⟨ip, port⟩
  | _ => .error .fault

/-- One setting of a configuration. -/
def setField (cluster : ClusterInfo) (key value : Text) : Except Stop ClusterInfo :=
  if key = ['t', 'y', 'p', 'e'] then .ok { cluster with picType := value }
  else if key = ['c', 'l', 'u', 's', 't', 'e', 'r', '_', 'f', 'l', 'a', 'g'] then
    .ok { cluster with clusterFlag := value }
  else if key = ['c', 'l', 'u', 's', 't', 'e', 'r', '_', 's', 'c', 'a', 'l', 'e'] then
    (castOr (lexicalCastSize value)).map fun scale => { cluster with clusterScale := scale }
  else if key = ['p', 'o', 'o', 'l', '_', 's', 'i', 'z', 'e'] then
    (castOr (lexicalCastInt value)).map fun size => { cluster with poolSize := size }
  else if key = ['s', 'e', 'r', 'v', 'e', 'r', 's'] then
    ((value.splitOn ',').mapM parseServer).map fun servers =>
      { cluster with servers := cluster.servers ++ servers }
  else if key = ['b', 'u', 'c', 'k', 'e', 't', 's', '_', 'n', 'u', 'm'] then
    (castOr (lexicalCastInt value)).map fun count => { cluster with bucketCount := count }
  else if key = ['b', 'u', 'c', 'k', 'e', 't', 's'] then
    ((value.splitOn ',').mapM fun bucket => castOr (lexicalCastInt (trim bucket))).map
      fun buckets => { cluster with buckets := cluster.buckets ++ buckets }
  else .error .thrown

def parseConf (conf : Text) : Except Stop ClusterInfo :=
  (conf.splitOn ';').foldlM (fun cluster segment =>
    match segment.splitOn '=' with
    | [key, value] => setField cluster (trim key) (trim value)
    | _ => .error .thrown) {}

/-! ## The tables -/

structure ClusterScale where
  kind : Text
  flag : Text
  scale : Nat

/-- `clusters` leads from a kind and a flag to a pool; `nextPool` is the next pool that is created. -/
structure Clusters where
  clusters : Text → Option (Text → Option Nat) := fun _ => none
  clusterLocation : List ClusterScale := []
  nextPool : Nat := 0

inductive Ret where
  | success
  | clusterConfFailed
  | addServerFailed
  deriving DecidableEq

def Clusters.find (s : Clusters) (kind flag : Text) : Option Nat :=
  (s.clusters kind).bind fun cluster => cluster flag

/-- A location is added once for a kind and a flag. -/
def Clusters.locate (s : Clusters) (info : ClusterInfo) : Clusters :=
  if s.clusterLocation.any fun l => l.kind = info.picType ∧ l.flag = info.clusterFlag then s
  else
    { s with
      clusterLocation :=
        s.clusterLocation ++ [⟨info.picType, info.clusterFlag, info.clusterScale⟩] }

/-- A new pool is inserted for a kind that exists or for a new one. -/
def Clusters.insert (s : Clusters) (kind flag : Text) (pool : Nat) : Clusters :=
  { s with
    clusters := Function.update s.clusters kind
      (some (Function.update ((s.clusters kind).getD fun _ => none) flag (some pool))) }

/-- `addServer` says which servers of which client of the pool can be added. `none` is an access
behind a vector. -/
def addCluster (addServer : Nat → Nat → Bool) (s : Clusters) (conf : Text) :
    Option (Ret × Clusters) :=
  match parseConf conf with
  | .error .fault => none
  | .error .thrown => some (.clusterConfFailed, s)
  | .ok info =>
      let s := s.locate info
      let added := (List.range info.poolSize.toNat).all fun pindex =>
        (List.range info.servers.length).all fun bindex => addServer pindex bindex
      match s.find info.picType info.clusterFlag with
      | some _ => some (if added then .success else .addServerFailed, s)
      | none =>
          let created := { s with nextPool := s.nextPool + 1 }
          if added then
            some (.success, created.insert info.picType info.clusterFlag s.nextPool)
          else some (.addServerFailed, created)

/-- Failures are ignored. -/
def addClusters (s : Clusters) : List ((Nat → Nat → Bool) × Text) → Option Clusters
  | [] => some s
  | (addServer, conf) :: rest =>
      (addCluster addServer s conf).bind fun (_, s') => addClusters s' rest

/-! ## Keys -/

structure PicKeyInfo where
  type : Text
  cluster : Text
  deriving DecidableEq

def findFirstOf (c : Char) (text : Text) : Option Nat := text.findIdx? (· == c)

def findLastOf (c : Char) (text : Text) : Option Nat :=
  (text.reverse.findIdx? (· == c)).map fun i => text.length - 1 - i

/-- `none` when the key is refused. -/
def parsePicKey (key : Text) : Option PicKeyInfo :=
  (findFirstOf '/' key).bind fun typeIndex =>
  let clusterBegin := findFirstOf '.' key
  (findLastOf '.' key).map fun clusterEnd =>
    { type := key.take typeIndex
      cluster :=
        match clusterBegin with
        | none => defaultName
        | some clusterBegin =>
            if clusterBegin = clusterEnd then defaultName
            else (key.drop (clusterBegin + 1)).take (clusterEnd - clusterBegin - 1) }

/-- `none` when no cluster is found. -/
def getCluster (s : Clusters) (key : Text) : Option Nat :=
  (parsePicKey key).bind fun keyInfo =>
  ((s.clusters keyInfo.type).or (s.clusters defaultName)).bind fun node => node keyInfo.cluster

/-- The kind whose locations are used. -/
def clusterKind (kind : Text) : Text := if kind ≠ picdetail then defaultName else kind

/-- The flag of a new picture. The outer `none` is a write behind the hundred places, the inner one
means that there is no location. -/
def genClusterLocate (checksum : Text → Nat) (s : Clusters) (bytesMd5 kind : Text) :
    Option (Option Text) :=
  let located := s.clusterLocation.filter fun l => l.kind = clusterKind kind
  let sum := (located.map fun l => l.scale).sum
  let allocation := located.flatMap fun l => List.replicate l.scale l.flag
  if 100 < sum then none
  else if sum = 0 then some none
  else allocation[checksum bytesMd5 % sum]?.map some

def generateOriginPicId (checksum : Text → Nat) (s : Clusters) (bytesMd5 kind ext : Text)
    (width height : Int) : Option (Option Text) :=
  (genClusterLocate checksum s bytesMd5 kind).map fun located =>
    located.map fun clusterLocate =>
      kind ++ ['/', '_', 'o', '/'] ++ bytesMd5.take 2 ++ ['/'] ++ (bytesMd5.drop 2).take 2 ++ ['/'] ++
        bytesMd5.drop 4 ++ ['_'] ++ intText width ++ ['_'] ++ intText height ++ ['.'] ++
        (if clusterLocate ≠ defaultName then cString clusterLocate ++ ['.'] else []) ++ cString ext

/-! ## The contract -/

def IsHex (c : Char) : Prop := c.isDigit ∨ 'a' ≤ c ∧ c ≤ 'f' ∨ 'A' ≤ c ∧ c ≤ 'F'

/-- The arguments of a new picture. -/
structure Picture where
  bytesMd5 : Text
  kind : Text
  ext : Text
  width : Int
  height : Int
  long : 4 ≤ bytesMd5.length
  hex : ∀ c ∈ bytesMd5, IsHex c
  kindPlain : '/' ∉ kind ∧ '.' ∉ kind
  extPlain : '.' ∉ ext

/-- A key names the kind and the flag, and leads to the pool of that flag in the table of the kind
whose locations were used. -/
structure Routed (s : Clusters) (kind flag key : Text) : Prop where
  parsed : parsePicKey key = some ⟨kind, flag⟩
  found : ∃ pool, getCluster s key = some pool ∧ s.find (clusterKind kind) flag = some pool

/-- The flag has a cluster in the table of the kind whose locations are used, and the kind of the
picture has no table, or it is that kind; the flag has no zero character. -/
structure Routable (s : Clusters) (kind flag : Text) : Prop where
  registered : (s.find (clusterKind kind) flag).isSome
  sameTable : kind = clusterKind kind ∨ s.clusters kind = none
  plain : '\x00' ∉ flag

/-! ## Pools -/

section Pools

variable {s s' : Clusters}

/-- Each pool belongs to one kind and flag. -/
structure PoolsApart (s : Clusters) : Prop where
  used : ∀ kind flag pool, s.find kind flag = some pool → pool < s.nextPool
  apart : ∀ kind flag kind' flag' pool, s.find kind flag = some pool →
    s.find kind' flag' = some pool → kind = kind' ∧ flag = flag'

theorem poolsApart_empty : PoolsApart {} := by
  refine ⟨fun kind flag pool found => ?_, fun kind flag _ _ pool found => ?_⟩
  · exact nomatch (found : none = some pool)
  · exact nomatch (found : none = some pool)

theorem find_locate (info : ClusterInfo) (kind flag : Text) :
    (s.locate info).find kind flag = s.find kind flag := by
  unfold Clusters.locate
  split <;> rfl

theorem nextPool_locate (info : ClusterInfo) : (s.locate info).nextPool = s.nextPool := by
  unfold Clusters.locate
  split <;> rfl

theorem find_insert (kind flag kind' flag' : Text) (pool : Nat) :
    (s.insert kind flag pool).find kind' flag' =
      if kind' = kind ∧ flag' = flag then some pool else s.find kind' flag' := by
  unfold Clusters.insert Clusters.find
  dsimp only
  by_cases sameKind : kind' = kind
  · rw [sameKind, Function.update_self, Option.bind_some]
    by_cases sameFlag : flag' = flag
    · rw [sameFlag, Function.update_self, if_pos ⟨rfl, rfl⟩]
    · rw [Function.update_of_ne sameFlag, if_neg fun both => sameFlag both.2]
      cases s.clusters kind <;> rfl
  · rw [Function.update_of_ne sameKind, if_neg fun both => sameKind both.1]

/-- A new pool is apart from all others. -/
theorem PoolsApart.insert (pools : PoolsApart s) (kind flag : Text) :
    PoolsApart ({ s with nextPool := s.nextPool + 1 }.insert kind flag s.nextPool) := by
  have others : ∀ kind' flag', ({ s with nextPool := s.nextPool + 1 } : Clusters).find kind' flag' =
      s.find kind' flag' := fun _ _ => rfl
  refine ⟨fun kind' flag' pool found => ?_, fun k f k' f' pool found found' => ?_⟩
  · rw [find_insert, others] at found
    split at found
    · obtain rfl := Option.some.inj found
      exact Nat.lt_succ_self _
    · exact Nat.lt_succ_of_lt (pools.used _ _ _ found)
  · rw [find_insert, others] at found found'
    split at found
    · next new =>
        obtain rfl := Option.some.inj found
        split at found'
        · next new' => exact ⟨new.1.trans new'.1.symm, new.2.trans new'.2.symm⟩
        · exact absurd (pools.used _ _ _ found') (Nat.lt_irrefl _)
    · split at found'
      · obtain rfl := Option.some.inj found'
        exact absurd (pools.used _ _ _ found) (Nat.lt_irrefl _)
      · exact pools.apart _ _ _ _ _ found found'

theorem PoolsApart.locate (pools : PoolsApart s) (info : ClusterInfo) :
    PoolsApart (s.locate info) := by
  refine ⟨fun kind flag pool found => ?_, fun k f k' f' pool found found' => ?_⟩
  · rw [find_locate] at found
    rw [nextPool_locate]
    exact pools.used _ _ _ found
  · rw [find_locate] at found found'
    exact pools.apart _ _ _ _ _ found found'

theorem PoolsApart.addCluster {addServer : Nat → Nat → Bool} {conf : Text} {ret : Ret}
    (pools : PoolsApart s) (added : addCluster addServer s conf = some (ret, s')) :
    PoolsApart s' := by
  unfold BeansdbClusters.addCluster at added
  split at added
  · cases added
  · obtain ⟨-, rfl⟩ := Prod.mk.inj (Option.some.inj added)
    exact pools
  · next info _ =>
      have located := pools.locate info
      dsimp only at added
      split at added
      · obtain ⟨-, rfl⟩ := Prod.mk.inj (Option.some.inj added)
        exact located
      · split at added
        · obtain ⟨-, rfl⟩ := Prod.mk.inj (Option.some.inj added)
          exact located.insert info.picType info.clusterFlag
        · obtain ⟨-, rfl⟩ := Prod.mk.inj (Option.some.inj added)
          exact ⟨fun k f pool found => Nat.lt_succ_of_lt (located.used k f pool found),
            located.apart⟩

theorem PoolsApart.addClusters {confs : List ((Nat → Nat → Bool) × Text)} (pools : PoolsApart s)
    (added : addClusters s confs = some s') : PoolsApart s' := by
  induction confs generalizing s with
  | nil => exact Option.some.inj added ▸ pools
  | cons conf confs ih =>
      obtain ⟨⟨ret, mid⟩, first, rest⟩ := Option.bind_eq_some_iff.mp added
      exact ih (pools.addCluster first) rest

end Pools

/-! ## Reading a key back -/

section Keys

theorem findFirstOf_append {c : Char} {before : Text} (plain : c ∉ before) (after : Text) :
    findFirstOf c (before ++ c :: after) = some before.length := by
  induction before with
  | nil => simp [findFirstOf, List.findIdx?_cons]
  | cons d before ih =>
      obtain ⟨other, plain⟩ := not_or.mp (mt List.mem_cons.mpr plain)
      have rest := ih plain
      unfold findFirstOf at rest ⊢
      rw [List.cons_append, List.findIdx?_cons, if_neg (by simpa using Ne.symm other), rest]
      rfl

theorem findLastOf_append {c : Char} {after : Text} (before : Text) (plain : c ∉ after) :
    findLastOf c (before ++ c :: after) = some before.length := by
  have reversed : (before ++ c :: after).reverse = after.reverse ++ c :: before.reverse := by
    simp
  have found := findFirstOf_append (mt List.mem_reverse.mp plain) before.reverse
  unfold findFirstOf at found
  rw [findLastOf, reversed, found, Option.map_some, List.length_append, List.length_reverse,
    List.length_cons]
  congr 1
  omega

/-- A key with a flag between its first and its last dot. -/
theorem parsePicKey_eq {kind more flag ext : Text} (kindPlain : '/' ∉ kind)
    (frontPlain : '.' ∉ kind ++ '/' :: more) (extPlain : '.' ∉ ext) :
    parsePicKey (kind ++ '/' :: more ++ '.' :: (flag ++ '.' :: ext)) = some ⟨kind, flag⟩ := by
  have slash : findFirstOf '/' (kind ++ '/' :: more ++ '.' :: (flag ++ '.' :: ext)) =
      some kind.length := by
    rw [List.append_assoc, List.cons_append]
    exact findFirstOf_append kindPlain _
  have first := findFirstOf_append frontPlain (flag ++ '.' :: ext)
  have last : findLastOf '.' (kind ++ '/' :: more ++ '.' :: (flag ++ '.' :: ext)) =
      some ((kind ++ '/' :: more).length + 1 + flag.length) := by
    have split : kind ++ '/' :: more ++ '.' :: (flag ++ '.' :: ext) =
        (kind ++ '/' :: more ++ '.' :: flag) ++ '.' :: ext := by
      simp
    rw [split, findLastOf_append _ extPlain, List.length_append, List.length_cons]
    congr 1
    omega
  have apart : (kind ++ '/' :: more).length ≠ (kind ++ '/' :: more).length + 1 + flag.length := by
    omega
  have size : (kind ++ '/' :: more).length + 1 + flag.length - (kind ++ '/' :: more).length - 1 =
      flag.length := by
    omega
  have tail : (kind ++ '/' :: more ++ '.' :: (flag ++ '.' :: ext)).drop
      ((kind ++ '/' :: more).length + 1) = flag ++ '.' :: ext := by
    rw [← List.drop_drop, List.drop_left' rfl]
    rfl
  rw [parsePicKey, slash, Option.bind_some, last, first, Option.map_some]
  dsimp only
  rw [if_neg apart, size, tail, List.take_left' rfl, List.append_assoc, List.take_left' rfl]

/-- A key with one dot. -/
theorem parsePicKey_default {kind more ext : Text} (kindPlain : '/' ∉ kind)
    (frontPlain : '.' ∉ kind ++ '/' :: more) (extPlain : '.' ∉ ext) :
    parsePicKey (kind ++ '/' :: more ++ '.' :: ext) = some ⟨kind, defaultName⟩ := by
  have slash : findFirstOf '/' (kind ++ '/' :: more ++ '.' :: ext) = some kind.length := by
    rw [List.append_assoc, List.cons_append]
    exact findFirstOf_append kindPlain _
  rw [parsePicKey, slash, Option.bind_some, findFirstOf_append frontPlain,
    findLastOf_append _ extPlain, Option.map_some]
  dsimp only
  rw [if_pos rfl, List.append_assoc, List.take_left' rfl]

variable {checksum : Text → Nat} {s : Clusters} {flag key : Text}

/-- The front of a key has no dot. -/
theorem Picture.front_plain (p : Picture) :
    '.' ∉ p.kind ++ '/' :: (['_', 'o', '/'] ++ p.bytesMd5.take 2 ++ ['/'] ++
      (p.bytesMd5.drop 2).take 2 ++ ['/'] ++ p.bytesMd5.drop 4 ++ ['_'] ++ intText p.width ++ ['_'] ++
      intText p.height) := by
  have noDot : ∀ n, '.' ∉ intText n := by
    intro n member
    rcases intText_mem member with wrong | wrong <;> cases wrong
  have md5 : '.' ∉ p.bytesMd5 := by
    intro member
    have wrong := p.hex _ member
    unfold IsHex at wrong
    revert wrong
    decide
  have first : '.' ∉ p.bytesMd5.take 2 := fun member => md5 (List.mem_of_mem_take member)
  have second : '.' ∉ (p.bytesMd5.drop 2).take 2 := fun member =>
    md5 (List.mem_of_mem_drop (List.mem_of_mem_take member))
  have third : '.' ∉ p.bytesMd5.drop 4 := fun member => md5 (List.mem_of_mem_drop member)
  simp only [List.mem_append, List.mem_cons, List.not_mem_nil, or_false, p.kindPlain.2, first, second,
    third, noDot]
  decide

/-- What the parser reads from a new key. -/
theorem parsePicKey_generated (p : Picture)
    (located : genClusterLocate checksum s p.bytesMd5 p.kind = some (some flag))
    (generated : generateOriginPicId checksum s p.bytesMd5 p.kind p.ext p.width p.height =
      some (some key)) :
    parsePicKey key = some ⟨p.kind, cString flag⟩ := by
  rw [generateOriginPicId, located, Option.map_some, Option.map_some] at generated
  have isKey := Option.some.inj (Option.some.inj generated)
  have extPlain : '.' ∉ cString p.ext := fun member =>
    p.extPlain ((List.takeWhile_sublist _).mem member)
  by_cases isDefault : flag = defaultName
  · rw [if_neg (not_not.mpr isDefault)] at isKey
    have plain : cString flag = defaultName := by
      rw [isDefault]
      decide
    rw [plain, ← parsePicKey_default p.kindPlain.1 p.front_plain extPlain, ← isKey]
    simp only [List.append_assoc, List.cons_append, List.nil_append]
  · rw [if_pos isDefault] at isKey
    rw [← parsePicKey_eq p.kindPlain.1 p.front_plain extPlain, ← isKey]
    simp only [List.append_assoc, List.cons_append, List.nil_append]

theorem getCluster_eq {kind : Text} (parsed : parsePicKey key = some ⟨kind, flag⟩) :
    getCluster s key =
      if (s.clusters kind).isSome then s.find kind flag else s.find defaultName flag := by
  rw [getCluster, parsed, Option.bind_some]
  dsimp only
  unfold Clusters.find
  cases s.clusters kind <;> rfl

end Keys

/-- The configuration of a flag for a kind, all other settings left out. -/
def confOf (kind flag : Text) : (Nat → Nat → Bool) × Text :=
  (fun _ _ => true, ['t', 'y', 'p', 'e', '='] ++ kind ++
    [';', 'c', 'l', 'u', 's', 't', 'e', 'r', '_', 'f', 'l', 'a', 'g', '='] ++ flag)

/-- A picture of the kind `goods`. -/
def goodsPicture : Picture where
  bytesMd5 := ['a', 'b', 'c', 'd', '1', '2']
  kind := ['g', 'o', 'o', 'd', 's']
  ext := ['j', 'p', 'g']
  width := 10
  height := 20
  long := by decide
  hex := by simp [IsHex, Char.isDigit]
  kindPlain := by decide
  extPlain := by decide

end MlsImgSearch.Common.BeansdbClusters
