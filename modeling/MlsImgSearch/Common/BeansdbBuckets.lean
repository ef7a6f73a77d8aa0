import Mathlib.Tactic.IntervalCases
import MlsImgSearch.Common.BeansdbClusters
import MlsImgSearch.Lib.Run

/-!
# Bucket tables of a picture store

Each client of a cluster has a table of buckets, and each bucket an array of
connections. The arrays are as long as the first configuration of the cluster has
servers. Every configuration of the cluster appends its servers to the buckets it
names. A key picks a bucket by four bits of its hash and a connection by the rest
of the division of the hash by the number of connections.
-/

namespace MlsImgSearch.Common.BeansdbBuckets

open MlsImgSearch.Lib.Strings MlsImgSearch.Lib.Run MlsImgSearch.Common.BeansdbClusters

/-! ## One table -/

/-- `size` connections were allocated, `count` of them are in use. -/
structure BeansdbBucket where
  size : Nat
  count : Nat
  deriving DecidableEq

structure BeansdbBucketClients where
  bucketsCount : Nat
  mcClients : List BeansdbBucket
  deriving DecidableEq

/-- Both arguments are turned into unsigned numbers of 32 bits. -/
def BeansdbBucketClients.init (bucketCount : Int) (servers : Nat) : BeansdbBucketClients where
  bucketsCount := (bucketCount % 2 ^ 32).toNat
  mcClients := List.replicate (bucketCount % 2 ^ 32).toNat ⟨servers % 2 ^ 32, 0⟩

/-- `mc_clients_[number]`; `none` is an access behind the vector. -/
def BeansdbBucketClients.bucketAt (t : BeansdbBucketClients) (number : Int) :
    Option BeansdbBucket :=
  if number < 0 then none else t.mcClients[number.toNat]?

/-- A connection of the bucket is put to use. The place is not compared with the size. -/
def BeansdbBucketClients.connect (t : BeansdbBucketClients) (number : Int)
    (bucket : BeansdbBucket) : BeansdbBucketClients :=
  { t with
    mcClients := t.mcClients.set number.toNat
      { bucket with count := (bucket.count + 1) % 2 ^ 32 } }

/-- `accepted` says for which buckets of the list the connection takes the server. The flag says
whether all did. -/
def addServer (accepted : Nat → Bool) :
    List Int → BeansdbBucketClients → Option (Bool × BeansdbBucketClients)
  | [], t => some (true, t)
  | number :: buckets, t =>
      (t.bucketAt number).bind fun bucket =>
        if accepted 0 then
          addServer (fun i => accepted (i + 1)) buckets (t.connect number bucket)
        else some (false, t)

/-- The servers of a configuration are added one after the other. -/
def addServers (accepted : Nat → Nat → Bool) (buckets : List Int) :
    List ServerAddress → BeansdbBucketClients → Option (Bool × BeansdbBucketClients)
  | [], t => some (true, t)
  | _ :: servers, t =>
      (addServer (accepted 0) buckets t).bind fun (added, t') =>
        if added then addServers (fun bindex => accepted (bindex + 1)) buckets servers t'
        else some (false, t')

/-! ## Keys -/

inductive BucketError where
  | outOfBucket
  | getBucketFailed
  | outOfClients
  deriving DecidableEq

/-- The characters of a key are signed. -/
def calcHash (key : List (BitVec 8)) : BitVec 64 :=
  (key.takeWhile (· ≠ 0#8)).foldl
    (fun h c => (h ^^^ c.signExtend 64) * 0x01000193#64 &&& 0xffffffff#64) 0x811c9dc5#64

def bucketIndex (hash : BitVec 64) : Nat := (((hash >>> 28) &&& 0x0F#64).setWidth 32).toNat

/-- An unsigned number of 32 bits as an `int`. -/
def toInt (n : Nat) : Int := if n % 2 ^ 32 < 2 ^ 31 then n % 2 ^ 32 else n % 2 ^ 32 - 2 ^ 32

/-- The outer `none` is an access behind the vector, the inner one a null pointer. -/
def BeansdbBucketClients.getBucket (t : BeansdbBucketClients) (index : Nat) :
    Option (Option BeansdbBucket) :=
  if t.bucketsCount ≤ index then
    t.mcClients[index]?.map fun bucket => if bucket.count ≤ 0 then none else some bucket
  else t.mcClients[index]?.map some

/-- `none` is an access behind a vector or a division by zero. -/
def getBucket (t : BeansdbBucketClients) (key : List (BitVec 8)) :
    Option (Except BucketError (BeansdbBucket × Int)) :=
  let hash := calcHash key
  if t.bucketsCount ≤ bucketIndex hash then some (.error .outOfBucket)
  else
    (t.getBucket (bucketIndex hash)).bind fun found =>
      match found with
      | none => some (.error .getBucketFailed)
      | some bucket =>
          if bucket.count = 0 then none
          else
            let index := toInt (hash.toNat % bucket.count)
            if toInt bucket.count ≤ index then some (.error .outOfClients)
            else some (.ok (bucket, index))

/-! ## Pools -/

/-- The tables of the clients in a pool; `none` is a table that was deleted. -/
structure ComPool where
  maxNodes : Int
  nodes : List (Option BeansdbBucketClients) := []

def ComPool.add (pool : ComPool) (t : BeansdbBucketClients) : ComPool :=
  if pool.maxNodes ≤ pool.nodes.length then pool
  else { pool with nodes := pool.nodes ++ [some t] }

def ComPool.put (pool : ComPool) (index : Nat) (node : Option BeansdbBucketClients) : ComPool :=
  { pool with nodes := pool.nodes.set index node }

/-- The clients of a new cluster are created. A refused server ends the call. -/
def fillNew (info : ClusterInfo) :
    (Nat → Nat → Nat → Bool) → Nat → ComPool → Option (Bool × ComPool)
  | _, 0, pool => some (true, pool)
  | accepted, rounds + 1, pool =>
      (addServers (accepted 0) info.buckets info.servers
        (.init info.bucketCount info.servers.length)).bind fun (added, t) =>
          if added then fillNew info (fun pindex => accepted (pindex + 1)) rounds (pool.add t)
          else some (false, pool)

/-- The servers are added to the clients of a cluster that exists. A refused server ends the call,
and the table is deleted though its client stays in the pool. -/
def fillOld (info : ClusterInfo) :
    (Nat → Nat → Nat → Bool) → Nat → Nat → ComPool → Option (Bool × ComPool)
  | _, 0, _, pool => some (true, pool)
  | accepted, rounds + 1, pindex, pool =>
      (pool.nodes[pindex]?.join).bind fun t =>
        (addServers (accepted 0) info.buckets info.servers t).bind fun (added, t') =>
          if added then
            fillOld info (fun pindex => accepted (pindex + 1)) rounds (pindex + 1)
              (pool.put pindex (some t'))
          else some (false, pool.put pindex none)

/-! ## Configurations -/

structure Stores where
  clusters : Clusters := {}
  pools : Nat → ComPool := fun _ => { maxNodes := 0 }

/-- `accepted` says which servers are taken, by client, server and bucket of the list. -/
structure Call where
  accepted : Nat → Nat → Nat → Bool
  conf : Text

/-- `none` is an access behind a vector or to a deleted table. -/
def addCluster (s : Stores) (call : Call) : Option (Ret × Stores) :=
  match parseConf call.conf with
  | .error .fault => none
  | .error .thrown => some (.clusterConfFailed, s)
  | .ok info =>
      let clusters := s.clusters.locate info
      match clusters.find info.picType info.clusterFlag with
      | some pool =>
          (fillOld info call.accepted info.poolSize.toNat 0 (s.pools pool)).map
            fun (added, filled) =>
              (if added then .success else .addServerFailed,
                ⟨clusters, Function.update s.pools pool filled⟩)
      | none =>
          let created := { clusters with nextPool := clusters.nextPool + 1 }
          (fillNew info call.accepted info.poolSize.toNat { maxNodes := info.poolSize }).map
            fun (added, filled) =>
              (if added then .success else .addServerFailed,
                ⟨if added then created.insert info.picType info.clusterFlag clusters.nextPool
                  else created, Function.update s.pools clusters.nextPool filled⟩)

/-- The answer of a call is not looked at. -/
def step (s : Stores) (call : Call) : Option Stores := (addCluster s call).map Prod.snd

/-! ## The contract -/

def InRange (t : BeansdbBucketClients) : Prop := ∀ bucket ∈ t.mcClients, bucket.count ≤ bucket.size

/-- Every key gets an error or a connection that is in use. -/
def Served (t : BeansdbBucketClients) : Prop :=
  ∀ key, (∃ error, getBucket t key = some (.error error)) ∨
    ∃ bucket index, getBucket t key = some (.ok (bucket, index)) ∧ 0 < bucket.count ∧
      index < bucket.count

/-- No bucket uses more connections than it has, and the table of every client that can be reached
serves every key. -/
structure Kept (s : Stores) : Prop where
  inRange : ∀ pool t, some t ∈ (s.pools pool).nodes → InRange t
  served : ∀ kind flag pool, s.clusters.find kind flag = some pool →
    ∀ node ∈ (s.pools pool).nodes, ∃ t, node = some t ∧ Served t

/-- All servers are taken. -/
def Accepted (accepted : Nat → Nat → Nat → Bool) (info : ClusterInfo) : Prop :=
  ∀ pindex < info.poolSize.toNat, ∀ bindex < info.servers.length, ∀ i < info.buckets.length,
    accepted pindex bindex i

/-- The buckets named for the servers exist and have places left for all of them. -/
def Fits (info : ClusterInfo) (t : BeansdbBucketClients) : Prop :=
  info.servers ≠ [] → ∀ number ∈ info.buckets, ∃ bucket, t.bucketAt number = some bucket ∧
    bucket.count + info.servers.length * info.buckets.count number ≤ bucket.size

/-- A new cluster: its servers fit into its own tables, and every bucket that a key can pick gets a
server. -/
structure RoomyNew (accepted : Nat → Nat → Nat → Bool) (info : ClusterInfo) : Prop where
  fits : Fits info (.init info.bucketCount info.servers.length)
  named : Accepted accepted info → ∀ number : Nat, number < 16 →
    number < (info.bucketCount % 2 ^ 32).toNat → info.servers ≠ [] ∧ (number : Int) ∈ info.buckets

/-- A cluster that exists: it has a client for each round, no server is refused, and the servers fit
into the tables that are there. -/
structure RoomyOld (accepted : Nat → Nat → Nat → Bool) (info : ClusterInfo) (pool : ComPool) :
    Prop where
  clients : info.poolSize.toNat ≤ pool.nodes.length
  accepted : Accepted accepted info
  fits : ∀ pindex < info.poolSize.toNat, ∀ t, pool.nodes[pindex]? = some (some t) → Fits info t

/-- The condition on one call. -/
def Roomy (s : Stores) (call : Call) : Prop :=
  match parseConf call.conf with
  | .error .fault => False
  | .error .thrown => True
  | .ok info =>
      0 < info.poolSize →
        match s.clusters.find info.picType info.clusterFlag with
        | some pool => RoomyOld call.accepted info (s.pools pool)
        | none => RoomyNew call.accepted info

/-! ## Adding servers -/

section Servers

/-- What adding servers does to a table: each bucket gets at most the servers that name it, and all
of them if none was refused. -/
structure Grown (added : Bool) (more : Int → Nat) (t t' : BeansdbBucketClients) : Prop where
  bucketsCount : t'.bucketsCount = t.bucketsCount
  length : t'.mcClients.length = t.mcClients.length
  buckets : ∀ number bucket, t.bucketAt number = some bucket →
    ∃ count, t'.bucketAt number = some ⟨bucket.size, count⟩ ∧ bucket.count ≤ count ∧
      count ≤ bucket.count + more number ∧ (added → count = bucket.count + more number)

variable {t t' : BeansdbBucketClients} {more more' : Int → Nat} {added : Bool}

theorem bucketAt_ofNat (number : Nat) : t.bucketAt number = t.mcClients[number]? := by
  rw [BeansdbBucketClients.bucketAt, if_neg (Int.not_lt.mpr (Int.natCast_nonneg number)),
    Int.toNat_natCast]

theorem bucketAt_connect {number : Int} {bucket : BeansdbBucket}
    (found : t.bucketAt number = some bucket) (other : Int) :
    (t.connect number bucket).bucketAt other =
      if other = number then some ⟨bucket.size, (bucket.count + 1) % 2 ^ 32⟩
      else t.bucketAt other := by
  unfold BeansdbBucketClients.bucketAt at found ⊢
  split at found
  · cases found
  · next nonneg =>
      obtain ⟨inside, -⟩ := List.getElem?_eq_some_iff.mp found
      unfold BeansdbBucketClients.connect
      dsimp only
      by_cases same : other = number
      · rw [if_pos same, same, if_neg nonneg, List.getElem?_set_self inside]
      · rw [if_neg same]
        split
        · rfl
        · rw [List.getElem?_set_ne]
          omega

theorem Grown.refl (t : BeansdbBucketClients) : Grown true (fun _ => 0) t t :=
  ⟨rfl, rfl, fun _ bucket found => ⟨bucket.count, found, Nat.le_refl _, Nat.le_refl _, fun _ => rfl⟩⟩

theorem Grown.refused (t : BeansdbBucketClients) (more : Int → Nat) : Grown false more t t :=
  ⟨rfl, rfl, fun _ bucket found =>
    ⟨bucket.count, found, Nat.le_refl _, Nat.le_add_right _ _, fun wrong => nomatch wrong⟩⟩

theorem Grown.connect {number : Int} {bucket : BeansdbBucket}
    (found : t.bucketAt number = some bucket) (small : bucket.count + 1 < 2 ^ 32) :
    Grown true (fun other => if other = number then 1 else 0) t (t.connect number bucket) := by
  refine ⟨rfl, List.length_set, fun other bucket' found' => ?_⟩
  rw [bucketAt_connect found, Nat.mod_eq_of_lt small]
  by_cases same : other = number
  · obtain rfl : bucket = bucket' := Option.some.inj (found.symm.trans (same ▸ found'))
    rw [if_pos same, if_pos same]
    exact ⟨bucket.count + 1, rfl, Nat.le_succ _, Nat.le_refl _, fun _ => rfl⟩
  · rw [if_neg same, if_neg same]
    exact ⟨bucket'.count, found', Nat.le_refl _, Nat.le_refl _, fun _ => rfl⟩

theorem Grown.trans {t'' : BeansdbBucketClients} (first : Grown true more t t')
    (second : Grown added more' t' t'') :
    Grown added (fun number => more number + more' number) t t'' := by
  refine ⟨second.bucketsCount.trans first.bucketsCount, second.length.trans first.length,
    fun number bucket found => ?_⟩
  obtain ⟨mid, foundMid, least, -, exactly⟩ := first.buckets number bucket found
  obtain ⟨count, foundLast, least', most', exactly'⟩ := second.buckets number _ foundMid
  dsimp only at least' most' exactly'
  have isMid := exactly rfl
  refine ⟨count, foundLast, Nat.le_trans least least', by omega, fun all => ?_⟩
  have isCount := exactly' all
  omega

/-- A refused server does not bring more than an accepted one. -/
theorem Grown.stop (first : Grown false more t t') (more' : Int → Nat) :
    Grown false (fun number => more number + more' number) t t' := by
  refine ⟨first.bucketsCount, first.length, fun number bucket found => ?_⟩
  obtain ⟨count, found', least, most, -⟩ := first.buckets number bucket found
  exact ⟨count, found', least, by omega, fun wrong => nomatch wrong⟩

theorem Grown.congr (grown : Grown added more t t') (same : ∀ number, more number = more' number) :
    Grown added more' t t' := by
  rwa [← funext same]

/-- One server. -/
theorem addServer_grown {buckets : List Int} (accepted : Nat → Bool) (t : BeansdbBucketClients)
    (fits : ∀ number ∈ buckets, ∃ bucket, t.bucketAt number = some bucket ∧
      bucket.count + buckets.count number < 2 ^ 32) :
    ∃ added t', addServer accepted buckets t = some (added, t') ∧
      Grown added (fun number => buckets.count number) t t' := by
  induction buckets generalizing accepted t with
  | nil => exact ⟨true, t, rfl, Grown.refl t⟩
  | cons number buckets ih =>
      obtain ⟨bucket, found, small⟩ := fits number (List.mem_cons_self ..)
      rw [addServer, found, Option.bind_some]
      cases first : accepted 0 with
      | false => exact ⟨false, t, rfl, Grown.refused t _⟩
      | true =>
          rw [List.count_cons_self] at small
          have grown := Grown.connect found (by omega)
          obtain ⟨added, t', ran, grown'⟩ := ih (fun i => accepted (i + 1)) (t.connect number bucket)
            fun other member => by
              obtain ⟨bucket', found', small'⟩ := fits other (List.mem_cons_of_mem number member)
              obtain ⟨count, foundNext, -, most, -⟩ := grown.buckets other bucket' found'
              refine ⟨_, foundNext, ?_⟩
              rw [List.count_cons] at small'
              dsimp only
              by_cases same : other = number
              · rw [if_pos same] at most
                rw [if_pos (by simpa using same.symm)] at small'
                omega
              · rw [if_neg same] at most
                rw [if_neg (by simpa using Ne.symm same)] at small'
                omega
          refine ⟨added, t', ran, (grown.trans grown').congr fun other => ?_⟩
          rw [List.count_cons, Nat.add_comm]
          by_cases same : other = number
          · rw [if_pos same, if_pos (by simpa using same.symm)]
          · rw [if_neg same, if_neg (by simpa using Ne.symm same)]

/-- All servers of a configuration. -/
theorem addServers_grown {servers : List ServerAddress} {buckets : List Int}
    (accepted : Nat → Nat → Bool) (t : BeansdbBucketClients)
    (fits : servers ≠ [] → ∀ number ∈ buckets, ∃ bucket, t.bucketAt number = some bucket ∧
      bucket.count + servers.length * buckets.count number < 2 ^ 32) :
    ∃ added t', addServers accepted buckets servers t = some (added, t') ∧
      Grown added (fun number => servers.length * buckets.count number) t t' := by
  induction servers generalizing accepted t with
  | nil => exact ⟨true, t, rfl, (Grown.refl t).congr fun number => (Nat.zero_mul _).symm⟩
  | cons server servers ih =>
      have room := fits (List.cons_ne_nil _ _)
      rw [List.length_cons] at room
      have share : ∀ number, buckets.count number + servers.length * buckets.count number =
          (servers.length + 1) * buckets.count number := by
        intro number
        rw [Nat.succ_mul, Nat.add_comm]
      obtain ⟨first, t₁, ran, grown⟩ := addServer_grown (accepted 0) t fun number member => by
        obtain ⟨bucket, found, small⟩ := room number member
        have part := share number
        exact ⟨bucket, found, by omega⟩
      rw [addServers, ran, Option.bind_some]
      cases first with
      | false => exact ⟨false, t₁, rfl, (grown.stop _).congr share⟩
      | true =>
          obtain ⟨added, t', ran', grown'⟩ :=
            ih (fun bindex => accepted (bindex + 1)) t₁ fun _ number member => by
              obtain ⟨bucket, found, small⟩ := room number member
              obtain ⟨count, found', -, most, -⟩ := grown.buckets number bucket found
              have part := share number
              exact ⟨_, found', by dsimp only; omega⟩
          exact ⟨added, t', ran', (grown.trans grown').congr share⟩

end Servers

/-! ## Tables -/

section Tables

variable {t t' : BeansdbBucketClients} {info : ClusterInfo}

/-- A table in range, with as many buckets as it says and sizes of 32 bits. -/
structure Sound (t : BeansdbBucketClients) : Prop where
  length : t.mcClients.length = t.bucketsCount
  sized : ∀ number bucket, t.bucketAt number = some bucket → bucket.size < 2 ^ 32
  inRange : ∀ number bucket, t.bucketAt number = some bucket → bucket.count ≤ bucket.size

/-- Every bucket that a key can pick has a connection. -/
def Stocked (t : BeansdbBucketClients) : Prop :=
  ∀ number : Nat, number < 16 → ∀ bucket, t.bucketAt number = some bucket → 0 < bucket.count

theorem Sound.keeps_range (sound : Sound t) : InRange t := by
  intro bucket member
  obtain ⟨number, found⟩ := List.mem_iff_getElem?.mp member
  exact sound.inRange number bucket (by rw [bucketAt_ofNat, found])

theorem bucketIndex_lt (hash : BitVec 64) : bucketIndex hash < 16 := by
  unfold bucketIndex
  rw [BitVec.toNat_setWidth, BitVec.toNat_and]
  exact Nat.lt_of_le_of_lt (Nat.mod_le _ _)
    (Nat.lt_of_le_of_lt Nat.and_le_right (by decide))

theorem toInt_le (n : Nat) : toInt n ≤ n := by
  unfold toInt
  split <;> omega

theorem served_of_stocked (sound : Sound t) (stocked : Stocked t) : Served t := by
  intro key
  unfold getBucket
  dsimp only
  by_cases outside : t.bucketsCount ≤ bucketIndex (calcHash key)
  · rw [if_pos outside]
    exact Or.inl ⟨_, rfl⟩
  · rw [if_neg outside, BeansdbBucketClients.getBucket, if_neg outside]
    have inside : bucketIndex (calcHash key) < t.mcClients.length := by
      rw [sound.length]
      omega
    have used := stocked _ (bucketIndex_lt (calcHash key)) (t.mcClients[bucketIndex (calcHash key)])
      (by rw [bucketAt_ofNat, List.getElem?_eq_getElem inside])
    rw [List.getElem?_eq_getElem inside, Option.map_some, Option.bind_some]
    generalize t.mcClients[bucketIndex (calcHash key)] = bucket at used
    dsimp only
    rw [if_neg (Nat.ne_of_gt used)]
    split
    · exact Or.inl ⟨_, rfl⟩
    · refine Or.inr ⟨_, _, rfl, used, ?_⟩
      have small := Nat.mod_lt (calcHash key).toNat used
      have below := toInt_le ((calcHash key).toNat % bucket.count)
      omega

theorem bucketAt_init {bucketCount : Int} {servers : Nat} {number : Int} {bucket : BeansdbBucket}
    (found : (BeansdbBucketClients.init bucketCount servers).bucketAt number = some bucket) :
    bucket = ⟨servers % 2 ^ 32, 0⟩ := by
  unfold BeansdbBucketClients.bucketAt at found
  split at found
  · cases found
  · exact List.eq_of_mem_replicate (List.mem_of_getElem? found)

theorem sound_init (bucketCount : Int) (servers : Nat) :
    Sound (BeansdbBucketClients.init bucketCount servers) := by
  refine ⟨List.length_replicate, fun number bucket found => ?_, fun number bucket found => ?_⟩
  · rw [bucketAt_init found]
    exact Nat.mod_lt _ (by decide)
  · rw [bucketAt_init found]
    exact Nat.zero_le _

/-- A table that grew has no new buckets. -/
theorem Grown.bucket_before {added : Bool} {more : Int → Nat} (grown : Grown added more t t')
    {number : Int} {bucket' : BeansdbBucket} (found : t'.bucketAt number = some bucket') :
    ∃ bucket, t.bucketAt number = some bucket ∧ bucket'.size = bucket.size ∧
      bucket.count ≤ bucket'.count ∧ bucket'.count ≤ bucket.count + more number ∧
      (added → bucket'.count = bucket.count + more number) := by
  obtain ⟨bucket, before⟩ : ∃ bucket, t.bucketAt number = some bucket := by
    unfold BeansdbBucketClients.bucketAt at found ⊢
    split at found
    · cases found
    · next nonneg =>
        obtain ⟨inside, -⟩ := List.getElem?_eq_some_iff.mp found
        rw [grown.length] at inside
        exact ⟨_, (if_neg nonneg).trans (List.getElem?_eq_getElem inside)⟩
  obtain ⟨count, after, least, most, exactly⟩ := grown.buckets number bucket before
  obtain rfl := Option.some.inj (found.symm.trans after)
  exact ⟨bucket, before, rfl, least, most, exactly⟩

/-- Servers that fit keep a table sound. -/
theorem Grown.sound {added : Bool} (sound : Sound t) (fits : Fits info t)
    (grown : Grown added (fun number => info.servers.length * info.buckets.count number) t t') :
    Sound t' := by
  refine ⟨by rw [grown.length, sound.length, grown.bucketsCount], fun number bucket' found => ?_,
    fun number bucket' found => ?_⟩
  · obtain ⟨bucket, before, size, -⟩ := grown.bucket_before found
    rw [size]
    exact sound.sized number bucket before
  · obtain ⟨bucket, before, size, -, most, -⟩ := grown.bucket_before found
    have old := sound.inRange number bucket before
    rw [size]
    by_cases idle : info.servers = [] ∨ number ∉ info.buckets
    · have none' : info.servers.length * info.buckets.count number = 0 := by
        rcases idle with noServers | unnamed
        · rw [noServers, List.length_nil, Nat.zero_mul]
        · rw [List.count_eq_zero.mpr unnamed, Nat.mul_zero]
      omega
    · obtain ⟨someServers, named⟩ := not_or.mp idle
      obtain ⟨bucket₁, before₁, room⟩ := fits someServers number (not_not.mp named)
      obtain rfl := Option.some.inj (before.symm.trans before₁)
      omega

/-- The servers of a configuration are added to one table. -/
theorem Sound.addServers (sound : Sound t) (fits : Fits info t) (accepted : Nat → Nat → Bool) :
    ∃ added t', addServers accepted info.buckets info.servers t = some (added, t') ∧ Sound t' ∧
      Grown added (fun number => info.servers.length * info.buckets.count number) t t' := by
  obtain ⟨added, t', ran, grown⟩ := addServers_grown accepted t
    fun someServers number member => by
      obtain ⟨bucket, found, room⟩ := fits someServers number member
      exact ⟨bucket, found, Nat.lt_of_le_of_lt room (sound.sized number bucket found)⟩
  exact ⟨added, t', ran, grown.sound sound fits, grown⟩

theorem Grown.stocked {added : Bool} {more : Int → Nat} (grown : Grown added more t t')
    (stocked : Stocked t) : Stocked t' := by
  intro number small bucket' found
  obtain ⟨bucket, before, -, least, -⟩ := grown.bucket_before found
  exact Nat.lt_of_lt_of_le (stocked number small bucket before) least

/-- A new table is stocked when all buckets below sixteen are named. -/
theorem Grown.stocked_init {t' : BeansdbBucketClients}
    (grown : Grown true (fun number => info.servers.length * info.buckets.count number)
      (.init info.bucketCount info.servers.length) t')
    (named : ∀ number : Nat, number < 16 → number < (info.bucketCount % 2 ^ 32).toNat →
      info.servers ≠ [] ∧ (number : Int) ∈ info.buckets) : Stocked t' := by
  intro number small bucket' found
  obtain ⟨bucket, before, -, -, -, exactly⟩ := grown.bucket_before found
  have inside : number < (info.bucketCount % 2 ^ 32).toNat := by
    rw [bucketAt_ofNat] at before
    obtain ⟨inside, -⟩ := List.getElem?_eq_some_iff.mp before
    exact Nat.lt_of_lt_of_eq inside List.length_replicate
  obtain ⟨someServers, member⟩ := named number small inside
  rw [exactly rfl]
  exact Nat.add_pos_right _
    (Nat.mul_pos (List.length_pos_of_ne_nil someServers) (List.count_pos_iff.mpr member))

end Tables

/-! ## Refused servers -/

section Refused

variable {info : ClusterInfo} {added : Bool}

theorem addServer_added {accepted : Nat → Bool} {buckets : List Int}
    {t t' : BeansdbBucketClients} (ran : addServer accepted buckets t = some (added, t')) :
    added = (List.range buckets.length).all accepted := by
  induction buckets generalizing accepted t with
  | nil => exact (Prod.mk.inj (Option.some.inj ran)).1.symm
  | cons number buckets ih =>
      obtain ⟨bucket, -, rest⟩ := Option.bind_eq_some_iff.mp ran
      rw [List.length_cons, List.range_succ_eq_map, List.all_cons, List.all_map]
      cases first : accepted 0 with
      | false =>
          rw [first] at rest
          exact (Prod.mk.inj (Option.some.inj rest)).1.symm
      | true =>
          rw [first] at rest
          exact ih rest

theorem addServers_added {accepted : Nat → Nat → Bool} {buckets : List Int}
    {servers : List ServerAddress} {t t' : BeansdbBucketClients}
    (ran : addServers accepted buckets servers t = some (added, t')) :
    added = (List.range servers.length).all fun bindex =>
      (List.range buckets.length).all (accepted bindex) := by
  induction servers generalizing accepted t with
  | nil => exact (Prod.mk.inj (Option.some.inj ran)).1.symm
  | cons server servers ih =>
      obtain ⟨⟨first, mid⟩, taken, rest⟩ := Option.bind_eq_some_iff.mp ran
      rw [List.length_cons, List.range_succ_eq_map, List.all_cons, List.all_map,
        ← addServer_added taken]
      cases first with
      | false => exact (Prod.mk.inj (Option.some.inj rest)).1.symm
      | true => exact ih rest

/-- Whether the server `bindex` was taken by all its buckets in the client `pindex`. -/
def allTaken (info : ClusterInfo) (accepted : Nat → Nat → Nat → Bool) (pindex bindex : Nat) : Bool :=
  (List.range info.buckets.length).all (accepted pindex bindex)

/-- The client of the first round is filled with all servers, and the later rounds follow. -/
theorem allTaken_rounds {accepted : Nat → Nat → Nat → Bool} {first : Bool}
    {t t' : BeansdbBucketClients}
    (ran : addServers (accepted 0) info.buckets info.servers t = some (first, t')) (rounds : Nat) :
    ((List.range (rounds + 1)).all fun pindex =>
        (List.range info.servers.length).all (allTaken info accepted pindex)) =
      (first && (List.range rounds).all fun pindex =>
        (List.range info.servers.length).all (allTaken info (fun p => accepted (p + 1)) pindex)) := by
  rw [List.range_succ_eq_map, List.all_cons, List.all_map]
  unfold allTaken
  rw [← addServers_added ran]
  rfl

theorem fillNew_added {accepted : Nat → Nat → Nat → Bool} {rounds : Nat} {pool pool' : ComPool}
    (ran : fillNew info accepted rounds pool = some (added, pool')) :
    added = (List.range rounds).all fun pindex =>
      (List.range info.servers.length).all (allTaken info accepted pindex) := by
  induction rounds generalizing accepted pool with
  | zero => exact (Prod.mk.inj (Option.some.inj ran)).1.symm
  | succ rounds ih =>
      obtain ⟨⟨first, t⟩, taken, rest⟩ := Option.bind_eq_some_iff.mp ran
      rw [allTaken_rounds taken]
      cases first with
      | false => exact (Prod.mk.inj (Option.some.inj rest)).1.symm
      | true => exact ih rest

theorem fillOld_added {accepted : Nat → Nat → Nat → Bool} {rounds pindex : Nat}
    {pool pool' : ComPool} (ran : fillOld info accepted rounds pindex pool = some (added, pool')) :
    added = (List.range rounds).all fun pindex =>
      (List.range info.servers.length).all (allTaken info accepted pindex) := by
  induction rounds generalizing accepted pool pindex with
  | zero => exact (Prod.mk.inj (Option.some.inj ran)).1.symm
  | succ rounds ih =>
      obtain ⟨t, -, later⟩ := Option.bind_eq_some_iff.mp ran
      obtain ⟨⟨first, t'⟩, taken, rest⟩ := Option.bind_eq_some_iff.mp later
      rw [allTaken_rounds taken]
      cases first with
      | false => exact (Prod.mk.inj (Option.some.inj rest)).1.symm
      | true => exact ih rest

/-- A call does to the tables of the clusters what it does without the tables of buckets. -/
theorem addCluster_clusters {s s' : Stores} {call : Call} {ret : Ret}
    (ran : addCluster s call = some (ret, s')) :
    ∃ taken, BeansdbClusters.addCluster taken s.clusters call.conf = some (ret, s'.clusters) := by
  unfold addCluster at ran
  unfold BeansdbClusters.addCluster
  cases parsed : parseConf call.conf with
  | error stop =>
      rw [parsed] at ran
      cases stop with
      | thrown =>
          obtain ⟨rfl, rfl⟩ := Prod.mk.inj (Option.some.inj ran)
          exact ⟨fun _ _ => true, rfl⟩
      | fault => cases ran
  | ok info =>
      rw [parsed] at ran
      refine ⟨allTaken info call.accepted, ?_⟩
      dsimp only at ran ⊢
      cases found : (s.clusters.locate info).find info.picType info.clusterFlag with
      | some pool =>
          rw [found] at ran
          obtain ⟨⟨added, filled⟩, fill, result⟩ := Option.map_eq_some_iff.mp ran
          obtain ⟨rfl, rfl⟩ := Prod.mk.inj result
          rw [fillOld_added fill]
      | none =>
          rw [found] at ran
          obtain ⟨⟨added, filled⟩, fill, result⟩ := Option.map_eq_some_iff.mp ran
          obtain ⟨rfl, rfl⟩ := Prod.mk.inj result
          rw [← fillNew_added fill]
          cases added <;> rfl

theorem poolsApart_step {s s' : Stores} {call : Call} (pools : PoolsApart s.clusters)
    (taken : step s call = some s') : PoolsApart s'.clusters := by
  obtain ⟨⟨ret, last⟩, ran, rfl⟩ := Option.map_eq_some_iff.mp taken
  obtain ⟨_, below⟩ := addCluster_clusters ran
  exact pools.addCluster below

end Refused

/-! ## Filling a pool -/

section Filling

variable {info : ClusterInfo}

/-- No table of the pool was deleted, and each has the property. -/
def ComPool.All (pool : ComPool) (Good : BeansdbBucketClients → Prop) : Prop :=
  ∀ node ∈ pool.nodes, ∃ t, node = some t ∧ Good t

theorem ComPool.All.add {Good : BeansdbBucketClients → Prop} {pool : ComPool}
    {t : BeansdbBucketClients} (all : pool.All Good) (good : Good t) : (pool.add t).All Good := by
  unfold ComPool.add
  split
  · exact all
  · intro node member
    rcases List.mem_append.mp member with old | new
    · exact all node old
    · exact ⟨t, List.mem_singleton.mp new, good⟩

theorem ComPool.All.put {Good : BeansdbBucketClients → Prop} {pool : ComPool} {index : Nat}
    {t : BeansdbBucketClients} (all : pool.All Good) (good : Good t) :
    (pool.put index (some t)).All Good := by
  intro node member
  rcases List.mem_or_eq_of_mem_set member with old | rfl
  · exact all node old
  · exact ⟨t, rfl, good⟩

/-- The tables of a new pool have every property of a table that got all its servers. -/
theorem fillNew_all {Good : BeansdbBucketClients → Prop}
    (fits : Fits info (.init info.bucketCount info.servers.length))
    (good : ∀ t, Sound t → Grown true
      (fun number => info.servers.length * info.buckets.count number)
      (.init info.bucketCount info.servers.length) t → Good t)
    (accepted : Nat → Nat → Nat → Bool) (rounds : Nat) {pool : ComPool} (all : pool.All Good) :
    ∃ added pool', fillNew info accepted rounds pool = some (added, pool') ∧ pool'.All Good := by
  induction rounds generalizing accepted pool with
  | zero => exact ⟨true, pool, rfl, all⟩
  | succ rounds ih =>
      obtain ⟨first, t, ran, sound, grown⟩ := (sound_init _ _).addServers fits (accepted 0)
      rw [fillNew, ran, Option.bind_some]
      cases first with
      | false => exact ⟨false, pool, rfl, all⟩
      | true => exact ih _ (all.add (good t sound grown))

/-- Servers that are all taken and fit keep the tables of a pool sound and stocked. -/
theorem fillOld_all {accepted : Nat → Nat → Nat → Bool} {rounds pindex : Nat} {pool : ComPool}
    (all : pool.All fun t => Sound t ∧ Stocked t)
    (clients : pindex + rounds ≤ pool.nodes.length)
    (taken : ∀ p < rounds, ∀ bindex < info.servers.length, ∀ i < info.buckets.length,
      accepted p bindex i)
    (fits : ∀ p, pindex ≤ p → p < pindex + rounds → ∀ t, pool.nodes[p]? = some (some t) →
      Fits info t) :
    ∃ pool', fillOld info accepted rounds pindex pool = some (true, pool') ∧
      pool'.All fun t => Sound t ∧ Stocked t := by
  induction rounds generalizing accepted pool pindex with
  | zero => exact ⟨pool, rfl, all⟩
  | succ rounds ih =>
      have inside : pindex < pool.nodes.length := by omega
      obtain ⟨t, isNode, sound, stocked⟩ := all _ (List.getElem_mem inside)
      have found : pool.nodes[pindex]? = some (some t) := by
        rw [List.getElem?_eq_getElem inside, isNode]
      obtain ⟨added, t', ran, sound', grown⟩ :=
        sound.addServers (fits pindex (Nat.le_refl _) (by omega) t found) (accepted 0)
      have noneRefused : added = true := by
        rw [addServers_added ran, List.all_eq_true]
        intro bindex member
        rw [List.all_eq_true]
        intro i member'
        exact taken 0 (Nat.succ_pos _) bindex (List.mem_range.mp member) i
          (List.mem_range.mp member')
      rw [fillOld, found, Option.join_some, Option.bind_some, ran, Option.bind_some, noneRefused]
      refine ih (all.put ⟨sound', grown.stocked stocked⟩) ?_
        (fun p small => taken (p + 1) (Nat.succ_lt_succ small)) ?_
      · rw [ComPool.put, List.length_set]
        omega
      · intro p after before t₁ found₁
        rw [ComPool.put, List.getElem?_set_ne (by omega)] at found₁
        exact fits p (by omega) (by omega) t₁ found₁

end Filling

/-! ## Runs -/

section Runs

variable {s s' : Stores} {call : Call}

/-- The invariant: pools are apart, all tables that were not deleted are sound, and those of the
clusters are there and stocked. -/
structure Stable (s : Stores) : Prop where
  apart : PoolsApart s.clusters
  sound : ∀ pool t, some t ∈ (s.pools pool).nodes → Sound t
  stocked : ∀ kind flag pool, s.clusters.find kind flag = some pool →
    (s.pools pool).All fun t => Sound t ∧ Stocked t

theorem stable_empty : Stable {} :=
  ⟨poolsApart_empty, fun _ _ member => absurd member List.not_mem_nil, fun _ _ _ found =>
    nomatch found⟩

theorem Stable.kept (stable : Stable s) : Kept s := by
  refine ⟨fun pool t member => (stable.sound pool t member).keeps_range,
    fun kind flag pool found node member => ?_⟩
  obtain ⟨t, isNode, sound, stocked⟩ := stable.stocked kind flag pool found node member
  exact ⟨t, isNode, served_of_stocked sound stocked⟩

/-- Sound tables stay so when one pool is filled anew. -/
theorem Stable.sound_update (stable : Stable s) (pool : Nat) {filled : ComPool}
    (all : filled.All Sound) (other : Nat) (t : BeansdbBucketClients)
    (member : some t ∈ (Function.update s.pools pool filled other).nodes) : Sound t := by
  by_cases same : other = pool
  · rw [same, Function.update_self] at member
    obtain ⟨t', isNode, sound⟩ := all _ member
    exact Option.some.inj isNode ▸ sound
  · rw [Function.update_of_ne same] at member
    exact stable.sound other t member

theorem ComPool.All.imp {Good Good' : BeansdbBucketClients → Prop} {pool : ComPool}
    (all : pool.All Good) (weaker : ∀ t, Good t → Good' t) : pool.All Good' := by
  intro node member
  obtain ⟨t, isNode, good⟩ := all node member
  exact ⟨t, isNode, weaker t good⟩

/-- A call for a cluster that exists. -/
theorem Stable.step_old (stable : Stable s) {info : ClusterInfo} {pool : Nat}
    (parsed : parseConf call.conf = .ok info)
    (found : s.clusters.find info.picType info.clusterFlag = some pool)
    (roomy : 0 < info.poolSize → RoomyOld call.accepted info (s.pools pool)) :
    ∃ s', step s call = some s' ∧ Stable s' := by
  have all := stable.stocked _ _ _ found
  obtain ⟨filled, fill, allFilled⟩ : ∃ filled,
      fillOld info call.accepted info.poolSize.toNat 0 (s.pools pool) = some (true, filled) ∧
        filled.All fun t => Sound t ∧ Stocked t := by
    by_cases some' : 0 < info.poolSize
    · obtain ⟨clients, taken, fits⟩ := roomy some'
      exact fillOld_all all (by omega) taken fun p _ small t => fits p (by omega) t
    · rw [Int.toNat_of_nonpos (by omega)]
      exact ⟨_, rfl, all⟩
  have located : (s.clusters.locate info).find info.picType info.clusterFlag = some pool := by
    rw [find_locate, found]
  have taken : step s call =
      some ⟨s.clusters.locate info, Function.update s.pools pool filled⟩ := by
    unfold step addCluster
    rw [parsed]
    dsimp only
    rw [located]
    dsimp only
    rw [fill]
    rfl
  refine ⟨_, taken, poolsApart_step stable.apart taken,
    stable.sound_update pool (allFilled.imp fun t both => both.1), fun kind flag other found' => ?_⟩
  dsimp only at found' ⊢
  rw [find_locate] at found'
  by_cases same : other = pool
  · rwa [same, Function.update_self]
  · rw [Function.update_of_ne same]
    exact stable.stocked kind flag other found'

/-- A call for a new cluster. -/
theorem Stable.step_new (stable : Stable s) {info : ClusterInfo}
    (parsed : parseConf call.conf = .ok info)
    (absent : s.clusters.find info.picType info.clusterFlag = none)
    (roomy : 0 < info.poolSize → RoomyNew call.accepted info) :
    ∃ s', step s call = some s' ∧ Stable s' := by
  obtain ⟨added, filled, fill, allSound, allStocked⟩ : ∃ added filled,
      fillNew info call.accepted info.poolSize.toNat { maxNodes := info.poolSize } =
        some (added, filled) ∧ filled.All Sound ∧
        (added = true → filled.All fun t => Sound t ∧ Stocked t) := by
    by_cases some' : 0 < info.poolSize
    · obtain ⟨fits, named⟩ := roomy some'
      obtain ⟨added, filled, fill, allSound⟩ := fillNew_all fits (fun _ sound _ => sound)
        call.accepted info.poolSize.toNat
        (fun _ member => absurd member List.not_mem_nil :
          ComPool.All { maxNodes := info.poolSize } Sound)
      refine ⟨added, filled, fill, allSound, fun isAdded => ?_⟩
      have taken : Accepted call.accepted info := by
        have all := fillNew_added fill
        rw [isAdded] at all
        intro pindex p bindex b i j
        have client := List.all_eq_true.mp all.symm pindex (List.mem_range.mpr p)
        have server := List.all_eq_true.mp client bindex (List.mem_range.mpr b)
        exact List.all_eq_true.mp server i (List.mem_range.mpr j)
      obtain ⟨added', filled', fill', all⟩ := fillNew_all fits
        (fun t sound grown => And.intro sound (grown.stocked_init (named taken)))
        call.accepted info.poolSize.toNat
        (fun _ member => absurd member List.not_mem_nil :
          ComPool.All { maxNodes := info.poolSize } _)
      obtain ⟨-, rfl⟩ := Prod.mk.inj (Option.some.inj (fill.symm.trans fill'))
      exact all
    · rw [Int.toNat_of_nonpos (by omega)]
      exact ⟨true, _, rfl, fun _ member => absurd member List.not_mem_nil,
        fun _ _ member => absurd member List.not_mem_nil⟩
  have located : (s.clusters.locate info).find info.picType info.clusterFlag = none := by
    rw [find_locate, absent]
  obtain ⟨s', taken, isLast⟩ : ∃ s', step s call = some s' ∧
      s' = ⟨if added then { s.clusters.locate info with
              nextPool := (s.clusters.locate info).nextPool + 1 }.insert info.picType
                info.clusterFlag (s.clusters.locate info).nextPool
            else { s.clusters.locate info with
              nextPool := (s.clusters.locate info).nextPool + 1 },
          Function.update s.pools (s.clusters.locate info).nextPool filled⟩ := by
    refine ⟨_, ?_, rfl⟩
    unfold step addCluster
    rw [parsed]
    dsimp only
    rw [located]
    dsimp only
    rw [fill]
    rfl
  refine ⟨s', taken, poolsApart_step stable.apart taken, ?_, ?_⟩
  · rw [isLast]
    exact stable.sound_update _ allSound
  · rw [isLast, nextPool_locate]
    dsimp only
    intro kind flag pool found
    have old : s.clusters.find kind flag = some pool →
        (Function.update s.pools s.clusters.nextPool filled pool).All
          fun t => Sound t ∧ Stocked t := by
      intro before
      have used := stable.apart.used kind flag pool before
      rw [Function.update_of_ne (Nat.ne_of_lt used)]
      exact stable.stocked kind flag pool before
    have others : ({ s.clusters.locate info with nextPool := s.clusters.nextPool + 1 } :
        Clusters).find kind flag = s.clusters.find kind flag := find_locate info kind flag
    cases added with
    | false => exact old (others.symm.trans found)
    | true =>
        rw [if_pos rfl, find_insert] at found
        split at found
        · obtain rfl := Option.some.inj found
          rw [Function.update_self]
          exact allStocked rfl
        · exact old (others.symm.trans found)

/-- A roomy call is carried out and keeps the invariant. -/
theorem Stable.step_roomy (stable : Stable s) (roomy : Roomy s call) :
    ∃ s', step s call = some s' ∧ Stable s' := by
  unfold Roomy at roomy
  split at roomy
  · exact roomy.elim
  · next thrown =>
      refine ⟨s, ?_, stable⟩
      unfold step addCluster
      rw [thrown]
      rfl
  · next info parsed =>
      cases found : s.clusters.find info.picType info.clusterFlag with
      | some pool =>
          rw [found] at roomy
          exact stable.step_old parsed found roomy
      | none =>
          rw [found] at roomy
          exact stable.step_new parsed found roomy

/-- Configurations that leave room keep all tables in range and every key served. -/
theorem kept_of_roomy {calls : List Call} (roomy : Meets step Roomy {} calls) :
    ∃ s, exec step {} calls = some s ∧ Kept s := by
  obtain ⟨s, ran, stable⟩ :=
    exec_progress (fun _ _ stable roomy => Stable.step_roomy stable roomy) stable_empty roomy
  exact ⟨s, ran, stable.kept⟩

end Runs

/-- One client and one server, which is accepted. -/
def oneServer (bucketsNum : Char) (more : Text) : Call where
  accepted := fun _ _ _ => true
  conf := ['p', 'o', 'o', 'l', '_', 's', 'i', 'z', 'e', '=', '1', ';'] ++
    ['s', 'e', 'r', 'v', 'e', 'r', 's', '=', 'a', ':', '1', ';'] ++
    ['b', 'u', 'c', 'k', 'e', 't', 's', '_', 'n', 'u', 'm', '=', bucketsNum, ';'] ++
    ['b', 'u', 'c', 'k', 'e', 't', 's', '=', '0'] ++ more

def oneServerInfo (bucketCount : Int) (buckets : List Int) : ClusterInfo where
  poolSize := 1
  servers := [⟨['a'], 1⟩]
  bucketCount := bucketCount
  buckets := buckets

theorem kept_of_roomy_two_buckets :
    ∃ s, exec step {} [oneServer '2' [',', '1']] = some s ∧ Kept s := by
  have parsed : parseConf (oneServer '2' [',', '1']).conf = .ok (oneServerInfo 2 [0, 1]) := rfl
  refine kept_of_roomy ⟨?_, fun _ _ => trivial⟩
  unfold Roomy
  rw [parsed]
  intro _
  refine RoomyNew.mk (fun _ number member => ?_) fun _ number _ inside => ?_
  · rcases List.mem_cons.mp member with rfl | member
    · exact ⟨⟨1, 0⟩, rfl, by decide⟩
    · obtain rfl := List.mem_singleton.mp member
      exact ⟨⟨1, 0⟩, rfl, by decide⟩
  · have small : number < 2 := inside
    refine ⟨List.cons_ne_nil _ _, ?_⟩
    unfold oneServerInfo
    interval_cases number <;> decide

/-- A configuration that is read twice uses two connections of one, and the empty key picks the ninth
of nine buckets, which no server has. -/
theorem not_kept_twice_or_unnamed :
    (¬ ∃ s, exec step {} [oneServer '1' [], oneServer '1' []] = some s ∧ Kept s) ∧
      ¬ ∃ s, exec step {} [oneServer '9' []] = some s ∧ Kept s := by
  constructor
  · rintro ⟨s, ran, kept⟩
    have state : exec step {} [oneServer '1' [], oneServer '1' []] = some
        ⟨_, Function.update (Function.update _ 0 _) 0 ⟨1, [some ⟨1, [⟨1, 2⟩]⟩]⟩⟩ := rfl
    obtain rfl := Option.some.inj (ran.symm.trans state)
    have wrong := kept.inRange 0 ⟨1, [⟨1, 2⟩]⟩ (List.mem_singleton.mpr rfl) ⟨1, 2⟩
      (List.mem_singleton.mpr rfl)
    exact absurd wrong (by decide)
  · rintro ⟨s, ran, kept⟩
    have state : exec step {} [oneServer '9' []] = some
        ⟨_, Function.update _ 0 ⟨1, [some ⟨9, ⟨1, 1⟩ :: List.replicate 8 ⟨1, 0⟩⟩]⟩⟩ := rfl
    obtain rfl := Option.some.inj (ran.symm.trans state)
    obtain ⟨t, isNode, served⟩ := kept.served defaultName defaultName 0 rfl _
      (List.mem_singleton.mpr rfl)
    obtain rfl := Option.some.inj isNode
    have divides : getBucket ⟨9, ⟨1, 1⟩ :: List.replicate 8 ⟨1, 0⟩⟩ [] = none := by decide
    rcases served [] with ⟨error, refused⟩ | ⟨bucket, index, found, -⟩
    · exact nomatch divides.symm.trans refused
    · exact nomatch divides.symm.trans found

end MlsImgSearch.Common.BeansdbBuckets
