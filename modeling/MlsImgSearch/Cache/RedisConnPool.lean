import MlsImgSearch.Lib.Ledger
import MlsImgSearch.Lib.Run
import MlsImgSearch.Lib.Strings

/-!
# The connections to redis nodes

A pool keeps a queue of connections for each node, and one semaphore counts the
connections of all queues. Connections that do not work wait for a retry worker.
Calls run at the same time; a section under a mutex is one step, and so is an
operation on the semaphore.
-/

namespace MlsImgSearch.Cache.RedisConnPool

open Lib.Ledger Lib.Run
open Lib.Strings (Text)

/-! ## The state -/

/-- A connection and the node it was created for. -/
structure Conn where
  id : Nat
  node : Text
  deriving DecidableEq

/-- An entry of `avail_conn_`; `deque` tells the queue apart from other queues of the node. -/
structure Entry where
  node : Text
  deque : Nat
  conns : List Conn
  deriving DecidableEq

/-- `GetConn` and `FreeConn` are called with the key of a shard, `GetConnComm` and `FreeConnComm`
with the name of a node. -/
inductive Key where
  | shard (redisKey : Text)
  | node (nodeDesc : Text)
  deriving DecidableEq

/-- Where `AddServer_` puts connections: into a queue of the map or into a new one. -/
inductive Server where
  | entry (deque : Nat)
  | new (conns : List Conn)
  deriving DecidableEq

/-- A call in progress. -/
inductive Op where
  /-- `AddServer` has found the node. -/
  | found (node : Text) (conns : Nat)
  /-- `AddServer_` with the connections that are still to be made. -/
  | adding (node : Text) (server : Server) (conns : Nat)
  | waiting (key : Key)
  /-- The semaphore was lowered. -/
  | taken (key : Key)
  /-- The semaphore is raised before a null pointer is returned; with what the call has changed:
  the semaphore by a number, and whether it has changed the map. -/
  | givesBack (semaphore : Int) (map : Bool)
  /-- The node of a connection that is freed was found. -/
  | freeing (node : Text) (conn : Conn)
  /-- `CheckOneConn`, before it looks for the node and after that. -/
  | checking (node : Text) (conn : Conn)
  | pinging (node : Text) (conn : Conn)
  deriving DecidableEq

/-- The pool. `deques` and `created` count the queues and the connections that were ever made;
`held` are the connections in use, with the key they were obtained with. `nulls` are the calls that
returned a null pointer, with what they changed, and `removed` the nodes that `DelServer` removed
and `AddServer` did not add again. -/
structure Pool where
  entries : List Entry
  deques : Nat
  invalid : List (Text × Conn)
  sem : Nat
  created : Nat
  held : List (Key × Conn)
  ops : List Op
  deleted : List Conn
  nulls : List (Int × Bool)
  removed : List Text
  fault : Bool
  deriving DecidableEq

def Pool.initial : Pool := ⟨[], 0, [], 0, 0, [], [], [], [], [], false⟩

/-! ## The map -/

def findEntry (node : Text) (entries : List Entry) : Option Entry :=
  entries.find? fun e => decide (e.node = node)

/-- Change the queue of a node. -/
def setConns (node : Text) (conns : List Conn) : List Entry → List Entry
  | [] => []
  | e :: rest =>
      if e.node = node then { e with conns := conns } :: rest else e :: setConns node conns rest

def eraseEntry (node : Text) (entries : List Entry) : List Entry :=
  entries.eraseP fun e => decide (e.node = node)

def addEntry (p : Pool) (node : Text) (conns : List Conn) : Pool :=
  { p with
    entries := p.entries ++ [⟨node, p.deques, conns⟩]
    deques := p.deques + 1 }

/-- `avail_conn_[node].push_back(conn)` and `sem_post`. -/
def pushAvail (p : Pool) (node : Text) (conn : Conn) : Pool :=
  match findEntry node p.entries with
  | some e =>
      { p with entries := setConns node (e.conns ++ [conn]) p.entries, sem := p.sem + 1 }
  | none => { addEntry p node [conn] with sem := p.sem + 1 }

def pushInvalid (p : Pool) (node : Text) (conn : Conn) : Pool :=
  { p with invalid := p.invalid ++ [(node, conn)] }

def deleteConn (p : Pool) (conn : Conn) : Pool := { p with deleted := p.deleted ++ [conn] }

/-- The two names that a key stands for. -/
def getStrConf (redisKey : Text) : Text × Text :=
  match redisKey.splitOn ':' with
  | [first, _] => (redisKey, first)
  | first :: second :: _ :: _ => (first, first ++ ':' :: second)
  | _ => (redisKey, redisKey)

/-- The node that `GetConn` and `FreeConn` find for a key. -/
def nodeOf (entries : List Entry) (redisKey : Text) : Option Entry :=
  (findEntry (getStrConf redisKey).1 entries).or (findEntry (getStrConf redisKey).2 entries)

/-! ## The calls -/

def push (p : Pool) (op : Op) : Pool := { p with ops := op :: p.ops }

def addServer (p : Pool) (node : Text) (conns : Nat) : Pool :=
  match findEntry node p.entries with
  | some _ => push p (.found node conns)
  | none => push p (.adding node (.new []) conns)

/-- The reference that `AddServer` passes; the node is there again if it was removed meanwhile. -/
def refer (p : Pool) (node : Text) (conns : Nat) : Pool :=
  match findEntry node p.entries with
  | some e => push p (.adding node (.entry e.deque) conns)
  | none =>
      push { addEntry p node [] with removed := p.removed.filter fun n => decide (n ≠ node) }
        (.adding node (.entry p.deques) conns)

/-- A connection was made; a queue that does not exist any more must not be used. -/
def connected (p : Pool) (node : Text) (server : Server) (conns : Nat) : Pool :=
  let conn : Conn := ⟨p.created, node⟩
  let p := { p with created := p.created + 1 }
  match server with
  | .new queue =>
      push { p with sem := p.sem + 1 } (.adding node (.new (queue ++ [conn])) conns)
  | .entry deque =>
      match findEntry node p.entries with
      | none => { p with fault := true }
      | some e =>
          if e.deque = deque then push (pushAvail p node conn) (.adding node server conns)
          else { p with fault := true }

def notConnected (p : Pool) (node : Text) (server : Server) (conns : Nat) : Pool :=
  let conn : Conn := ⟨p.created, node⟩
  push (pushInvalid { p with created := p.created + 1 } node conn) (.adding node server conns)

/-- The end of `AddServer`: a new queue is written over that of the node. -/
def added (p : Pool) (node : Text) : Server → Pool
  | .entry _ => p
  | .new queue =>
      let p := { p with removed := p.removed.filter fun n => decide (n ≠ node) }
      match findEntry node p.entries with
      | some _ => { p with entries := setConns node queue p.entries }
      | none => addEntry p node queue

def delServer (p : Pool) (node : Text) : Pool :=
  let p := { p with removed := node :: p.removed }
  match findEntry node p.entries with
  | some e =>
      { p with entries := eraseEntry node p.entries, deleted := p.deleted ++ e.conns }
  | none => p

/-- Take the first connection of a queue. -/
def popAvail (p : Pool) (key : Key) (e : Entry) : Pool :=
  match e.conns with
  | [] => push p (.givesBack (-1) false)
  | conn :: rest =>
      { p with
        entries := setConns e.node rest p.entries
        held := p.held ++ [(key, conn)] }

/-- The locked section of `GetConn` and of `GetConnComm`. -/
def getSection (p : Pool) : Key → Pool
  | .shard redisKey =>
      match nodeOf p.entries redisKey with
      | some e => popAvail p (.shard redisKey) e
      | none => { p with nulls := p.nulls ++ [(-1, false)] }
  | .node nodeDesc =>
      match findEntry nodeDesc p.entries with
      | some e => popAvail p (.node nodeDesc) e
      | none => push (addEntry p nodeDesc []) (.givesBack (-1) true)

/-- The first section of `FreeConn` and of `FreeConnComm`. -/
def freeSection (p : Pool) (conn : Conn) : Key → Pool
  | .shard redisKey =>
      match nodeOf p.entries redisKey with
      | some e => push p (.freeing e.node conn)
      | none => p
  | .node nodeDesc =>
      match findEntry nodeDesc p.entries with
      | some _ => push p (.freeing nodeDesc conn)
      | none => deleteConn p conn

/-- The first section of `CheckOneConn`. -/
def checkSection (p : Pool) (node : Text) (conn : Conn) : Pool :=
  match findEntry node p.entries with
  | some _ => push p (.pinging node conn)
  | none => deleteConn p conn

/-! ## Steps -/

/-- What a call meets outside of the pool. -/
inductive Choice where
  | proceeds
  | connects
  | connectFails
  | noMemory
  | timeout
  deriving DecidableEq

/-- The next step of a call, which is not among the calls of `p`. -/
def advance (p : Pool) : Op → Choice → Option Pool
  | .found node conns, .proceeds => some (refer p node conns)
  | .adding node server 0, .proceeds => some (added p node server)
  | .adding node server (conns + 1), .connects => some (connected p node server conns)
  | .adding node server (conns + 1), .connectFails => some (notConnected p node server conns)
  | .adding _ _ (_ + 1), .noMemory => some p
  | .waiting key, .proceeds =>
      if 0 < p.sem then some (push { p with sem := p.sem - 1 } (.taken key)) else none
  | .waiting _, .timeout => if p.sem = 0 then some (push p (.givesBack 0 false)) else none
  | .taken key, .proceeds => some (getSection p key)
  | .givesBack semaphore map, .proceeds =>
      some { p with sem := p.sem + 1, nulls := p.nulls ++ [(semaphore + 1, map)] }
  | .freeing node conn, .connects => some (pushAvail p node conn)
  | .freeing node conn, .connectFails => some (pushInvalid p node conn)
  | .checking node conn, .proceeds => some (checkSection p node conn)
  | .pinging node conn, .connects => some (pushAvail p node conn)
  | .pinging node conn, .connectFails => some (pushInvalid p node conn)
  | _, _ => none

inductive Label where
  | addServer (node : Text) (conns : Nat)
  | delServer (node : Text)
  | getConn (key : Key)
  /-- The connection in use with this number is freed. -/
  | freeConn (i : Nat)
  /-- The retry worker takes a connection. -/
  | retry
  /-- The call with this number takes its next step. -/
  | advance (i : Nat) (choice : Choice)
  deriving DecidableEq

def handle (p : Pool) : Label → Option Pool
  | .addServer node conns => some (addServer p node conns)
  | .delServer node => some (delServer p node)
  | .getConn key => some (push p (.waiting key))
  | .freeConn i =>
      p.held[i]?.map fun (key, conn) =>
        freeSection { p with held := p.held.eraseIdx i } conn key
  | .retry =>
      match p.invalid with
      | [] => none
      | (node, conn) :: rest => some (push { p with invalid := rest } (.checking node conn))
  | .advance i choice =>
      p.ops[i]?.bind fun op => advance { p with ops := p.ops.eraseIdx i } op choice

/-- Nothing runs after a fault. -/
def step (p : Pool) (label : Label) : Option Pool := if p.fault then none else handle p label

/-! ## What is wanted -/

def availConns (p : Pool) : List Conn := p.entries.flatMap Entry.conns

/-- The connections that a call has in its hands. -/
def Op.conns : Op → List Conn
  | .adding _ (.new conns) _ => conns
  | .freeing _ conn => [conn]
  | .checking _ conn => [conn]
  | .pinging _ conn => [conn]
  | _ => []

def places (p : Pool) : List Conn :=
  availConns p ++ p.invalid.map Prod.snd ++ p.held.map Prod.snd ++ p.ops.flatMap Op.conns ++
    p.deleted

structure Correct (p : Pool) : Prop where
  fault : p.fault = false
  nodes : ∀ e ∈ p.entries, ∀ conn ∈ e.conns, conn.node = e.node
  /-- Each connection is in one place. -/
  accounted : Accounted p.created ((places p).map Conn.id)
  sem : p.ops = [] → p.sem = (availConns p).length
  nulls : ∀ change ∈ p.nulls, change = (0, false)
  removed : ∀ node ∈ p.removed, findEntry node p.entries = none

/-- The queue of a node has no connections. -/
def Drained (entries : List Entry) (node : Text) : Prop :=
  ∀ e ∈ findEntry node entries, e.conns = []

def HasEntry (entries : List Entry) (node : Text) : Prop := (findEntry node entries).isSome

/-- No wait runs out, the node of a key is there, also when a connection is written back to it; a
new queue is not written over connections, a queue that was removed is not written to, and memory
does not run out. -/
def AllowedOp (entries : List Entry) (choice : Choice) : Op → Prop
  | .found _ _ => True
  | .adding node (.new _) 0 => Drained entries node
  | .adding _ (.new conns) (_ + 1) => choice = .noMemory → conns = []
  | .adding _ (.entry _) 0 => True
  | .adding node (.entry deque) (_ + 1) =>
      choice = .connects → ∃ e ∈ findEntry node entries, e.deque = deque
  | .waiting _ => choice ≠ .timeout
  | .taken (.shard redisKey) => (nodeOf entries redisKey).isSome
  | .taken (.node nodeDesc) => HasEntry entries nodeDesc
  | .givesBack _ _ => True
  | .freeing node _ => choice = .connects → HasEntry entries node
  | .checking _ _ => True
  | .pinging node _ => choice = .connects → HasEntry entries node

/-- Also, a node is removed only without connections in its queue, and a key still names the node of
the connection that is freed with it. -/
def Allowed (p : Pool) : Label → Prop
  | .addServer _ _ => True
  | .delServer node => Drained p.entries node
  | .getConn _ => True
  | .freeConn i => ∀ h ∈ p.held[i]?, match h.1 with
      | .shard redisKey => ∃ e ∈ nodeOf p.entries redisKey, e.node = h.2.node
      | .node _ => True
  | .retry => True
  | .advance i choice => ∀ op ∈ p.ops[i]?, AllowedOp p.entries choice op

instance decidableAllowedOp (entries : List Entry) (choice : Choice) :
    ∀ op, Decidable (AllowedOp entries choice op)
  | .found _ _ => isTrue trivial
  | .adding _ (.new _) 0 => inferInstanceAs (Decidable (∀ e ∈ findEntry _ _, _))
  | .adding _ (.new _) (_ + 1) => inferInstanceAs (Decidable (_ → _))
  | .adding _ (.entry _) 0 => isTrue trivial
  | .adding _ (.entry _) (_ + 1) => inferInstanceAs (Decidable (_ → ∃ e ∈ findEntry _ _, _))
  | .waiting _ => inferInstanceAs (Decidable (_ ≠ _))
  | .taken (.shard _) => inferInstanceAs (Decidable (_ = true))
  | .taken (.node _) => inferInstanceAs (Decidable (_ = true))
  | .givesBack _ _ => isTrue trivial
  | .freeing _ _ => inferInstanceAs (Decidable (_ → _ = true))
  | .checking _ _ => isTrue trivial
  | .pinging _ _ => inferInstanceAs (Decidable (_ → _ = true))

instance decidableAllowed (p : Pool) : ∀ label, Decidable (Allowed p label)
  | .addServer _ _ => isTrue trivial
  | .delServer _ => inferInstanceAs (Decidable (∀ e ∈ findEntry _ _, _))
  | .getConn _ => isTrue trivial
  | .freeConn i =>
      match isHeld : p.held[i]? with
      | none => isTrue fun h member => absurd (isHeld.symm.trans member) (by simp)
      | some (.node _, _) => isTrue fun h member => by
          obtain rfl := Option.some.inj (isHeld.symm.trans member)
          trivial
      | some (.shard redisKey, conn) =>
          decidable_of_iff (∃ e ∈ nodeOf p.entries redisKey, e.node = conn.node) (by
            simp [Allowed, isHeld])
  | .retry => isTrue trivial
  | .advance i _ => inferInstanceAs (Decidable (∀ op ∈ p.ops[i]?, _))

/-! ## Lemmas about the map -/

section Map

variable {entries : List Entry} {node : Text} {e : Entry}

theorem findEntry_some (found : findEntry node entries = some e) : e ∈ entries ∧ e.node = node :=
  ⟨List.mem_of_find?_eq_some found, by simpa using List.find?_some found⟩

theorem findEntry_none_iff : findEntry node entries = none ↔ node ∉ entries.map Entry.node := by
  simp [findEntry, List.find?_eq_none]

@[simp]
theorem setConns_nodes (conns : List Conn) :
    (setConns node conns entries).map Entry.node = entries.map Entry.node := by
  induction entries with
  | nil => rfl
  | cons first rest ih =>
      rw [setConns]
      split
      · rfl
      · rw [List.map_cons, List.map_cons, ih]

theorem mem_setConns {conns : List Conn} (member : e ∈ setConns node conns entries) :
    e ∈ entries ∨ e.node = node ∧ e.conns = conns := by
  induction entries with
  | nil => exact absurd member List.not_mem_nil
  | cons first rest ih =>
      rw [setConns] at member
      split at member
      · rename_i same
        rcases List.mem_cons.mp member with rfl | later
        · exact Or.inr ⟨same, rfl⟩
        · exact Or.inl (List.mem_cons_of_mem first later)
      · rcases List.mem_cons.mp member with rfl | later
        · exact Or.inl List.mem_cons_self
        · exact (ih later).imp_left (List.mem_cons_of_mem first)

/-- The connections of one queue and the others, before and after the queue is changed. -/
theorem conns_setConns (found : findEntry node entries = some e) :
    ∃ others, (entries.flatMap Entry.conns).Perm (e.conns ++ others) ∧
      ∀ conns, ((setConns node conns entries).flatMap Entry.conns).Perm (conns ++ others) := by
  induction entries with
  | nil => exact absurd found (by simp [findEntry])
  | cons first rest ih =>
      by_cases same : first.node = node
      · obtain rfl : first = e := by simpa [findEntry, same] using found
        refine ⟨rest.flatMap Entry.conns, List.Perm.refl _, fun conns => ?_⟩
        rw [setConns, if_pos same]
        exact List.Perm.refl _
      · obtain ⟨others, before, after⟩ := ih (by simpa [findEntry, same] using found)
        refine ⟨first.conns ++ others, ?_, fun conns => ?_⟩
        · rw [List.flatMap_cons]
          exact (before.append_left first.conns).trans (List.perm_append_comm_assoc _ _ _)
        · rw [setConns, if_neg same, List.flatMap_cons]
          exact ((after conns).append_left first.conns).trans (List.perm_append_comm_assoc _ _ _)

theorem conns_eraseEntry (found : findEntry node entries = some e) :
    (entries.flatMap Entry.conns).Perm (e.conns ++ (eraseEntry node entries).flatMap Entry.conns) := by
  induction entries with
  | nil => exact absurd found (by simp [findEntry])
  | cons first rest ih =>
      by_cases same : first.node = node
      · obtain rfl : first = e := by simpa [findEntry, same] using found
        rw [eraseEntry, List.eraseP_cons_of_pos (by simpa using same)]
        exact List.Perm.refl _
      · have later := ih (by simpa [findEntry, same] using found)
        rw [eraseEntry, List.eraseP_cons_of_neg (by simpa using same), List.flatMap_cons,
          List.flatMap_cons]
        exact (later.append_left first.conns).trans (List.perm_append_comm_assoc _ _ _)

theorem not_mem_eraseEntry (nodup : (entries.map Entry.node).Nodup) :
    node ∉ (eraseEntry node entries).map Entry.node := by
  induction entries with
  | nil => exact List.not_mem_nil
  | cons first rest ih =>
      obtain ⟨other, restNodup⟩ := List.nodup_cons.mp nodup
      by_cases same : first.node = node
      · rw [eraseEntry, List.eraseP_cons_of_pos (by simpa using same)]
        exact same ▸ other
      · rw [eraseEntry, List.eraseP_cons_of_neg (by simpa using same), List.map_cons,
          List.mem_cons, not_or]
        exact ⟨Ne.symm same, ih restNodup⟩

end Map

/-! ## The invariant -/

/-- What a call has still to give back to the semaphore, less the connections that it has counted
but not yet put into the map. -/
def Op.balance : Op → Int
  | .adding _ (.new conns) _ => -conns.length
  | .taken _ => 1
  | .givesBack semaphore _ => -semaphore
  | _ => 0

/-- A call has connections of its node, and gives back what it has taken. -/
def Op.Own : Op → Prop
  | .adding node (.new conns) _ => ∀ conn ∈ conns, conn.node = node
  | .givesBack semaphore map => semaphore = -1 ∧ map = false
  | .freeing node conn => conn.node = node
  | .checking node conn => conn.node = node
  | .pinging node conn => conn.node = node
  | _ => True

structure Inv (p : Pool) : Prop where
  fault : p.fault = false
  nodup : (p.entries.map Entry.node).Nodup
  nodes : ∀ e ∈ p.entries, ∀ conn ∈ e.conns, conn.node = e.node
  invalid : ∀ pair ∈ p.invalid, pair.2.node = pair.1
  held : ∀ h ∈ p.held, ∀ nodeDesc, h.1 = .node nodeDesc → h.2.node = nodeDesc
  ops : ∀ op ∈ p.ops, op.Own
  accounted : Accounted p.created ((places p).map Conn.id)
  sem : p.sem + (p.ops.map Op.balance).sum = (availConns p).length
  nulls : ∀ change ∈ p.nulls, change = (0, false)
  removed : ∀ node ∈ p.removed, node ∉ p.entries.map Entry.node

section Calls

variable {p p' : Pool} {node : Text} {conn : Conn} {op op' : Op}

theorem count_places (p : Pool) (conn : Conn) : (places p).count conn =
    (availConns p).count conn + (p.invalid.map Prod.snd).count conn +
      (p.held.map Prod.snd).count conn + (p.ops.flatMap Op.conns).count conn +
      p.deleted.count conn := by
  simp only [places, List.count_append]

/-- The order of the calls does not matter. -/
theorem Inv.perm {ops : List Op} (inv : Inv p) (same : ops.Perm p.ops) :
    Inv { p with ops := ops } :=
  { inv with
    ops := fun op member => inv.ops op (same.mem_iff.mp member)
    accounted := by
      refine inv.accounted.move (List.Perm.map _ (List.perm_iff_count.mpr fun conn => ?_))
      rw [count_places, count_places, (same.flatMap_right Op.conns).count_eq]
      rfl
    sem := by
      have := inv.sem
      rw [(same.map Op.balance).sum_eq]
      exact this }

theorem Inv.own (inv : Inv (push p op)) : op.Own := inv.ops op List.mem_cons_self

theorem Inv.others (inv : Inv (push p op)) : ∀ other ∈ p.ops, other.Own := fun other member =>
  inv.ops other (List.mem_cons_of_mem op member)

/-- The semaphore and the places without the call that is looked at. -/
theorem Inv.sem_push (inv : Inv (push p op)) :
    p.sem + (op.balance + (p.ops.map Op.balance).sum) = (availConns p).length := by
  have := inv.sem
  simp only [push, List.map_cons, List.sum_cons] at this
  exact this

theorem Inv.accounted_push (inv : Inv (push p op)) {created : Nat} {places' : List Conn}
    (same : created = p.created)
    (moved : ∀ conn, places'.count conn = (places p).count conn + op.conns.count conn) :
    Accounted created (places'.map Conn.id) := by
  rw [same]
  refine inv.accounted.move (List.Perm.map _ (List.perm_iff_count.mpr fun conn => ?_))
  rw [moved, count_places, count_places]
  simp only [push, List.flatMap_cons, List.count_append, availConns]
  omega

/-- A call ends, or goes on, without a change of the pool. -/
theorem Inv.drop (inv : Inv (push p op)) (none' : op.conns = []) (even : op.balance = 0) : Inv p :=
  { inv with
    ops := inv.others
    accounted := inv.accounted_push rfl fun conn => by simp [none']
    sem := by have := inv.sem_push; omega }

theorem Inv.goOn (inv : Inv (push p op)) (same : op'.conns = op.conns)
    (even : op'.balance = op.balance) (own : op'.Own) : Inv (push p op') :=
  { inv with
    ops := List.forall_mem_cons.mpr ⟨own, inv.others⟩
    accounted := inv.accounted_push rfl fun conn => by
      rw [count_places, count_places]
      simp only [push, List.flatMap_cons, List.count_append, availConns, same]
      omega
    sem := by
      have := inv.sem_push
      simp only [push, List.map_cons, List.sum_cons, even]
      exact this }

/-- A call begins. -/
theorem Inv.start (inv : Inv p) (none' : op.conns = []) (even : op.balance = 0) (own : op.Own) :
    Inv (push p op) :=
  { inv with
    ops := List.forall_mem_cons.mpr ⟨own, inv.ops⟩
    accounted := by
      refine inv.accounted.move (List.Perm.map _ (List.perm_iff_count.mpr fun conn => ?_))
      rw [count_places, count_places]
      simp only [push, List.flatMap_cons, none', List.nil_append, availConns]
    sem := by
      have := inv.sem
      simp only [push, List.map_cons, List.sum_cons, even, zero_add]
      exact this }

/-- A new connection, in the hands of a call. -/
theorem Inv.create (inv : Inv p) (node : Text) :
    Inv (push { p with created := p.created + 1 } (.freeing node ⟨p.created, node⟩)) :=
  { inv with
    ops := List.forall_mem_cons.mpr ⟨rfl, inv.ops⟩
    accounted := by
      have new : (places (push { p with created := p.created + 1 }
          (.freeing node ⟨p.created, node⟩))).Perm (⟨p.created, node⟩ :: places p) := by
        refine List.perm_iff_count.mpr fun conn => ?_
        rw [List.count_cons, count_places, count_places]
        simp only [push, List.flatMap_cons, Op.conns, List.count_append, List.count_singleton,
          availConns]
        omega
      exact inv.accounted.create (new.map Conn.id)
    sem := by
      have := inv.sem
      simp only [push, List.map_cons, List.sum_cons, Op.balance, zero_add]
      exact this }

theorem pushInvalid_inv (inv : Inv (push p op)) (inHands : op.conns = [conn])
    (even : op.balance = 0) (own : conn.node = node) : Inv (pushInvalid p node conn) :=
  { inv with
    ops := inv.others
    invalid := by
      intro pair member
      rcases List.mem_append.mp member with old | new
      · exact inv.invalid pair old
      · rw [List.mem_singleton.mp new]
        exact own
    accounted := inv.accounted_push rfl fun conn' => by
      rw [count_places, count_places, inHands]
      simp only [pushInvalid, List.map_append, List.map_cons, List.map_nil, List.count_append,
        availConns]
      omega
    sem := by
      have := inv.sem_push
      rw [even, zero_add] at this
      exact this }

theorem deleteConn_inv (inv : Inv (push p op)) (inHands : op.conns = [conn])
    (even : op.balance = 0) : Inv (deleteConn p conn) :=
  { inv with
    ops := inv.others
    accounted := inv.accounted_push rfl fun conn' => by
      rw [count_places, count_places, inHands]
      simp only [deleteConn, List.count_append, availConns]
      omega
    sem := by
      have := inv.sem_push
      rw [even, zero_add] at this
      exact this }

/-- The fields that depend on the names of the nodes and on what stands in the queues. -/
theorem nodes_setConns {entries : List Entry} {conns : List Conn}
    (nodes : ∀ e ∈ entries, ∀ conn ∈ e.conns, conn.node = e.node)
    (own : ∀ conn ∈ conns, conn.node = node) :
    ∀ e ∈ setConns node conns entries, ∀ conn ∈ e.conns, conn.node = e.node := by
  intro e member conn inQueue
  rcases mem_setConns member with old | ⟨isNode, isConns⟩
  · exact nodes e old conn inQueue
  · rw [isConns] at inQueue
    rw [isNode]
    exact own conn inQueue

theorem pushAvail_inv (inv : Inv (push p op)) (inHands : op.conns = [conn])
    (even : op.balance = 0) (own : conn.node = node) (has : HasEntry p.entries node) :
    Inv (pushAvail p node conn) := by
  obtain ⟨e, found⟩ := Option.isSome_iff_exists.mp has
  obtain ⟨member, isNode⟩ := findEntry_some found
  obtain ⟨others, before, after⟩ := conns_setConns found
  have owned : ∀ c ∈ e.conns ++ [conn], c.node = node := by
    intro c inQueue
    rcases List.mem_append.mp inQueue with old | new
    · rw [← isNode]
      exact inv.nodes e member c old
    · rw [List.mem_singleton.mp new]
      exact own
  rw [pushAvail, found]
  exact
    { inv with
      nodup := by rw [setConns_nodes]; exact inv.nodup
      nodes := nodes_setConns inv.nodes owned
      ops := inv.others
      accounted := inv.accounted_push rfl fun conn' => by
        rw [count_places, count_places, inHands]
        simp only [availConns, before.count_eq, (after (e.conns ++ [conn])).count_eq,
          List.count_append]
        omega
      sem := by
        have := inv.sem_push
        rw [even, zero_add] at this
        simp only [availConns, before.length_eq, List.length_append] at this
        simp only [availConns, (after (e.conns ++ [conn])).length_eq, List.length_append,
          List.length_singleton]
        omega
      removed := fun n member' => by rw [setConns_nodes]; exact inv.removed n member' }

theorem popAvail_inv {key : Key} {e : Entry} (inv : Inv (push p (.taken key)))
    (found : findEntry node p.entries = some e)
    (named : ∀ nodeDesc, key = .node nodeDesc → node = nodeDesc) : Inv (popAvail p key e) := by
  obtain ⟨member, isNode⟩ := findEntry_some found
  unfold popAvail
  split
  · exact inv.goOn rfl rfl ⟨rfl, rfl⟩
  · rename_i conn rest isConns
    obtain ⟨others, before, after⟩ := conns_setConns found
    have owned : ∀ c ∈ e.conns, c.node = node := fun c inQueue => by
      rw [← isNode]
      exact inv.nodes e member c inQueue
    rw [isNode]
    exact
      { inv with
        nodup := by rw [setConns_nodes]; exact inv.nodup
        nodes := nodes_setConns inv.nodes fun c inQueue =>
          owned c (isConns ▸ List.mem_cons_of_mem conn inQueue)
        held := by
          intro h member' nodeDesc isKey
          rcases List.mem_append.mp member' with old | new
          · exact inv.held h old nodeDesc isKey
          · rw [List.mem_singleton.mp new] at isKey ⊢
            rw [← named nodeDesc isKey]
            exact owned conn (isConns ▸ List.mem_cons_self)
        ops := inv.others
        accounted := inv.accounted_push rfl fun conn' => by
          rw [count_places, count_places]
          simp only [availConns, before.count_eq, (after rest).count_eq, isConns, List.map_append,
            List.map_cons, List.map_nil, List.count_append, List.cons_append, List.count_cons,
            List.count_nil, Op.conns]
          omega
        sem := by
          have := inv.sem_push
          simp only [availConns, before.length_eq, isConns, List.length_append, List.length_cons,
            Op.balance] at this
          simp only [availConns, (after rest).length_eq, List.length_append]
          omega
        removed := fun n member' => by rw [setConns_nodes]; exact inv.removed n member' }

/-- A queue for a node that has none; the call in work had counted its connections. -/
theorem addEntry_inv {conns : List Conn} (inv : Inv (push p op)) (inHands : op.conns = conns)
    (counted : op.balance = -conns.length) (own : ∀ conn ∈ conns, conn.node = node)
    (missing : findEntry node p.entries = none) :
    Inv { addEntry p node conns with removed := p.removed.filter fun n => decide (n ≠ node) } := by
  have avail : ∀ q : Pool, q.entries = p.entries ++ [⟨node, p.deques, conns⟩] →
      availConns q = availConns p ++ conns := by
    intro q isEntries
    rw [availConns, isEntries, List.flatMap_append]
    simp [availConns]
  exact
    { inv with
      nodup := by
        simp only [addEntry, List.map_append, List.map_cons, List.map_nil]
        refine List.nodup_append.mpr ⟨inv.nodup, List.nodup_singleton _, ?_⟩
        intro n old n' new same
        rw [List.mem_singleton.mp new] at same
        exact findEntry_none_iff.mp missing (same ▸ old)
      nodes := by
        intro e member conn inQueue
        rcases List.mem_append.mp member with old | new
        · exact inv.nodes e old conn inQueue
        · rw [List.mem_singleton.mp new] at inQueue ⊢
          exact own conn inQueue
      ops := inv.others
      accounted := inv.accounted_push rfl fun conn => by
        rw [count_places, count_places, avail _ rfl, List.count_append, inHands]
        simp only [addEntry]
        omega
      sem := by
        have := inv.sem_push
        rw [avail _ rfl, List.length_append]
        simp only [addEntry]
        omega
      removed := by
        intro n member
        obtain ⟨old, other⟩ := List.mem_filter.mp member
        simp only [addEntry, List.map_append, List.map_cons, List.map_nil, List.mem_append,
          List.mem_singleton, not_or]
        exact ⟨inv.removed n old, by simpa using other⟩ }

theorem refer_inv {conns : Nat} (inv : Inv (push p (.found node conns))) :
    Inv (refer p node conns) := by
  unfold refer
  split
  · exact inv.goOn rfl rfl trivial
  · rename_i missing
    refine Inv.start (addEntry_inv inv rfl rfl ?_ missing) rfl rfl trivial
    exact fun conn member => absurd member List.not_mem_nil

theorem notConnected_inv {server : Server} {conns : Nat}
    (inv : Inv (push p (.adding node server (conns + 1)))) :
    Inv (notConnected p node server conns) := by
  have next : Inv (push p (.adding node server conns)) := by
    cases server with
    | entry deque => exact inv.goOn rfl rfl trivial
    | new queue => exact inv.goOn rfl rfl inv.own
  exact pushInvalid_inv (next.create node) rfl rfl rfl

theorem connected_inv {server : Server} {conns : Nat}
    (inv : Inv (push p (.adding node server (conns + 1))))
    (refers : ∀ deque, server = .entry deque → ∃ e ∈ findEntry node p.entries, e.deque = deque) :
    Inv (connected p node server conns) := by
  cases server with
  | entry deque =>
      obtain ⟨e, found, same⟩ := refers deque rfl
      have made := (inv.drop rfl rfl).create node
      have has : HasEntry p.entries node := Option.isSome_iff_exists.mpr ⟨e, found⟩
      have pushed := pushAvail_inv made rfl rfl rfl has
      simp only [connected]
      rw [show findEntry node p.entries = some e from found]
      simp only [same, if_true]
      exact pushed.start rfl rfl trivial
  | new queue =>
      have own : ∀ conn ∈ queue ++ [⟨p.created, node⟩], conn.node = node := by
        intro conn member
        rcases List.mem_append.mp member with old | new
        · exact inv.own conn old
        · rw [List.mem_singleton.mp new]
      exact
        { inv with
          ops := List.forall_mem_cons.mpr ⟨own, inv.others⟩
          accounted := by
            have new : (places (connected p node (.new queue) conns)).Perm (⟨p.created, node⟩ ::
                places (push p (.adding node (.new queue) (conns + 1)))) := by
              refine List.perm_iff_count.mpr fun conn => ?_
              rw [List.count_cons, count_places, count_places]
              simp only [connected, push, List.flatMap_cons, Op.conns, List.count_append,
                List.count_singleton, availConns]
              omega
            exact inv.accounted.create (new.map Conn.id)
          sem := by
            have := inv.sem_push
            simp only [Op.balance] at this
            simp only [connected, push, List.map_cons, List.sum_cons, Op.balance,
              List.length_append, List.length_singleton]
            simp only [availConns] at this ⊢
            omega }

theorem added_inv {server : Server} (inv : Inv (push p (.adding node server 0)))
    (drained : ∀ queue, server = .new queue → Drained p.entries node) : Inv (added p node server) := by
  cases server with
  | entry deque => exact inv.drop rfl rfl
  | new queue =>
      simp only [added]
      split
      · rename_i e found
        obtain ⟨others, before, after⟩ := conns_setConns found
        have empty : e.conns = [] := drained queue rfl e found
        exact
          { inv with
            nodup := by rw [setConns_nodes]; exact inv.nodup
            nodes := nodes_setConns inv.nodes inv.own
            ops := inv.others
            accounted := inv.accounted_push rfl fun conn => by
              rw [count_places, count_places]
              simp only [availConns, before.count_eq, (after queue).count_eq, empty,
                List.count_append, List.count_nil, Op.conns]
              omega
            sem := by
              have := inv.sem_push
              simp only [availConns, before.length_eq, empty, List.nil_append, Op.balance] at this
              simp only [availConns, (after queue).length_eq, List.length_append]
              omega
            removed := fun n member => by
              rw [setConns_nodes]
              exact inv.removed n (List.mem_filter.mp member).1 }
      · rename_i missing
        exact addEntry_inv inv rfl rfl inv.own missing

theorem delServer_inv (inv : Inv p) (drained : Drained p.entries node) : Inv (delServer p node) := by
  unfold delServer
  simp only
  split
  · rename_i e found
    have empty : e.conns = [] := drained e found
    have others := conns_eraseEntry found
    rw [empty, List.nil_append] at others
    have sub : ((eraseEntry node p.entries).map Entry.node).Sublist (p.entries.map Entry.node) :=
      List.Sublist.map _ List.eraseP_sublist
    rw [empty, List.append_nil]
    exact
      { inv with
        nodup := sub.nodup inv.nodup
        nodes := fun e' member => inv.nodes e' (List.eraseP_sublist.mem member)
        accounted := by
          refine inv.accounted.move (List.Perm.map _ (List.perm_iff_count.mpr fun conn => ?_))
          rw [count_places, count_places]
          simp only [availConns, others.count_eq]
        sem := by
          have := inv.sem
          simp only [availConns, others.length_eq] at this
          exact this
        removed := by
          intro n member
          rcases List.mem_cons.mp member with rfl | old
          · exact not_mem_eraseEntry inv.nodup
          · exact fun present => inv.removed n old (sub.mem present) }
  · rename_i missing
    exact { inv with
      removed := List.forall_mem_cons.mpr ⟨findEntry_none_iff.mp missing, inv.removed⟩ }

theorem nodeOf_some {entries : List Entry} {redisKey : Text} {e : Entry}
    (found : nodeOf entries redisKey = some e) : findEntry e.node entries = some e := by
  rcases Option.or_eq_some_iff.mp found with first | ⟨-, second⟩
  · rw [(findEntry_some first).2]
    exact first
  · rw [(findEntry_some second).2]
    exact second

theorem getSection_inv {key : Key} (inv : Inv (push p (.taken key)))
    (shard : ∀ redisKey, key = .shard redisKey → (nodeOf p.entries redisKey).isSome)
    (named : ∀ nodeDesc, key = .node nodeDesc → HasEntry p.entries nodeDesc) : Inv (getSection p key) := by
  cases key with
  | shard redisKey =>
      obtain ⟨e, found⟩ := Option.isSome_iff_exists.mp (shard redisKey rfl)
      simp only [getSection, found]
      exact popAvail_inv inv (nodeOf_some found) fun _ other => absurd other (by simp)
  | node nodeDesc =>
      obtain ⟨e, found⟩ := Option.isSome_iff_exists.mp (named nodeDesc rfl)
      simp only [getSection, found]
      exact popAvail_inv inv found fun _ same => Key.node.inj same

/-- A connection is given back with the node that it belongs to. -/
theorem freeSection_inv {key : Key} (inv : Inv (push p (.freeing conn.node conn)))
    (shard : ∀ redisKey, key = .shard redisKey →
      ∃ e ∈ nodeOf p.entries redisKey, e.node = conn.node)
    (named : ∀ nodeDesc, key = .node nodeDesc → conn.node = nodeDesc) :
    Inv (freeSection p conn key) := by
  cases key with
  | shard redisKey =>
      obtain ⟨e, found, same⟩ := shard redisKey rfl
      simp only [freeSection]
      rw [show nodeOf p.entries redisKey = some e from found]
      simp only [same]
      exact inv
  | node nodeDesc =>
      obtain rfl := named nodeDesc rfl
      simp only [freeSection]
      split
      · exact inv
      · exact deleteConn_inv inv rfl rfl

theorem checkSection_inv (inv : Inv (push p (.checking node conn))) :
    Inv (checkSection p node conn) := by
  unfold checkSection
  split
  · exact inv.goOn rfl rfl inv.own
  · exact deleteConn_inv inv rfl rfl

end Calls

/-! ## Runs -/

section Runs

variable {p p' : Pool}

theorem lower_inv {key : Key} (inv : Inv (push p (.waiting key))) (positive : 0 < p.sem) :
    Inv (push { p with sem := p.sem - 1 } (.taken key)) :=
  { inv with
    ops := List.forall_mem_cons.mpr ⟨trivial, inv.others⟩
    sem := by
      have := inv.sem_push
      simp only [Op.balance] at this
      simp only [push, List.map_cons, List.sum_cons, Op.balance, availConns] at this ⊢
      omega }

theorem givesBack_inv {semaphore : Int} {map : Bool} (inv : Inv (push p (.givesBack semaphore map))) :
    Inv { p with sem := p.sem + 1, nulls := p.nulls ++ [(semaphore + 1, map)] } := by
  obtain ⟨rfl, rfl⟩ := inv.own
  exact
    { inv with
      ops := inv.others
      accounted := inv.accounted_push rfl fun conn => rfl
      sem := by
        have := inv.sem_push
        simp only [Op.balance] at this
        simp only [availConns] at this ⊢
        omega
      nulls := by
        intro change member
        rcases List.mem_append.mp member with old | new
        · exact inv.nulls change old
        · rw [List.mem_singleton.mp new]
          rfl }

theorem advance_inv {op : Op} {choice : Choice} (inv : Inv (push p op))
    (allowed : AllowedOp p.entries choice op) (taken : advance p op choice = some p') : Inv p' := by
  unfold advance at taken
  split at taken
  · obtain rfl := Option.some.inj taken
    exact refer_inv inv
  · obtain rfl := Option.some.inj taken
    refine added_inv inv fun queue isNew => ?_
    subst isNew
    exact allowed
  · obtain rfl := Option.some.inj taken
    refine connected_inv inv fun deque isEntry => ?_
    subst isEntry
    exact allowed rfl
  · obtain rfl := Option.some.inj taken
    exact notConnected_inv inv
  · obtain rfl := Option.some.inj taken
    rename_i node server conns
    cases server with
    | entry deque => exact inv.drop rfl rfl
    | new queue =>
        obtain rfl : queue = [] := allowed rfl
        exact inv.drop rfl rfl
  · split at taken
    · rename_i positive
      obtain rfl := Option.some.inj taken
      exact lower_inv inv positive
    · exact absurd taken (by simp)
  · exact absurd rfl allowed
  · obtain rfl := Option.some.inj taken
    refine getSection_inv inv (fun redisKey isShard => ?_) fun nodeDesc isNode => ?_
    · subst isShard
      exact allowed
    · subst isNode
      exact allowed
  · obtain rfl := Option.some.inj taken
    exact givesBack_inv inv
  · obtain rfl := Option.some.inj taken
    exact pushAvail_inv inv rfl rfl inv.own (allowed rfl)
  · obtain rfl := Option.some.inj taken
    exact pushInvalid_inv inv rfl rfl inv.own
  · obtain rfl := Option.some.inj taken
    exact checkSection_inv inv
  · obtain rfl := Option.some.inj taken
    exact pushAvail_inv inv rfl rfl inv.own (allowed rfl)
  · obtain rfl := Option.some.inj taken
    exact pushInvalid_inv inv rfl rfl inv.own
  · exact absurd taken (by simp)

/-- A connection that was in use is in the hands of a call. -/
theorem takeHeld_inv {i : Nat} {key : Key} {conn : Conn} (inv : Inv p)
    (atIndex : p.held[i]? = some (key, conn)) :
    Inv (push { p with held := p.held.eraseIdx i } (.freeing conn.node conn)) := by
  have rest := perm_cons_eraseIdx atIndex
  exact
    { inv with
      held := fun h member => inv.held h (List.mem_of_mem_eraseIdx member)
      ops := List.forall_mem_cons.mpr ⟨rfl, inv.ops⟩
      accounted := by
        refine inv.accounted.move (List.Perm.map _ (List.perm_iff_count.mpr fun conn' => ?_))
        rw [count_places, count_places, (rest.map Prod.snd).count_eq]
        simp only [push, List.flatMap_cons, Op.conns, List.count_append, List.map_cons,
          List.count_cons, List.count_nil, availConns]
        omega
      sem := by
        have := inv.sem
        simp only [push, List.map_cons, List.sum_cons, Op.balance, zero_add]
        exact this }

theorem retry_inv {node : Text} {conn : Conn} {rest : List (Text × Conn)} (inv : Inv p)
    (first : p.invalid = (node, conn) :: rest) :
    Inv (push { p with invalid := rest } (.checking node conn)) := by
  have invalid := inv.invalid
  rw [first] at invalid
  exact
    { inv with
      invalid := (List.forall_mem_cons.mp invalid).2
      ops := List.forall_mem_cons.mpr ⟨(List.forall_mem_cons.mp invalid).1, inv.ops⟩
      accounted := by
        refine inv.accounted.move (List.Perm.map _ (List.perm_iff_count.mpr fun conn' => ?_))
        rw [count_places, count_places, first]
        simp only [push, List.flatMap_cons, Op.conns, List.count_append, List.map_cons,
          List.count_cons, List.count_nil, availConns]
        omega
      sem := by
        have := inv.sem
        simp only [push, List.map_cons, List.sum_cons, Op.balance, zero_add]
        exact this }

theorem handle_inv {label : Label} (inv : Inv p) (allowed : Allowed p label)
    (handled : handle p label = some p') : Inv p' := by
  cases label with
  | addServer node conns =>
      obtain rfl := Option.some.inj handled
      unfold addServer
      split
      · exact inv.start rfl rfl trivial
      · exact inv.start rfl rfl fun conn member => absurd member List.not_mem_nil
  | delServer node =>
      obtain rfl := Option.some.inj handled
      exact delServer_inv inv allowed
  | getConn key =>
      obtain rfl := Option.some.inj handled
      exact inv.start rfl rfl trivial
  | freeConn i =>
      obtain ⟨⟨key, conn⟩, atIndex, rfl⟩ := Option.map_eq_some_iff.mp handled
      refine freeSection_inv (takeHeld_inv inv atIndex) (fun redisKey isShard => ?_) ?_
      · subst isShard
        exact allowed (.shard redisKey, conn) atIndex
      · exact inv.held (key, conn) (List.mem_of_getElem? atIndex)
  | retry =>
      simp only [handle] at handled
      split at handled
      · exact absurd handled (by simp)
      · rename_i first
        obtain rfl := Option.some.inj handled
        exact retry_inv inv first
  | advance i choice =>
      obtain ⟨op, atIndex, taken⟩ := Option.bind_eq_some_iff.mp handled
      have opened : Inv (push { p with ops := p.ops.eraseIdx i } op) :=
        inv.perm (perm_cons_eraseIdx atIndex).symm
      exact advance_inv opened (allowed op atIndex) taken

/-- The pool is right in every state of a run whose steps are allowed. -/
theorem pool_of_allowed {labels : List Label}
    (allowed : Meets step Allowed Pool.initial labels)
    (ran : exec step Pool.initial labels = some p) : Correct p := by
  have start : Inv Pool.initial :=
    ⟨rfl, List.nodup_nil, nofun, nofun, nofun, nofun, accounted_nil, rfl, nofun, nofun⟩
  have keep : ∀ p label p', Inv p → Allowed p label → step p label = some p' → Inv p' := by
    intro p label p' inv allowed taken
    rw [step, if_neg (by simp [inv.fault])] at taken
    exact handle_inv inv allowed taken
  have inv := exec_invariant keep start allowed ran
  refine ⟨inv.fault, inv.nodes, inv.accounted, fun idle => ?_, inv.nulls, fun node member => ?_⟩
  · have := inv.sem
    rw [idle, List.map_nil, List.sum_nil, add_zero] at this
    exact Int.ofNat.inj this
  · exact findEntry_none_iff.mpr (inv.removed node member)

/-- The node `n` with one connection. -/
def oneConn : List Label :=
  [.addServer ['n'] 1, .advance 0 .connects, .advance 0 .proceeds]

/-- A connection is obtained, breaks and is given back by the retry worker. -/
def brokenRun : List Label :=
  oneConn ++ [.getConn (.shard ['n']), .advance 0 .proceeds, .advance 0 .proceeds, .freeConn 0,
    .advance 0 .connectFails, .retry, .advance 0 .proceeds, .advance 0 .connects]

theorem pool_of_allowed_broken :
    ∃ p, exec step Pool.initial brokenRun = some p ∧
      p.entries = [⟨['n'], 0, [⟨0, ['n']⟩]⟩] ∧ p.sem = 1 ∧ p.ops = [] ∧ Correct p := by
  have allowed : Meets step Allowed Pool.initial brokenRun := by decide
  exact ⟨_, rfl, by decide, rfl, rfl, pool_of_allowed allowed rfl⟩

/-- A wait that runs out raises the semaphore, and the removal of a node does not lower it; a
connection whose node was removed while it was in use is lost. -/
theorem wait_raises_semaphore :
    (∃ p, exec step Pool.initial
        [.getConn (.shard ['n']), .advance 0 .timeout, .advance 0 .proceeds] = some p ∧
      p.sem = 1 ∧ availConns p = [] ∧ p.nulls = [(1, false)] ∧ ¬ Correct p) ∧
    (∃ p, exec step Pool.initial (oneConn ++ [.delServer ['n']]) = some p ∧
      p.sem = 1 ∧ availConns p = [] ∧ ¬ Correct p) ∧
    ∃ p, exec step Pool.initial (oneConn ++ [.getConn (.shard ['n']), .advance 0 .proceeds,
        .advance 0 .proceeds, .delServer ['n'], .freeConn 0]) = some p ∧
      p.created = 1 ∧ places p = [] ∧ ¬ Correct p := by
  refine ⟨⟨_, rfl, rfl, rfl, rfl, fun correct => ?_⟩, ⟨_, rfl, rfl, rfl, fun correct => ?_⟩,
    ⟨_, rfl, rfl, rfl, fun correct => ?_⟩⟩
  · exact absurd (correct.sem rfl) (by decide)
  · exact absurd (correct.sem rfl) (by decide)
  · exact absurd (correct.accounted.length_eq) (by decide)

end Runs

end MlsImgSearch.Cache.RedisConnPool
