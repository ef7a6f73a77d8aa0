import Mathlib.Logic.Function.Basic
import MlsImgSearch.Lib.Ledger
import MlsImgSearch.Lib.Run
import MlsImgSearch.Lib.Strings

/-!
# The connections to MySQL servers

A pool keeps the connections of its configurations in queues, and a semaphore
counts those that work. A connection has a reference of each configuration, of its
user and of the retry worker, and is deleted with the last one. A section under the
mutex is one step, and so is an operation on the semaphore.
-/

namespace MlsImgSearch.Db.MysqlConnPool

open Lib.Ledger Lib.Run
open Lib.Strings (Text)

/-! ## The state -/

structure Conn where
  id : Nat
  isDefault : Bool
  deriving DecidableEq

/-- An entry of `m_availConn`. `adds` are the calls of `AddServer` that no `DelServer` has taken
back. -/
structure Config where
  conf : Text
  first : Nat
  vi : List Conn
  adds : Nat
  deriving DecidableEq

/-- A call in progress. -/
inductive Op where
  /-- `AddServer` with the connections that it has made and the number of those that follow. -/
  | adding (conf : Text) (isDefault : Bool) (vi : List Conn) (conns : Nat)
  /-- It has still to raise the semaphore for its last connection. -/
  | added (conf : Text) (isDefault : Bool) (vi : List Conn) (conns : Nat)
  | waiting
  | taken
  /-- The semaphore is raised before a null pointer is returned. -/
  | givesBack
  /-- `SemWait` of `DelServer`. -/
  | lowering (left done : Nat)
  /-- `SemPost` of `DelServer`. -/
  | raising (left : Nat)
  | checking (conn : Conn)
  /-- `CheckOneConn` has still to raise the semaphore. -/
  | checked
  deriving DecidableEq

/-- The pool. `avail true` is `m_default` and `avail false` is `m_others`; `invalid` likewise.
`created` counts the connections that were ever made, `held` are those in use. `underflow` tells
that `nSemToRelease` went below zero. -/
structure Pool where
  configs : List Config
  avail : Bool → List Conn
  invalid : Bool → List Conn
  refs : Conn → Int
  sem : Nat
  created : Nat
  held : List Conn
  ops : List Op
  deleted : List Conn
  underflow : Bool

def Pool.initial : Pool := ⟨[], fun _ => [], fun _ => [], fun _ => 0, 0, 0, [], [], [], false⟩

/-! ## Connections -/

def push (p : Pool) (op : Op) : Pool := { p with ops := op :: p.ops }

def pushAvail (p : Pool) (conn : Conn) : Pool :=
  { p with
    avail := Function.update p.avail conn.isDefault (p.avail conn.isDefault ++ [conn]) }

def pushInvalid (p : Pool) (conn : Conn) : Pool :=
  { p with
    invalid := Function.update p.invalid conn.isDefault (p.invalid conn.isDefault ++ [conn]) }

/-- `DelConnection` on one of the queues. -/
def delAvail (p : Pool) (isDefault : Bool) (conn : Conn) : Pool :=
  { p with avail := Function.update p.avail isDefault ((p.avail isDefault).erase conn) }

def delInvalid (p : Pool) (isDefault : Bool) (conn : Conn) : Pool :=
  { p with invalid := Function.update p.invalid isDefault ((p.invalid isDefault).erase conn) }

def addRef (p : Pool) (conn : Conn) : Pool :=
  { p with refs := Function.update p.refs conn (p.refs conn + 1) }

/-- `Release`; the connection is deleted with its last reference. -/
def release (p : Pool) (conn : Conn) : Pool :=
  { p with
    refs := Function.update p.refs conn (p.refs conn - 1)
    deleted := if p.refs conn - 1 = 0 then p.deleted ++ [conn] else p.deleted }

/-! ## The calls -/

def findConfig (conf : Text) (configs : List Config) : Option Config :=
  configs.find? fun g => decide (g.conf = conf)

def setConfig (conf : Text) (config : Config) : List Config → List Config
  | [] => []
  | g :: rest => if g.conf = conf then config :: rest else g :: setConfig conf config rest

def eraseConfig (conf : Text) (configs : List Config) : List Config :=
  configs.eraseP fun g => decide (g.conf = conf)

def addServer (p : Pool) (conf : Text) (conns : Nat) (isDefault : Bool) : Pool :=
  match findConfig conf p.configs with
  | some g =>
      let p := g.vi.foldl addRef p
      let config := { g with first := g.first + g.vi.length, adds := g.adds + 1 }
      { p with configs := setConfig conf config p.configs }
  | none => push p (.adding conf isDefault [] conns)

/-- A connection of `AddServer`, with its first reference. -/
def newConn (p : Pool) (isDefault : Bool) : Pool × Conn :=
  let conn : Conn := ⟨p.created, isDefault⟩
  (addRef { p with created := p.created + 1 } conn, conn)

def connected (p : Pool) (conf : Text) (isDefault : Bool) (vi : List Conn) (conns : Nat) : Pool :=
  let (p, conn) := newConn p isDefault
  push (pushAvail p conn) (.added conf isDefault (vi ++ [conn]) conns)

def notConnected (p : Pool) (conf : Text) (isDefault : Bool) (vi : List Conn) (conns : Nat) :
    Pool :=
  let (p, conn) := newConn p isDefault
  push (pushInvalid p conn) (.adding conf isDefault (vi ++ [conn]) conns)

/-- The end of `AddServer`: the connections are written over those of the configuration. -/
def register (p : Pool) (conf : Text) (vi : List Conn) : Pool :=
  let config : Config := ⟨conf, vi.length, vi, 1⟩
  match findConfig conf p.configs with
  | some _ => { p with configs := setConfig conf config p.configs }
  | none => { p with configs := p.configs ++ [config] }

/-- The first loop of `DelServer`, with `nSemToRelease`. -/
def releaseLoop : List Conn → Pool → Int → Pool × Int
  | [], p, nSemToRelease => (p, nSemToRelease)
  | conn :: rest, p, nSemToRelease =>
      releaseLoop rest (release p conn)
        (if p.refs conn - 1 = 0 then nSemToRelease + 1 else nSemToRelease)

/-- The second loop of `DelServer`. -/
def delLoop : List Conn → Pool → Int → Pool × Int
  | [], p, nSemToRelease => (p, nSemToRelease)
  | conn :: rest, p, nSemToRelease =>
      if conn ∈ p.invalid true then delLoop rest (delInvalid p true conn) (nSemToRelease - 1)
      else if conn ∈ p.invalid false then
        delLoop rest (delInvalid p false conn) (nSemToRelease - 1)
      else if conn ∈ p.avail true then delLoop rest (delAvail p true conn) nSemToRelease
      else if conn ∈ p.avail false then delLoop rest (delAvail p false conn) nSemToRelease
      else delLoop rest p nSemToRelease

/-- `nSemToRelease` is a `uint32_t`, and it is not more than the size of a vector. -/
def semToRelease (nSemToRelease : Int) : Nat :=
  if nSemToRelease < 0 then (nSemToRelease + 2 ^ 32).toNat else nSemToRelease.toNat

def delServer (p : Pool) (conf : Text) : Pool :=
  match findConfig conf p.configs with
  | none => p
  | some g =>
      let (p, nSemToRelease) := releaseLoop g.vi p 0
      if 0 < g.first - g.vi.length then
        let config := { g with first := g.first - g.vi.length, adds := g.adds - 1 }
        { p with configs := setConfig conf config p.configs }
      else
        let (p, nSemToRelease) := delLoop g.vi p nSemToRelease
        let p := { p with
          configs := eraseConfig conf p.configs
          underflow := p.underflow || decide (nSemToRelease < 0) }
        push p (.lowering (semToRelease nSemToRelease) 0)

/-- The section of `GetConn`. -/
def getSection (p : Pool) : Pool :=
  match p.avail true, p.avail false with
  | conn :: rest, _ =>
      let p := addRef p conn
      { p with avail := Function.update p.avail true rest, held := p.held ++ [conn] }
  | [], conn :: rest =>
      let p := addRef p conn
      { p with avail := Function.update p.avail false rest, held := p.held ++ [conn] }
  | [], [] => push p .givesBack

/-- `FreeConn` of a connection that is no longer in use. -/
def freeConn (p : Pool) (conn : Conn) (isWorking : Bool) : Pool :=
  if isWorking then
    let p := release (pushAvail p conn) conn
    if p.refs conn = 0 then
      delAvail (delAvail (delInvalid (delInvalid p true conn) false conn) true conn) false conn
    else { p with sem := p.sem + 1 }
  else pushInvalid p conn

/-- The retry worker takes a connection. -/
def retry (p : Pool) (isDefault : Bool) : Option Pool :=
  match p.invalid isDefault with
  | [] => none
  | conn :: rest =>
      let p := addRef p conn
      some (push { p with invalid := Function.update p.invalid isDefault rest } (.checking conn))

/-- The section of `CheckOneConn` after `Connect` has failed. -/
def stillInvalid (p : Pool) (conn : Conn) : Pool :=
  let p := release (pushInvalid p conn) conn
  if p.refs conn = 0 then delInvalid p conn.isDefault conn else p

/-- The section after `Connect`; a connection that was deleted is searched for in `m_others`. -/
def nowAvailable (p : Pool) (conn : Conn) : Pool :=
  let p := release (pushAvail p conn) conn
  if p.refs conn = 0 then delAvail p false conn else push p .checked

/-! ## Steps -/

/-- What a call meets outside of the pool. -/
inductive Choice where
  | proceeds
  | connects
  | connectFails
  | noMemory
  | timeout
  deriving DecidableEq

/-- The next step of a call, which is not among the calls of `p`. -/
def advance (p : Pool) : Op → Choice → Option Pool
  | .adding conf _ vi 0, .proceeds => some (register p conf vi)
  | .adding conf isDefault vi (conns + 1), .connects => some (connected p conf isDefault vi conns)
  | .adding conf isDefault vi (conns + 1), .connectFails =>
      some (notConnected p conf isDefault vi conns)
  | .adding _ _ _ (_ + 1), .noMemory => some p
  | .added conf isDefault vi conns, .proceeds =>
      some (push { p with sem := p.sem + 1 } (.adding conf isDefault vi conns))
  | .waiting, .proceeds =>
      if 0 < p.sem then some (push { p with sem := p.sem - 1 } .taken) else none
  | .waiting, .timeout => if p.sem = 0 then some p else none
  | .taken, .proceeds => some (getSection p)
  | .givesBack, .proceeds => some { p with sem := p.sem + 1 }
  | .lowering 0 _, .proceeds => some p
  | .lowering (left + 1) done, .proceeds =>
      if 0 < p.sem then some (push { p with sem := p.sem - 1 } (.lowering left (done + 1)))
      else none
  | .lowering (_ + 1) done, .timeout => if p.sem = 0 then some (push p (.raising done)) else none
  | .raising 0, .proceeds => some p
  | .raising (left + 1), .proceeds => some (push { p with sem := p.sem + 1 } (.raising left))
  | .checking conn, .connects => some (nowAvailable p conn)
  | .checking conn, .connectFails => some (stillInvalid p conn)
  | .checked, .proceeds => some { p with sem := p.sem + 1 }
  | _, _ => none

inductive Label where
  | addServer (conf : Text) (conns : Nat) (isDefault : Bool)
  | delServer (conf : Text)
  | getConn
  /-- The connection in use with this number is freed. -/
  | freeConn (i : Nat) (isWorking : Bool)
  | retry (isDefault : Bool)
  /-- The call with this number takes its next step. -/
  | advance (i : Nat) (choice : Choice)

def step (p : Pool) : Label → Option Pool
  | .addServer conf conns isDefault => some (addServer p conf conns isDefault)
  | .delServer conf => some (delServer p conf)
  | .getConn => some (push p .waiting)
  | .freeConn i isWorking =>
      p.held[i]?.map fun conn => freeConn { p with held := p.held.eraseIdx i } conn isWorking
  | .retry isDefault => retry p isDefault
  | .advance i choice =>
      p.ops[i]?.bind fun op => advance { p with ops := p.ops.eraseIdx i } op choice

/-! ## What is wanted -/

def both (queues : Bool → List Conn) : List Conn := queues true ++ queues false

/-- The connection that the retry worker has in its hands. -/
def Op.conns : Op → List Conn
  | .checking conn => [conn]
  | _ => []

/-- The connections that a call has made for its configuration. -/
def Op.vi : Op → List Conn
  | .adding _ _ vi _ => vi
  | .added _ _ vi _ => vi
  | _ => []

def users (p : Pool) : List Conn := p.held ++ p.ops.flatMap Op.conns

def places (p : Pool) : List Conn := both p.avail ++ both p.invalid ++ users p ++ p.deleted

/-- The connections of the configurations. -/
def owned (p : Pool) : List Conn := p.configs.flatMap Config.vi ++ p.ops.flatMap Op.vi

structure Correct (p : Pool) : Prop where
  /-- Each connection is in one place. -/
  accounted : Accounted p.created ((places p).map Conn.id)
  queues : ∀ conn ∈ both p.avail ++ both p.invalid, 0 < p.refs conn
  deleted : ∀ conn ∈ places p, conn ∈ p.deleted ↔ conn ∉ owned p ∧ conn ∉ users p
  sem : p.ops = [] → p.sem = (both p.avail).length
  underflow : p.underflow = false

/-- Memory does not run out, new connections are not written over those of a configuration, the
semaphore is lowered in time, and a connection of `m_default` that the retry worker has connected
has another reference. -/
def AllowedOp (configs : List Config) (refs : Conn → Int) (choice : Choice) : Op → Prop
  | .adding conf _ _ 0 => ∀ g ∈ findConfig conf configs, g.vi = []
  | .adding _ _ vi (_ + 1) => choice = .noMemory → vi = []
  | .added _ _ _ _ => True
  | .waiting => True
  | .taken => True
  | .givesBack => True
  | .lowering _ _ => choice ≠ .timeout
  | .raising _ => True
  | .checking conn => choice = .connects → conn.isDefault = true → 1 < refs conn
  | .checked => True

/-- Also, connections work when they are freed. -/
def Allowed (p : Pool) : Label → Prop
  | .addServer _ _ _ => True
  | .delServer _ => True
  | .getConn => True
  | .freeConn _ isWorking => isWorking = true
  | .retry _ => True
  | .advance i choice => ∀ op ∈ p.ops[i]?, AllowedOp p.configs p.refs choice op

instance decidableAllowedOp (configs : List Config) (refs : Conn → Int) (choice : Choice) :
    ∀ op, Decidable (AllowedOp configs refs choice op)
  | .adding _ _ _ 0 => inferInstanceAs (Decidable (∀ g ∈ findConfig _ _, _))
  | .adding _ _ _ (_ + 1) => inferInstanceAs (Decidable (_ → _))
  | .added _ _ _ _ => isTrue trivial
  | .waiting => isTrue trivial
  | .taken => isTrue trivial
  | .givesBack => isTrue trivial
  | .lowering _ _ => inferInstanceAs (Decidable (_ ≠ _))
  | .raising _ => isTrue trivial
  | .checking _ => inferInstanceAs (Decidable (_ → _ → _))
  | .checked => isTrue trivial

instance decidableAllowed (p : Pool) : ∀ label, Decidable (Allowed p label)
  | .addServer _ _ _ => isTrue trivial
  | .delServer _ => isTrue trivial
  | .getConn => isTrue trivial
  | .freeConn _ isWorking => inferInstanceAs (Decidable (isWorking = true))
  | .retry _ => isTrue trivial
  | .advance i _ => inferInstanceAs (Decidable (∀ op ∈ p.ops[i]?, _))

/-! ## The invariant -/

/-- The references that configurations, and calls of `AddServer`, have to a connection. -/
def pins (p : Pool) (conn : Conn) : Nat :=
  (p.configs.map fun g => g.adds * g.vi.count conn).sum + (p.ops.flatMap Op.vi).count conn

/-- How much the semaphore is too low because of a call. -/
def Op.balance : Op → Int
  | .added _ _ _ _ => 1
  | .taken => 1
  | .givesBack => 1
  | .checked => 1
  | .lowering left _ => -left
  | _ => 0

/-- No call of `DelServer` had to give up. -/
def Op.Own : Op → Prop
  | .raising _ => False
  | _ => True

def queues (p : Pool) : List Conn := both p.avail ++ both p.invalid

structure Inv (p : Pool) : Prop where
  accounted : Accounted p.created ((places p).map Conn.id)
  live : ∀ conn, 0 < p.refs conn ↔ conn ∈ queues p ++ users p
  refs : ∀ conn, p.refs conn = pins p conn + (users p).count conn
  once : (owned p).Nodup
  configs : ∀ g ∈ p.configs, 0 < g.adds ∧ g.first = g.adds * g.vi.length
  sem : p.sem + (p.ops.map Op.balance).sum = (both p.avail).length
  ops : ∀ op ∈ p.ops, op.Own
  underflow : p.underflow = false

section Lists

variable {p : Pool} {op : Op} {conn : Conn} {b : Bool}

theorem both_push (queues : Bool → List Conn) (b : Bool) (conn : Conn) :
    (both (Function.update queues b (queues b ++ [conn]))).Perm (conn :: both queues) := by
  cases b with
  | true =>
      simp only [both, Function.update_self, ne_eq, Bool.false_eq_true, not_false_eq_true,
        Function.update_of_ne]
      exact (List.perm_append_singleton conn _).append_right _
  | false =>
      simp only [both, Function.update_self, ne_eq, Bool.true_eq_false, not_false_eq_true,
        Function.update_of_ne]
      rw [← List.append_assoc]
      exact List.perm_append_singleton conn _

theorem both_take (queues : Bool → List Conn) {rest : List Conn}
    (first : (queues b).Perm (conn :: rest)) :
    (both queues).Perm (conn :: both (Function.update queues b rest)) := by
  cases b with
  | true =>
      simp only [both, Function.update_self, ne_eq, Bool.false_eq_true, not_false_eq_true,
        Function.update_of_ne]
      exact first.append_right _
  | false =>
      simp only [both, Function.update_self, ne_eq, Bool.true_eq_false, not_false_eq_true,
        Function.update_of_ne]
      exact (first.append_left _).trans List.perm_middle

theorem users_push (p : Pool) (op : Op) : (users (push p op)).Perm (op.conns ++ users p) := by
  simp only [users, push, List.flatMap_cons]
  exact List.perm_append_comm_assoc _ _ _

theorem owned_push (p : Pool) (op : Op) : (owned (push p op)).Perm (op.vi ++ owned p) := by
  simp only [owned, push, List.flatMap_cons]
  exact List.perm_append_comm_assoc _ _ _

theorem pins_push (p : Pool) (op : Op) (conn : Conn) :
    pins (push p op) conn = op.vi.count conn + pins p conn := by
  simp only [pins, push, List.flatMap_cons, List.count_append]
  omega

theorem places_push (p : Pool) (op : Op) : (places (push p op)).Perm (op.conns ++ places p) := by
  refine List.perm_iff_count.mpr fun conn => ?_
  simp only [places, List.count_append, (users_push p op).count_eq]
  simp only [push]
  omega

end Lists

section Calls

variable {p p' : Pool} {conn : Conn} {op op' : Op}

/-- Other calls with the same connections in their hands, and a semaphore that fits to them. -/
theorem Inv.withOps {ops : List Op} {sem : Nat} (inv : Inv p)
    (conns : (ops.flatMap Op.conns).Perm (p.ops.flatMap Op.conns))
    (vi : (ops.flatMap Op.vi).Perm (p.ops.flatMap Op.vi))
    (balance : sem + (ops.map Op.balance).sum = p.sem + (p.ops.map Op.balance).sum)
    (own : ∀ op ∈ ops, op.Own) : Inv { p with ops := ops, sem := sem } := by
  have usersSame : (p.held ++ ops.flatMap Op.conns).Perm (users p) := conns.append_left _
  exact
    { inv with
      accounted := by
        refine inv.accounted.move (List.Perm.map _ ?_)
        exact (usersSame.append_left _).append_right _
      live := fun conn => (inv.live conn).trans (usersSame.append_left (queues p)).mem_iff.symm
      refs := fun conn => by
        rw [inv.refs conn, ← usersSame.count_eq]
        simp only [pins, users, vi.count_eq]
      once := (vi.append_left _).nodup_iff.mpr inv.once
      sem := by
        rw [balance]
        exact inv.sem
      ops := own }

/-- The order of the calls does not matter. -/
theorem Inv.perm {ops : List Op} (inv : Inv p) (same : ops.Perm p.ops) :
    Inv { p with ops := ops } :=
  inv.withOps (same.flatMap_right Op.conns) (same.flatMap_right Op.vi)
    (by rw [(same.map Op.balance).sum_eq]) fun op member => inv.ops op (same.mem_iff.mp member)

theorem Inv.others (inv : Inv (push p op)) : ∀ other ∈ p.ops, other.Own := fun other member =>
  inv.ops other (List.mem_cons_of_mem op member)

theorem Inv.sem_push (inv : Inv (push p op)) :
    p.sem + (op.balance + (p.ops.map Op.balance).sum) = (both p.avail).length := by
  have := inv.sem
  simp only [push, List.map_cons, List.sum_cons] at this
  exact this

/-- A call goes on after an operation on the semaphore. -/
theorem Inv.goOn {sem : Nat} (inv : Inv (push p op)) (conns : op'.conns = op.conns)
    (vi : op'.vi = op.vi) (balance : (sem : Int) + op'.balance = p.sem + op.balance)
    (own : op'.Own) : Inv (push { p with sem := sem } op') := by
  refine inv.withOps ?_ ?_ ?_ (List.forall_mem_cons.mpr ⟨own, inv.others⟩)
  · simp only [push, List.flatMap_cons, conns, List.Perm.refl]
  · simp only [push, List.flatMap_cons, vi, List.Perm.refl]
  · simp only [push, List.map_cons, List.sum_cons]
    omega

/-- A call ends after an operation on the semaphore. -/
theorem Inv.finish {sem : Nat} (inv : Inv (push p op)) (conns : op.conns = []) (vi : op.vi = [])
    (balance : (sem : Int) = p.sem + op.balance) : Inv { p with sem := sem } := by
  refine inv.withOps ?_ ?_ ?_ inv.others
  · simp only [push, List.flatMap_cons, conns, List.nil_append, List.Perm.refl]
  · simp only [push, List.flatMap_cons, vi, List.nil_append, List.Perm.refl]
  · simp only [push, List.map_cons, List.sum_cons]
    omega

/-- A call begins. -/
theorem Inv.start (inv : Inv p) (conns : op.conns = []) (vi : op.vi = []) (even : op.balance = 0)
    (own : op.Own) : Inv (push p op) := by
  refine inv.withOps ?_ ?_ ?_ (List.forall_mem_cons.mpr ⟨own, inv.ops⟩)
  · simp only [List.flatMap_cons, conns, List.nil_append, List.Perm.refl]
  · simp only [List.flatMap_cons, vi, List.nil_append, List.Perm.refl]
  · rw [List.map_cons, List.sum_cons, even, zero_add]

/-! ## A connection in the hands of a call -/

theorem users_checking (p : Pool) (conn : Conn) :
    (users (push p (.checking conn))).Perm (conn :: users p) := users_push p (.checking conn)

/-- A connection in the hands of a call is nowhere else. -/
theorem Inv.nowhere (inv : Inv (push p (.checking conn))) :
    conn ∉ queues p ∧ conn ∉ users p ∧ conn ∉ p.deleted := by
  have nodup := ((places_push p (.checking conn)).map Conn.id).nodup_iff.mp inv.accounted.nodup
  have absent : conn ∉ places p := fun member =>
    (List.nodup_cons.mp nodup).1 (List.mem_map_of_mem member)
  simp only [places, List.mem_append, not_or] at absent
  simp only [queues, List.mem_append, not_or]
  exact ⟨absent.1.1, absent.1.2, absent.2⟩

/-- Its references, with that of the call. -/
theorem Inv.refs_checking (inv : Inv (push p (.checking conn))) (other : Conn) :
    p.refs other = pins p other + (users p).count other + if other = conn then 1 else 0 := by
  have := inv.refs other
  rw [pins_push, (users_checking p conn).count_eq, List.count_cons] at this
  simp only [push, Op.vi, List.count_nil, zero_add] at this
  rw [this]
  by_cases same : other = conn
  · simp [same]
    omega
  · simp [same, Ne.symm same]

/-- The last reference is released. -/
theorem deleteLast_inv (inv : Inv (push p (.checking conn))) (last : p.refs conn = 1) :
    Inv { p with
      refs := Function.update p.refs conn 0
      deleted := p.deleted ++ [conn] } := by
  obtain ⟨notQueued, notUsed, -⟩ := inv.nowhere
  exact
    { inv with
      accounted := by
        refine inv.accounted.move (List.Perm.map _ ?_)
        refine List.Perm.trans ?_ (places_push p (.checking conn)).symm
        simp only [places, ← List.append_assoc]
        exact List.perm_append_singleton conn _
      live := by
        intro other
        by_cases same : other = conn
        · rw [same]
          simp only [Function.update_self]
          refine iff_of_false (Int.lt_irrefl 0) fun member => ?_
          rcases List.mem_append.mp member with queued | used
          · exact notQueued queued
          · exact notUsed used
        · have before := inv.live other
          simp only [List.mem_append, (users_checking p conn).mem_iff, List.mem_cons, same,
            false_or] at before
          simp only [Function.update_of_ne same, List.mem_append]
          exact before
      refs := by
        intro other
        have before := inv.refs_checking other
        by_cases same : other = conn
        · rw [if_pos same, same, last] at before
          rw [same]
          simp only [Function.update_self]
          have : pins p conn + (users p).count conn = 0 := by omega
          exact_mod_cast this.symm
        · rw [if_neg same, add_zero] at before
          simp only [Function.update_of_ne same]
          exact before
      once := (owned_push p (.checking conn)).nodup_iff.mp inv.once
      sem := by
        have := inv.sem_push
        simp only [Op.balance, zero_add] at this
        exact this
      ops := inv.others }

/-- The call releases its reference and puts the connection into a queue. -/
theorem putBack_inv {avail invalid : Bool → List Conn} (ops : List Op)
    (inv : Inv (push p (.checking conn))) (notLast : p.refs conn ≠ 1)
    (queued : (both avail ++ both invalid).Perm (conn :: queues p))
    (conns : ops.flatMap Op.conns = p.ops.flatMap Op.conns)
    (vi : ops.flatMap Op.vi = p.ops.flatMap Op.vi)
    (balance : p.sem + (ops.map Op.balance).sum = (both avail).length)
    (own : ∀ op ∈ ops, op.Own) :
    Inv { p with
      avail := avail
      invalid := invalid
      ops := ops
      refs := Function.update p.refs conn (p.refs conn - 1) } := by
  obtain ⟨notQueued, notUsed, -⟩ := inv.nowhere
  have positive : 0 < p.refs conn := by
    rw [inv.refs_checking conn, if_pos rfl]
    omega
  exact
    { inv with
      accounted := by
        refine inv.accounted.move (List.Perm.map _ ?_)
        refine List.Perm.trans ?_ (places_push p (.checking conn)).symm
        simp only [places, users, conns]
        exact (queued.append_right _).append_right _
      live := by
        intro other
        have queuedIff : other ∈ both avail ++ both invalid ↔ other = conn ∨ other ∈ queues p := by
          rw [queued.mem_iff, List.mem_cons]
        simp only [queues, users, conns]
        rw [List.mem_append, queuedIff]
        by_cases same : other = conn
        · rw [same, Function.update_self]
          exact iff_of_true (by omega) (Or.inl (Or.inl rfl))
        · have before := inv.live other
          simp only [List.mem_append, (users_checking p conn).mem_iff, List.mem_cons, same,
            false_or] at before
          rw [Function.update_of_ne same]
          simp only [same, false_or]
          exact before
      refs := by
        intro other
        have before := inv.refs_checking other
        simp only [users, pins, conns, vi] at before ⊢
        by_cases same : other = conn
        · rw [if_pos same] at before
          rw [same] at before ⊢
          rw [Function.update_self]
          omega
        · rw [if_neg same, add_zero] at before
          rw [Function.update_of_ne same]
          exact before
      once := by
        have := (owned_push p (.checking conn)).nodup_iff.mp inv.once
        simp only [owned, vi] at this ⊢
        exact this
      sem := balance
      ops := own }

theorem release_notLast {q : Pool} (notLast : q.refs conn ≠ 1) : release q conn =
    { q with refs := Function.update q.refs conn (q.refs conn - 1) } := by
  rw [release, if_neg (by omega)]

theorem release_last {q : Pool} (last : q.refs conn = 1) : release q conn =
    { q with refs := Function.update q.refs conn 0, deleted := q.deleted ++ [conn] } := by
  rw [release, last, if_pos (by omega)]
  rfl

theorem giveAvail_inv (inv : Inv (push p (.checking conn))) (notLast : p.refs conn ≠ 1) :
    Inv (push (release (pushAvail p conn) conn) .checked) := by
  have pushed := both_push p.avail conn.isDefault conn
  have balance : p.sem + ((Op.checked :: p.ops).map Op.balance).sum =
      (both (pushAvail p conn).avail).length := by
    have := inv.sem_push
    rw [show (both (pushAvail p conn).avail).length = _ from pushed.length_eq]
    simp only [Op.balance, List.map_cons, List.sum_cons, List.length_cons, zero_add] at this ⊢
    omega
  rw [release_notLast (q := pushAvail p conn) notLast]
  have given := putBack_inv (.checked :: p.ops) inv notLast (pushed.append_right (both p.invalid))
    rfl rfl balance (List.forall_mem_cons.mpr ⟨trivial, inv.others⟩)
  exact given

theorem giveInvalid_inv (inv : Inv (push p (.checking conn))) (notLast : p.refs conn ≠ 1) :
    Inv (release (pushInvalid p conn) conn) := by
  have pushed := both_push p.invalid conn.isDefault conn
  have queued := (pushed.append_left (both p.avail)).trans List.perm_middle
  have balance := inv.sem_push
  simp only [Op.balance, zero_add] at balance
  rw [release_notLast (q := pushInvalid p conn) notLast]
  have given := putBack_inv p.ops inv notLast queued rfl rfl balance inv.others
  exact given

/-- A connection that was just pushed is taken out again. -/
theorem erase_pushed {queue : Bool → List Conn} {b : Bool} (absent : conn ∉ queue b) :
    Function.update (Function.update queue b (queue b ++ [conn])) b
      ((Function.update queue b (queue b ++ [conn]) b).erase conn) = queue := by
  rw [Function.update_self, Function.update_idem, List.erase_append_right _ absent]
  simp

theorem mem_both {queue : Bool → List Conn} (b : Bool) (member : conn ∈ queue b) :
    conn ∈ both queue := by
  cases b with
  | true => exact List.mem_append_left _ member
  | false => exact List.mem_append_right _ member

theorem Inv.not_mem_avail (inv : Inv (push p (.checking conn))) (b : Bool) :
    conn ∉ p.avail b := fun member =>
  inv.nowhere.1 (List.mem_append_left _ (mem_both b member))

theorem Inv.not_mem_invalid (inv : Inv (push p (.checking conn))) (b : Bool) :
    conn ∉ p.invalid b := fun member =>
  inv.nowhere.1 (List.mem_append_right _ (mem_both b member))

theorem stillInvalid_inv (inv : Inv (push p (.checking conn))) : Inv (stillInvalid p conn) := by
  by_cases last : p.refs conn = 1
  · have gone := deleteLast_inv inv last
    have absent := inv.not_mem_invalid conn.isDefault
    have isLast : (release (pushInvalid p conn) conn).refs conn = 0 := by
      rw [release_last (q := pushInvalid p conn) last]
      exact Function.update_self ..
    simp only [stillInvalid]
    rw [if_pos isLast, release_last (q := pushInvalid p conn) last]
    simp only [delInvalid, pushInvalid]
    rw [erase_pushed absent]
    exact gone
  · have notLast : (release (pushInvalid p conn) conn).refs conn ≠ 0 := by
      rw [release_notLast (q := pushInvalid p conn) last]
      simp only [Function.update_self]
      exact fun zero => last (by simpa [pushInvalid] using sub_eq_zero.mp zero)
    simp only [stillInvalid]
    rw [if_neg notLast]
    exact giveInvalid_inv inv last

theorem refs_released {q : Pool} : (release q conn).refs conn = q.refs conn - 1 :=
  Function.update_self ..

theorem nowAvailable_inv (inv : Inv (push p (.checking conn)))
    (another : conn.isDefault = true → 1 < p.refs conn) : Inv (nowAvailable p conn) := by
  have same : (release (pushAvail p conn) conn).refs conn = p.refs conn - 1 := refs_released
  simp only [nowAvailable]
  by_cases last : p.refs conn = 1
  · have other : conn.isDefault = false := by
      rw [Bool.eq_false_iff]
      intro isDefault
      have := another isDefault
      omega
    have absent := inv.not_mem_avail conn.isDefault
    rw [if_pos (by rw [same]; omega), release_last (q := pushAvail p conn) last, ← other]
    simp only [delAvail, pushAvail]
    rw [erase_pushed absent]
    exact deleteLast_inv inv last
  · rw [if_neg (by rw [same]; omega)]
    exact giveAvail_inv inv last

theorem erase_absent {queue : Bool → List Conn} {b : Bool} (absent : conn ∉ queue b) :
    Function.update queue b ((queue b).erase conn) = queue := by
  rw [List.erase_of_not_mem absent, Function.update_eq_self]

/-- A connection that works is freed. -/
theorem freeConn_inv (inv : Inv (push p (.checking conn))) : Inv (freeConn p conn true) := by
  have same : (release (pushAvail p conn) conn).refs conn = p.refs conn - 1 := refs_released
  simp only [freeConn, if_true]
  by_cases last : p.refs conn = 1
  · have gone := deleteLast_inv inv last
    rw [if_pos (by rw [same]; omega), release_last (q := pushAvail p conn) last]
    have queues : ∀ b, conn.isDefault = b →
        Inv (delAvail (delAvail (delInvalid (delInvalid
          { pushAvail p conn with
            refs := Function.update (pushAvail p conn).refs conn 0
            deleted := (pushAvail p conn).deleted ++ [conn] } true conn) false conn) true conn)
          false conn) := by
      intro b isDefault
      simp only [delInvalid, delAvail, pushAvail]
      rw [erase_absent (inv.not_mem_invalid true), erase_absent (inv.not_mem_invalid false),
        isDefault]
      cases b with
      | true =>
          rw [erase_pushed (inv.not_mem_avail true), erase_absent (inv.not_mem_avail false)]
          exact gone
      | false =>
          have others : conn ∉
              Function.update p.avail false (p.avail false ++ [conn]) true := by
            rw [Function.update_of_ne (by decide)]
            exact inv.not_mem_avail true
          rw [erase_absent others, erase_pushed (inv.not_mem_avail false)]
          exact gone
    exact queues _ rfl
  · rw [if_neg (by rw [same]; omega)]
    refine (giveAvail_inv inv last).finish rfl rfl ?_
    simp [Op.balance, release, pushAvail]

/-- A user or the retry worker takes a connection out of a queue. -/
theorem take_inv {avail invalid : Bool → List Conn} {held : List Conn} (ops : List Op)
    (inv : Inv p) (queued : (queues p).Perm (conn :: (both avail ++ both invalid)))
    (used : (held ++ ops.flatMap Op.conns).Perm (conn :: users p))
    (vi : ops.flatMap Op.vi = p.ops.flatMap Op.vi)
    (balance : p.sem + (ops.map Op.balance).sum = (both avail).length)
    (own : ∀ op ∈ ops, op.Own) :
    Inv { p with
      avail := avail
      invalid := invalid
      held := held
      ops := ops
      refs := Function.update p.refs conn (p.refs conn + 1) } := by
  have positive : 0 < p.refs conn := by
    refine (inv.live conn).mpr (List.mem_append_left _ ?_)
    rw [queued.mem_iff]
    exact List.mem_cons_self
  exact
    { inv with
      accounted := by
        refine inv.accounted.move (List.Perm.map _ (List.perm_iff_count.mpr fun other => ?_))
        have before := queued.count_eq other
        have after := used.count_eq other
        simp only [places, users, queues, List.count_append, List.count_cons] at before after ⊢
        omega
      live := by
        intro other
        have before := inv.live other
        rw [List.mem_append, queued.mem_iff, List.mem_cons] at before
        have after : other ∈ held ++ ops.flatMap Op.conns ↔ other = conn ∨ other ∈ users p := by
          rw [used.mem_iff, List.mem_cons]
        simp only [queues, users]
        rw [List.mem_append, after]
        by_cases same : other = conn
        · rw [same, Function.update_self]
          exact iff_of_true (by omega) (Or.inr (Or.inl rfl))
        · rw [Function.update_of_ne same]
          simp only [same, false_or] at before ⊢
          exact before
      refs := by
        intro other
        have before := inv.refs other
        simp only [users, pins, vi] at before ⊢
        rw [used.count_eq, List.count_cons]
        by_cases same : other = conn
        · rw [same] at before ⊢
          rw [Function.update_self]
          simp only [users, beq_self_eq_true, if_true]
          omega
        · rw [Function.update_of_ne same, before]
          simp [users, Ne.symm same]
      once := by
        have := inv.once
        simp only [owned, vi] at this ⊢
        exact this
      sem := balance
      ops := own }

theorem popAvail_inv {b : Bool} {rest : List Conn} (inv : Inv (push p .taken))
    (first : p.avail b = conn :: rest) :
    Inv { addRef p conn with
      avail := Function.update p.avail b rest, held := p.held ++ [conn] } := by
  have taken := both_take p.avail (List.Perm.of_eq first)
  have queued := taken.append_right (both p.invalid)
  have used : ((p.held ++ [conn]) ++ p.ops.flatMap Op.conns).Perm
      (conn :: users (push p .taken)) :=
    (List.perm_append_singleton conn p.held).append_right _
  have balance := inv.sem_push
  rw [taken.length_eq, List.length_cons] at balance
  simp only [Op.balance] at balance
  have popped := take_inv p.ops inv queued used rfl (by simp only [push]; omega)
    inv.others
  exact popped

theorem getSection_inv (inv : Inv (push p .taken)) : Inv (getSection p) := by
  unfold getSection
  split
  · rename_i first
    exact popAvail_inv inv first
  · rename_i first
    exact popAvail_inv inv first
  · exact inv.goOn rfl rfl rfl trivial

theorem retry_inv {b : Bool} (inv : Inv p) (taken : retry p b = some p') : Inv p' := by
  unfold retry at taken
  split at taken
  · exact absurd taken (by simp)
  · rename_i conn rest first
    obtain rfl := Option.some.inj taken
    have queued : (queues p).Perm
        (conn :: (both p.avail ++ both (Function.update p.invalid b rest))) :=
      ((both_take p.invalid (List.Perm.of_eq first)).append_left _).trans List.perm_middle
    have used : (p.held ++ (Op.checking conn :: p.ops).flatMap Op.conns).Perm (conn :: users p) :=
      List.perm_middle
    have balance := inv.sem
    have moved := take_inv (.checking conn :: p.ops) inv queued used rfl
      (by simp only [List.map_cons, List.sum_cons, Op.balance, zero_add]; exact balance)
      (List.forall_mem_cons.mpr ⟨trivial, inv.ops⟩)
    exact moved

/-- A connection that was in use is in the hands of a call. -/
theorem takeHeld_inv {i : Nat} (inv : Inv p) (atIndex : p.held[i]? = some conn) :
    Inv (push { p with held := p.held.eraseIdx i } (.checking conn)) := by
  have used : (users (push { p with held := p.held.eraseIdx i } (.checking conn))).Perm
      (users p) := by
    refine (users_checking _ conn).trans ?_
    exact ((perm_cons_eraseIdx atIndex).append_right _).symm
  exact
    { inv with
      accounted := by
        refine inv.accounted.move (List.Perm.map _ ?_)
        exact (used.append_left _).append_right _
      live := fun other => (inv.live other).trans (used.append_left (queues p)).mem_iff.symm
      refs := fun other => by
        rw [used.count_eq]
        exact inv.refs other
      sem := by
        have := inv.sem
        simp only [push, List.map_cons, List.sum_cons, Op.balance, zero_add]
        exact this
      ops := List.forall_mem_cons.mpr ⟨trivial, inv.ops⟩ }

end Calls

/-! ## Configurations -/

section Configs

variable {p p' : Pool} {conn : Conn} {conf : Text} {config g : Config} {configs : List Config}

/-- A configuration and the others, before and after it is changed or erased. -/
theorem config_perm (found : findConfig conf configs = some g) :
    ∃ others, configs.Perm (g :: others) ∧ (eraseConfig conf configs).Perm others ∧
      ∀ config, (setConfig conf config configs).Perm (config :: others) := by
  induction configs with
  | nil => exact absurd found (by simp [findConfig])
  | cons first rest ih =>
      by_cases same : first.conf = conf
      · obtain rfl : first = g := by simpa [findConfig, same] using found
        refine ⟨rest, List.Perm.refl _, ?_, fun config => ?_⟩
        · rw [eraseConfig, List.eraseP_cons_of_pos (by simpa using same)]
        · rw [setConfig, if_pos same]
      · obtain ⟨others, before, erased, set⟩ := ih (by simpa [findConfig, same] using found)
        refine ⟨first :: others, ?_, ?_, fun config => ?_⟩
        · exact (before.cons first).trans (List.Perm.swap _ _ _)
        · rw [eraseConfig, List.eraseP_cons_of_neg (by simpa using same)]
          exact erased.cons first
        · rw [setConfig, if_neg same]
          exact ((set config).cons first).trans (List.Perm.swap _ _ _)

/-- The references of configurations, if one is taken out of the list. -/
theorem pins_perm {others : List Config} (same : configs.Perm (g :: others)) (conn : Conn) :
    (configs.map fun g => g.adds * g.vi.count conn).sum =
      g.adds * g.vi.count conn + (others.map fun g => g.adds * g.vi.count conn).sum := by
  rw [(same.map _).sum_eq, List.map_cons, List.sum_cons]

theorem owned_perm {others : List Config} (same : configs.Perm (g :: others)) :
    (configs.flatMap Config.vi).Perm (g.vi ++ others.flatMap Config.vi) := by
  have := same.flatMap_right Config.vi
  rwa [List.flatMap_cons] at this

theorem pins_absent (absent : conn ∉ configs.flatMap Config.vi) :
    (configs.map fun g => g.adds * g.vi.count conn).sum = 0 := by
  refine List.sum_eq_zero fun n isTerm => ?_
  obtain ⟨g, isConfig, rfl⟩ := List.mem_map.mp isTerm
  have notInVi : conn ∉ g.vi := fun inVi => absent (List.mem_flatMap.mpr ⟨g, isConfig, inVi⟩)
  rw [List.count_eq_zero_of_not_mem notInVi, Nat.mul_zero]

theorem Inv.pins_pos (inv : Inv p) (member : conn ∈ owned p) : 0 < pins p conn := by
  rcases List.mem_append.mp member with inConfig | inOp
  · obtain ⟨g, isConfig, inVi⟩ := List.mem_flatMap.mp inConfig
    have positive : 0 < g.adds * g.vi.count conn :=
      Nat.mul_pos (inv.configs g isConfig).1 (List.count_pos_iff.mpr inVi)
    have split := pins_perm (List.perm_cons_erase isConfig) conn
    simp only [pins]
    omega
  · have positive := List.count_pos_iff.mpr inOp
    simp only [pins]
    omega

/-- A connection that is yet to be made has no references. -/
theorem Inv.fresh (inv : Inv p) (isDefault : Bool) :
    (⟨p.created, isDefault⟩ : Conn) ∉ queues p ++ users p ∧
      p.refs ⟨p.created, isDefault⟩ = 0 ∧ pins p ⟨p.created, isDefault⟩ = 0 := by
  have absent : (⟨p.created, isDefault⟩ : Conn) ∉ queues p ++ users p := by
    intro member
    have inPlaces : (⟨p.created, isDefault⟩ : Conn) ∈ places p := by
      simp only [places, queues, List.mem_append] at member ⊢
      exact Or.inl member
    exact absurd (inv.accounted.mem_iff.mp (List.mem_map_of_mem inPlaces)) (Nat.lt_irrefl _)
  have notLive := mt (inv.live _).mp absent
  have refs := inv.refs ⟨p.created, isDefault⟩
  exact ⟨absent, by omega, by omega⟩

end Configs

section Calls

variable {p p' : Pool} {conn : Conn} {op op' : Op}

/-- `AddServer` makes a connection. -/
theorem make_inv {avail invalid : Bool → List Conn} {conf : Text} {isDefault : Bool}
    {vi : List Conn} {conns : Nat} (op' : Op)
    (inv : Inv (push p (.adding conf isDefault vi (conns + 1))))
    (queued : (both avail ++ both invalid).Perm (⟨p.created, isDefault⟩ :: queues p))
    (noConns : op'.conns = []) (isVi : op'.vi = vi ++ [⟨p.created, isDefault⟩])
    (balance : p.sem + ((op' :: p.ops).map Op.balance).sum = (both avail).length)
    (own : op'.Own) :
    Inv { p with
      created := p.created + 1
      avail := avail
      invalid := invalid
      ops := op' :: p.ops
      refs := Function.update p.refs ⟨p.created, isDefault⟩
        (p.refs ⟨p.created, isDefault⟩ + 1) } := by
  obtain ⟨-, isZero, noPins⟩ := inv.fresh isDefault
  have noRefs : p.refs ⟨p.created, isDefault⟩ = 0 := isZero
  have usersSame : (op' :: p.ops).flatMap Op.conns = p.ops.flatMap Op.conns := by
    rw [List.flatMap_cons, noConns, List.nil_append]
  exact
    { inv with
      accounted := by
        have new : (places { p with
            avail := avail, invalid := invalid, ops := op' :: p.ops }).Perm
              (⟨p.created, isDefault⟩ :: places p) := by
          simp only [places, users, usersSame]
          exact (queued.append_right _).append_right _
        exact inv.accounted.create (new.map Conn.id)
      live := by
        intro other
        have queuedIff : other ∈ both avail ++ both invalid ↔
            other = ⟨p.created, isDefault⟩ ∨ other ∈ queues p := by
          rw [queued.mem_iff, List.mem_cons]
        simp only [queues, users, usersSame]
        rw [List.mem_append, queuedIff]
        by_cases same : other = ⟨p.created, isDefault⟩
        · rw [same, Function.update_self]
          exact iff_of_true (by rw [noRefs]; decide) (Or.inl (Or.inl rfl))
        · rw [Function.update_of_ne same]
          simp only [same, false_or]
          rw [← List.mem_append]
          exact inv.live other
      refs := by
        intro other
        have before := inv.refs other
        rw [pins_push] at before
        simp only [Op.vi] at before
        simp only [pins, users, usersSame, List.flatMap_cons, isVi, List.count_append]
        simp only [pins, users, push, List.flatMap_cons, Op.conns, List.nil_append,
          List.count_append] at before
        by_cases same : other = ⟨p.created, isDefault⟩
        · rw [same] at before ⊢
          rw [Function.update_self, before, List.count_singleton_self]
          omega
        · rw [Function.update_of_ne same, before, List.count_singleton]
          have different : ((⟨p.created, isDefault⟩ : Conn) == other) = false := by
            simpa using Ne.symm same
          simp only [different, Bool.false_eq_true, if_false]
          omega
      once := by
        have before := (owned_push p _).nodup_iff.mp inv.once
        have new : (owned { p with ops := op' :: p.ops }).Perm
            (⟨p.created, isDefault⟩ :: (vi ++ owned p)) := by
          refine (owned_push p op').trans ?_
          rw [isVi]
          exact (List.perm_append_singleton _ vi).append_right _
        refine (new.nodup_iff).mpr (List.nodup_cons.mpr ⟨fun member => ?_, before⟩)
        have positive := inv.pins_pos ((owned_push p _).mem_iff.mpr member)
        exact absurd noPins (Nat.ne_of_gt positive)
      sem := balance
      ops := List.forall_mem_cons.mpr ⟨own, inv.others⟩ }

theorem connected_inv {conf : Text} {isDefault : Bool} {vi : List Conn} {conns : Nat}
    (inv : Inv (push p (.adding conf isDefault vi (conns + 1)))) :
    Inv (connected p conf isDefault vi conns) := by
  have pushed := both_push p.avail isDefault ⟨p.created, isDefault⟩
  have balance := inv.sem_push
  have made := make_inv (.added conf isDefault (vi ++ [⟨p.created, isDefault⟩]) conns) inv
    (pushed.append_right (both p.invalid)) rfl rfl
    (by
      rw [pushed.length_eq]
      simp only [Op.balance, List.map_cons, List.sum_cons, List.length_cons] at balance ⊢
      omega)
    trivial
  exact made

theorem notConnected_inv {conf : Text} {isDefault : Bool} {vi : List Conn} {conns : Nat}
    (inv : Inv (push p (.adding conf isDefault vi (conns + 1)))) :
    Inv (notConnected p conf isDefault vi conns) := by
  have pushed := both_push p.invalid isDefault ⟨p.created, isDefault⟩
  have queued := (pushed.append_left (both p.avail)).trans List.perm_middle
  have balance := inv.sem_push
  have made := make_inv (.adding conf isDefault (vi ++ [⟨p.created, isDefault⟩]) conns) inv
    queued rfl rfl balance trivial
  exact made

/-- Other configurations with the same references, and with the connections of calls that end. -/
theorem Inv.withConfigs {configs : List Config} {ops : List Op} (inv : Inv p)
    (conns : ops.flatMap Op.conns = p.ops.flatMap Op.conns)
    (pinned : ∀ conn, pins { p with configs := configs, ops := ops } conn = pins p conn)
    (same : (configs.flatMap Config.vi ++ ops.flatMap Op.vi).Perm (owned p))
    (counted : ∀ g ∈ configs, 0 < g.adds ∧ g.first = g.adds * g.vi.length)
    (balance : (ops.map Op.balance).sum = (p.ops.map Op.balance).sum)
    (own : ∀ op ∈ ops, op.Own) : Inv { p with configs := configs, ops := ops } :=
  { inv with
    accounted := by
      have := inv.accounted
      simp only [places, users, ← conns] at this
      exact this
    live := by
      have := inv.live
      simp only [users, ← conns] at this
      exact this
    refs := by
      intro conn
      have := inv.refs conn
      simp only [users, ← conns] at this
      rw [pinned conn]
      exact this
    once := same.nodup_iff.mpr inv.once
    configs := counted
    sem := by
      have := inv.sem
      rw [← balance] at this
      exact this
    ops := own }

theorem register_inv {conf : Text} {isDefault : Bool} {vi : List Conn}
    (inv : Inv (push p (.adding conf isDefault vi 0)))
    (empty : ∀ g ∈ findConfig conf p.configs, g.vi = []) : Inv (register p conf vi) := by
  have balance : (p.ops.map Op.balance).sum = 
      ((push p (.adding conf isDefault vi 0)).ops.map Op.balance).sum := by
    simp [push, Op.balance]
  have counted : 0 < (⟨conf, vi.length, vi, 1⟩ : Config).adds ∧
      (⟨conf, vi.length, vi, 1⟩ : Config).first = 1 * vi.length := ⟨Nat.one_pos, by simp⟩
  unfold register
  simp only
  split
  · rename_i g found
    obtain ⟨others, before, -, after⟩ := config_perm found
    have noVi : g.vi = [] := empty g found
    refine inv.withConfigs rfl (fun conn => ?_) ?_ (fun g' member => ?_) balance inv.others
    · simp only [pins, pins_perm (after _) conn, pins_perm before conn, noVi, push,
        List.flatMap_cons, Op.vi, List.count_append, List.count_nil]
      omega
    · refine List.perm_iff_count.mpr fun conn => ?_
      simp only [owned, push, List.count_append, (owned_perm (after _)).count_eq,
        (owned_perm before).count_eq, noVi, List.flatMap_cons, Op.vi, List.count_nil]
      omega
    · rcases List.mem_cons.mp ((after _).mem_iff.mp member) with rfl | old
      · exact counted
      · exact inv.configs g' (before.mem_iff.mpr (List.mem_cons_of_mem g old))
  · refine inv.withConfigs rfl (fun conn => ?_) ?_ (fun g' member => ?_) balance inv.others
    · simp only [pins, push, List.map_append, List.map_cons, List.map_nil, List.sum_append,
        List.sum_cons, List.sum_nil, List.flatMap_cons, Op.vi, List.count_append]
      omega
    · refine List.perm_iff_count.mpr fun conn => ?_
      simp only [owned, push, List.flatMap_append, List.flatMap_cons, List.flatMap_nil, Op.vi,
        List.count_append, List.count_nil]
      omega
    · rcases List.mem_append.mp member with old | new
      · exact inv.configs g' old
      · rw [List.mem_singleton.mp new]
        exact counted

theorem foldl_addRef (vi : List Conn) (p : Pool) : vi.foldl addRef p =
    { p with refs := fun conn => p.refs conn + vi.count conn } := by
  induction vi generalizing p with
  | nil => simp
  | cons first rest ih =>
      rw [List.foldl_cons, ih]
      simp only [addRef]
      congr 1
      funext conn
      by_cases same : conn = first
      · rw [same, Function.update_self, List.count_cons_self]
        omega
      · rw [Function.update_of_ne same, List.count_cons_of_ne (Ne.symm same)]

theorem addServer_inv {conf : Text} {conns : Nat} {isDefault : Bool} (inv : Inv p) :
    Inv (addServer p conf conns isDefault) := by
  unfold addServer
  split
  · rename_i g found
    obtain ⟨others, before, -, after⟩ := config_perm found
    have isConfig : g ∈ p.configs := before.mem_iff.mpr List.mem_cons_self
    simp only [foldl_addRef]
    exact
      { inv with
        live := by
          intro conn
          refine Iff.trans ?_ (inv.live conn)
          by_cases member : conn ∈ g.vi
          · have positive := inv.pins_pos
              (List.mem_append_left _ (List.mem_flatMap.mpr ⟨g, isConfig, member⟩))
            have refs := inv.refs conn
            exact iff_of_true (by simp only; omega) (by omega)
          · simp only [List.count_eq_zero_of_not_mem member]
            omega
        refs := by
          intro conn
          have refs := inv.refs conn
          simp only [pins, users, pins_perm (after _) conn, pins_perm before conn] at refs ⊢
          rw [refs, Nat.succ_mul]
          omega
        once := by
          refine (List.Perm.append_right _ ?_).nodup_iff.mpr inv.once
          exact (owned_perm (after _)).trans (owned_perm before).symm
        configs := by
          intro g' member
          rcases List.mem_cons.mp ((after _).mem_iff.mp member) with rfl | old
          · obtain ⟨positive, counted⟩ := inv.configs g isConfig
            refine ⟨Nat.succ_pos _, ?_⟩
            simp only [counted, Nat.succ_mul]
          · exact inv.configs g' (before.mem_iff.mpr (List.mem_cons_of_mem g old)) }
  · exact inv.start rfl rfl rfl trivial

/-! ## `DelServer` -/

/-- The references are released, and connections are deleted with their last one. -/
theorem releaseLoop_eq {vi : List Conn} (nodup : vi.Nodup) (p : Pool) (n : Int) :
    releaseLoop vi p n =
      ({ p with
          refs := fun conn => p.refs conn - vi.count conn
          deleted := p.deleted ++ vi.filter fun conn => decide (p.refs conn = 1) },
        n + (vi.filter fun conn => decide (p.refs conn = 1)).length) := by
  induction vi generalizing p n with
  | nil => simp [releaseLoop]
  | cons first rest ih =>
      obtain ⟨other, restNodup⟩ := List.nodup_cons.mp nodup
      have kept : (rest.filter fun conn => decide ((release p first).refs conn = 1)) =
          rest.filter fun conn => decide (p.refs conn = 1) := by
        refine List.filter_congr fun conn member => ?_
        have different : conn ≠ first := fun same => other (same ▸ member)
        simp only [release, Function.update_of_ne different]
      have refs : (fun conn => (release p first).refs conn - rest.count conn) =
          fun conn => p.refs conn - (first :: rest).count conn := by
        funext conn
        by_cases same : conn = first
        · rw [same, List.count_cons_self]
          simp only [release, Function.update_self]
          omega
        · rw [List.count_cons_of_ne (Ne.symm same)]
          simp only [release, Function.update_of_ne same]
      rw [releaseLoop, ih restNodup, refs, kept]
      by_cases last : p.refs first = 1
      · rw [List.filter_cons_of_pos (by simpa using last), if_pos (by omega)]
        simp only [release, last, List.length_cons]
        refine Prod.ext ?_ ?_
        · simp
        · omega
      · rw [List.filter_cons_of_neg (by simpa using last), if_neg (by omega)]
        simp only [release, if_neg (show ¬ p.refs first - 1 = 0 by omega)]

/-- What `DelConnection` takes out of the queues. -/
structure Removed (vi : List Conn) (p : Pool) (n : Int) (p' : Pool) (n' : Int) : Prop where
  rest : p' = { p with avail := p'.avail, invalid := p'.invalid }
  avail : (both p'.avail).Sublist (both p.avail)
  invalid : (both p'.invalid).Sublist (both p.invalid)
  count : ∀ conn, (queues p').count conn = (queues p).count conn - vi.count conn
  number : n' = n - ((both p.invalid).length - (both p'.invalid).length)

theorem both_erase_sublist (queue : Bool → List Conn) (b : Bool) (conn : Conn) :
    (both (Function.update queue b ((queue b).erase conn))).Sublist (both queue) := by
  cases b with
  | true =>
      simp only [both, Function.update_self, ne_eq, Bool.false_eq_true, not_false_eq_true,
        Function.update_of_ne]
      exact List.erase_sublist.append_right _
  | false =>
      simp only [both, Function.update_self, ne_eq, Bool.true_eq_false, not_false_eq_true,
        Function.update_of_ne]
      exact List.erase_sublist.append_left _

section Remove

variable {vi : List Conn} {n n' : Int} {b : Bool}

theorem Removed.ofAvail (later : Removed vi (delAvail p b conn) n p' n')
    (member : conn ∈ p.avail b) : Removed (conn :: vi) p n p' n' where
  rest := by
    have := later.rest
    simp only [delAvail] at this
    exact this
  avail := later.avail.trans (both_erase_sublist p.avail b conn)
  invalid := later.invalid
  count other := by
    have taken := (both_take p.avail (List.perm_cons_erase member)).append_right (both p.invalid)
    have before := taken.count_eq other
    have after := later.count other
    simp only [queues, delAvail, List.cons_append, List.count_cons] at before after ⊢
    omega
  number := later.number

theorem Removed.ofInvalid (later : Removed vi (delInvalid p b conn) (n - 1) p' n')
    (member : conn ∈ p.invalid b) : Removed (conn :: vi) p n p' n' where
  rest := by
    have := later.rest
    simp only [delInvalid] at this
    exact this
  avail := later.avail
  invalid := later.invalid.trans (both_erase_sublist p.invalid b conn)
  count other := by
    have taken := ((both_take p.invalid (List.perm_cons_erase member)).append_left
      (both p.avail)).trans List.perm_middle
    have before := taken.count_eq other
    have after := later.count other
    simp only [queues, delInvalid, List.count_cons] at before after ⊢
    omega
  number := by
    have taken := (both_take p.invalid (List.perm_cons_erase member)).length_eq
    have after := later.number
    simp only [delInvalid, List.length_cons] at taken after
    omega

theorem Removed.ofAbsent (later : Removed vi p n p' n') (absent : conn ∉ queues p) :
    Removed (conn :: vi) p n p' n' :=
  { later with
    count := fun other => by
      have after := later.count other
      rw [List.count_cons]
      by_cases same : other = conn
      · have none' := List.count_eq_zero_of_not_mem absent
        rw [same] at after ⊢
        omega
      · have different : (conn == other) = false := by simpa using Ne.symm same
        simp only [different, Bool.false_eq_true, if_false, add_zero]
        exact after }

end Remove

theorem delLoop_removed (vi : List Conn) (p : Pool) (n : Int) :
    Removed vi p n (delLoop vi p n).1 (delLoop vi p n).2 := by
  induction vi generalizing p n with
  | nil => exact ⟨rfl, List.Sublist.refl _, List.Sublist.refl _, fun conn => rfl, by simp [delLoop]⟩
  | cons conn rest ih =>
      rw [delLoop]
      split
      · rename_i member
        exact (ih _ _).ofInvalid member
      · rename_i notFirst
        split
        · rename_i member
          exact (ih _ _).ofInvalid member
        · rename_i notSecond
          split
          · rename_i member
            exact (ih _ _).ofAvail member
          · rename_i notThird
            split
            · rename_i member
              exact (ih _ _).ofAvail member
            · rename_i notFourth
              refine (ih _ _).ofAbsent ?_
              simp only [queues, both, List.mem_append, not_or]
              exact ⟨⟨notThird, notFourth⟩, notFirst, notSecond⟩

section Del

variable {g : Config} {others : List Config}

/-- The connections of a configuration belong to no other one. -/
theorem Inv.pins_config (inv : Inv p) (split : p.configs.Perm (g :: others))
    (member : conn ∈ g.vi) : g.vi.count conn = 1 ∧ pins p conn = g.adds := by
  have parts : (owned p).Perm
      (g.vi ++ (others.flatMap Config.vi ++ p.ops.flatMap Op.vi)) := by
    rw [← List.append_assoc]
    exact (owned_perm split).append_right _
  obtain ⟨nodup, -, apart⟩ := List.nodup_append.mp (parts.nodup_iff.mp inv.once)
  have elsewhere : conn ∉ others.flatMap Config.vi ++ p.ops.flatMap Op.vi := fun other =>
    apart conn member conn other rfl
  rw [List.mem_append, not_or] at elsewhere
  have once := List.count_eq_one_of_mem nodup member
  refine ⟨once, ?_⟩
  rw [pins, pins_perm split, once, pins_absent elsewhere.1,
    List.count_eq_zero_of_not_mem elsewhere.2]
  omega

theorem Inv.config_nodup (inv : Inv p) (split : p.configs.Perm (g :: others)) : g.vi.Nodup := by
  have parts := (owned_perm split).append_right (p.ops.flatMap Op.vi)
  have nodup := parts.nodup_iff.mp inv.once
  rw [List.append_assoc] at nodup
  exact (List.nodup_append.mp nodup).1

/-- A connection is in one queue at most, and in none while it is used. -/
theorem Inv.count_queues (inv : Inv p) (conn : Conn) :
    (queues p).count conn + (users p).count conn ≤ 1 := by
  have nodup : (places p).Nodup := List.Nodup.of_map _ inv.accounted.nodup
  have once := List.nodup_iff_count_le_one.mp nodup conn
  simp only [places, queues, List.count_append] at once ⊢
  omega

/-- If the configuration was added once, its references are the last ones of its connections in the
queues. -/
theorem Inv.count_last (inv : Inv p) (split : p.configs.Perm (g :: others)) (single : g.adds = 1)
    (conn : Conn) (member : conn ∈ g.vi) :
    (queues p).count conn = (g.vi.filter fun conn => decide (p.refs conn = 1)).count conn := by
  obtain ⟨once, pinned⟩ := inv.pins_config split member
  have refs := inv.refs conn
  have live := inv.live conn
  have most := inv.count_queues conn
  by_cases last : p.refs conn = 1
  · rw [List.count_filter (by simpa using last), once]
    have unused : (users p).count conn = 0 := by omega
    have inQueue : conn ∈ queues p := by
      rcases List.mem_append.mp (live.mp (by omega)) with queued | used
      · exact queued
      · exact absurd used (List.count_eq_zero.mp unused)
    have := List.count_pos_iff.mpr inQueue
    omega
  · have notKept : conn ∉ g.vi.filter fun conn => decide (p.refs conn = 1) := by
      simp [last]
    rw [List.count_eq_zero_of_not_mem notKept]
    omega

/-- Another `AddServer` still needs the configuration. -/
theorem keepConfig_inv {conf : Text} (inv : Inv p) (found : findConfig conf p.configs = some g)
    (more : 0 < g.first - g.vi.length) :
    Inv { p with
      refs := fun conn => p.refs conn - g.vi.count conn
      deleted := p.deleted ++ g.vi.filter fun conn => decide (p.refs conn = 1)
      configs := setConfig conf
        { g with first := g.first - g.vi.length, adds := g.adds - 1 } p.configs } := by
  obtain ⟨others, before, -, after⟩ := config_perm found
  have isConfig : g ∈ p.configs := before.mem_iff.mpr List.mem_cons_self
  obtain ⟨-, counted⟩ := inv.configs g isConfig
  have twice : 2 ≤ g.adds := by
    by_contra few
    have : g.adds * g.vi.length ≤ 1 * g.vi.length := Nat.mul_le_mul_right _ (by omega)
    omega
  have notLast : ∀ conn ∈ g.vi, 2 ≤ p.refs conn := by
    intro conn member
    have refs := inv.refs conn
    rw [(inv.pins_config before member).2] at refs
    omega
  have noneDeleted : (g.vi.filter fun conn => decide (p.refs conn = 1)) = [] := by
    refine List.filter_eq_nil_iff.mpr fun conn member => ?_
    have := notLast conn member
    simp only [decide_eq_true_eq]
    omega
  rw [noneDeleted, List.append_nil]
  exact
    { inv with
      live := by
        intro conn
        refine Iff.trans ?_ (inv.live conn)
        by_cases member : conn ∈ g.vi
        · have once := (inv.pins_config before member).1
          have := notLast conn member
          simp only [once]
          omega
        · simp only [List.count_eq_zero_of_not_mem member]
          omega
      refs := by
        intro conn
        have refs := inv.refs conn
        simp only [pins, users, pins_perm (after _) conn, pins_perm before conn] at refs ⊢
        have fewer : (g.adds - 1) * g.vi.count conn + g.vi.count conn =
            g.adds * g.vi.count conn := by
          rw [← Nat.succ_mul, Nat.succ_eq_add_one, Nat.sub_add_cancel (by omega)]
        rw [refs]
        omega
      once := by
        refine (List.Perm.append_right _ ?_).nodup_iff.mpr inv.once
        exact (owned_perm (after _)).trans (owned_perm before).symm
      configs := by
        intro g' member
        rcases List.mem_cons.mp ((after _).mem_iff.mp member) with rfl | old
        · refine ⟨by simp only; omega, ?_⟩
          simp only [counted, Nat.sub_mul, Nat.one_mul]
        · exact inv.configs g' (before.mem_iff.mpr (List.mem_cons_of_mem g old)) }

/-- The last `AddServer` of the configuration is taken back: all connections of the configuration
that are in the queues leave them, and they are those that were deleted. -/
theorem eraseConfig_inv {conf : Text} {avail invalid : Bool → List Conn} {n : Int} (inv : Inv p)
    (found : findConfig conf p.configs = some g) (last : g.first - g.vi.length = 0)
    (sublist : (both avail).Sublist (both p.avail))
    (count : ∀ conn, (both avail ++ both invalid).count conn =
      (queues p).count conn - g.vi.count conn)
    (number : n = (g.vi.filter fun conn => decide (p.refs conn = 1)).length -
      ((both p.invalid).length - (both invalid).length)) :
    Inv (push
      { p with
        avail := avail
        invalid := invalid
        refs := fun conn => p.refs conn - g.vi.count conn
        deleted := p.deleted ++ g.vi.filter fun conn => decide (p.refs conn = 1)
        configs := eraseConfig conf p.configs
        underflow := p.underflow || decide (n < 0) }
      (.lowering (semToRelease n) 0)) := by
  obtain ⟨others, before, erased, -⟩ := config_perm found
  have isConfig : g ∈ p.configs := before.mem_iff.mpr List.mem_cons_self
  obtain ⟨positive, counted⟩ := inv.configs g isConfig
  have single : ∀ conn ∈ g.vi, g.adds = 1 := by
    intro conn member
    have nonempty := List.length_pos_of_mem member
    by_contra more
    have : 2 * g.vi.length ≤ g.adds * g.vi.length := Nat.mul_le_mul_right _ (by omega)
    omega
  have queued : ∀ conn, (queues p).count conn = (both avail ++ both invalid).count conn +
      (g.vi.filter fun conn => decide (p.refs conn = 1)).count conn := by
    intro conn
    rw [count conn]
    by_cases member : conn ∈ g.vi
    · have same := inv.count_last before (single conn member) conn member
      have once := (inv.pins_config before member).1
      have most := inv.count_queues conn
      omega
    · have notKept : conn ∉ g.vi.filter fun conn => decide (p.refs conn = 1) := fun kept =>
        member (List.mem_filter.mp kept).1
      rw [List.count_eq_zero_of_not_mem member, List.count_eq_zero_of_not_mem notKept]
      omega
  have released : n = (both p.avail).length - (both avail).length := by
    have lengths := (List.perm_iff_count.mpr fun conn => by
      rw [List.count_append]; exact queued conn : (queues p).Perm (_ ++ _)).length_eq
    simp only [queues, List.length_append] at lengths
    omega
  have nonneg : ¬ n < 0 := by
    have := sublist.length_le
    omega
  have pinned : ∀ conn, pins p conn = g.vi.count conn +
      ((eraseConfig conf p.configs).map fun g => g.adds * g.vi.count conn).sum +
        (p.ops.flatMap Op.vi).count conn := by
    intro conn
    rw [pins, pins_perm before, (erased.map _).sum_eq]
    by_cases member : conn ∈ g.vi
    · rw [single conn member, Nat.one_mul]
    · rw [List.count_eq_zero_of_not_mem member, Nat.mul_zero]
  exact
    { inv with
      accounted := by
        refine inv.accounted.move (List.Perm.map _ (List.perm_iff_count.mpr fun conn => ?_))
        have same := queued conn
        simp only [places, users, queues, push, List.flatMap_cons, Op.conns, List.nil_append,
          List.count_append] at same ⊢
        omega
      live := by
        intro conn
        have live := inv.live conn
        have refs := inv.refs conn
        have most := inv.count_queues conn
        have fewer := count conn
        simp only [queues, users, push, List.flatMap_cons, Op.conns, List.nil_append] at *
        rw [List.mem_append, ← List.count_pos_iff, ← List.count_pos_iff] at live ⊢
        by_cases member : conn ∈ g.vi
        · obtain ⟨once, isOne⟩ := inv.pins_config before member
          rw [single conn member] at isOne
          rw [isOne] at refs
          rw [fewer, once]
          omega
        · rw [List.count_eq_zero_of_not_mem member] at fewer ⊢
          rw [fewer]
          omega
      refs := by
        intro conn
        have refs := inv.refs conn
        rw [pinned conn] at refs
        simp only [pins, users, push, List.flatMap_cons, Op.conns, Op.vi, List.nil_append] at refs ⊢
        rw [refs]
        omega
      once := by
        have parts := ((owned_perm before).append_right (p.ops.flatMap Op.vi)).nodup_iff.mp inv.once
        rw [List.append_assoc] at parts
        have rest := (erased.flatMap_right Config.vi).append_right (p.ops.flatMap Op.vi)
        exact rest.nodup_iff.mpr (List.nodup_append.mp parts).2.1
      configs := fun g' member =>
        inv.configs g' (before.mem_iff.mpr (List.mem_cons_of_mem g (erased.mem_iff.mp member)))
      sem := by
        have sem := inv.sem
        simp only [push, List.map_cons, List.sum_cons, Op.balance, semToRelease, if_neg nonneg]
        omega
      ops := List.forall_mem_cons.mpr ⟨trivial, inv.ops⟩
      underflow := by
        simp only [push, inv.underflow, Bool.false_or, decide_eq_false_iff_not]
        exact nonneg }

theorem delServer_inv {conf : Text} (inv : Inv p) : Inv (delServer p conf) := by
  unfold delServer
  split
  · exact inv
  · rename_i g found
    obtain ⟨others, before, -, -⟩ := config_perm found
    rw [releaseLoop_eq (inv.config_nodup before)]
    simp only [zero_add]
    split
    · rename_i more
      exact keepConfig_inv inv found more
    · rename_i notMore
      have removed := delLoop_removed g.vi
        { p with
          refs := fun conn => p.refs conn - g.vi.count conn
          deleted := p.deleted ++ g.vi.filter fun conn => decide (p.refs conn = 1) }
        (g.vi.filter fun conn => decide (p.refs conn = 1)).length
      have erased := eraseConfig_inv inv found (Nat.eq_zero_of_not_pos notMore) removed.avail
        removed.count removed.number
      rw [removed.rest]
      exact erased

end Del

end Calls

/-! ## Runs -/

section Runs

variable {p p' : Pool}

theorem advance_inv {op : Op} {choice : Choice} (inv : Inv (push p op))
    (allowed : AllowedOp p.configs p.refs choice op) (taken : advance p op choice = some p') :
    Inv p' := by
  unfold advance at taken
  split at taken
  · obtain rfl := Option.some.inj taken
    exact register_inv inv allowed
  · obtain rfl := Option.some.inj taken
    exact connected_inv inv
  · obtain rfl := Option.some.inj taken
    exact notConnected_inv inv
  · obtain rfl := Option.some.inj taken
    exact inv.finish rfl (allowed rfl) (by simp [Op.balance])
  · obtain rfl := Option.some.inj taken
    exact inv.goOn rfl rfl (by simp [Op.balance]) trivial
  · split at taken
    · rename_i positive
      obtain rfl := Option.some.inj taken
      exact inv.goOn rfl rfl (by simp only [Op.balance]; omega) trivial
    · exact absurd taken (by simp)
  · split at taken
    · obtain rfl := Option.some.inj taken
      exact inv.finish rfl rfl (by simp [Op.balance])
    · exact absurd taken (by simp)
  · obtain rfl := Option.some.inj taken
    exact getSection_inv inv
  · obtain rfl := Option.some.inj taken
    exact inv.finish rfl rfl (by simp [Op.balance])
  · obtain rfl := Option.some.inj taken
    exact inv.finish rfl rfl (by simp [Op.balance])
  · split at taken
    · rename_i positive
      obtain rfl := Option.some.inj taken
      exact inv.goOn rfl rfl (by simp only [Op.balance]; omega) trivial
    · exact absurd taken (by simp)
  · exact absurd rfl allowed
  · exact absurd (inv.ops _ List.mem_cons_self) id
  · exact absurd (inv.ops _ List.mem_cons_self) id
  · obtain rfl := Option.some.inj taken
    exact nowAvailable_inv inv (allowed rfl)
  · obtain rfl := Option.some.inj taken
    exact stillInvalid_inv inv
  · obtain rfl := Option.some.inj taken
    exact inv.finish rfl rfl (by simp [Op.balance])
  · exact absurd taken (by simp)

theorem step_inv {label : Label} (inv : Inv p) (allowed : Allowed p label)
    (taken : step p label = some p') : Inv p' := by
  cases label with
  | addServer conf conns isDefault =>
      obtain rfl := Option.some.inj taken
      exact addServer_inv inv
  | delServer conf =>
      obtain rfl := Option.some.inj taken
      exact delServer_inv inv
  | getConn =>
      obtain rfl := Option.some.inj taken
      exact inv.start rfl rfl rfl trivial
  | freeConn i isWorking =>
      obtain ⟨conn, atIndex, rfl⟩ := Option.map_eq_some_iff.mp taken
      obtain rfl : isWorking = true := allowed
      exact freeConn_inv (takeHeld_inv inv atIndex)
  | retry isDefault => exact retry_inv inv taken
  | advance i choice =>
      obtain ⟨op, atIndex, later⟩ := Option.bind_eq_some_iff.mp taken
      have opened : Inv (push { p with ops := p.ops.eraseIdx i } op) :=
        inv.perm (perm_cons_eraseIdx atIndex).symm
      exact advance_inv opened (allowed op atIndex) later

theorem Inv.correct (inv : Inv p) : Correct p where
  accounted := inv.accounted
  queues conn member := (inv.live conn).mpr (List.mem_append_left _ member)
  deleted := by
    intro conn member
    have nodup : (places p).Nodup := List.Nodup.of_map _ inv.accounted.nodup
    have refs := inv.refs conn
    constructor
    · intro gone
      have apart := (List.nodup_append.mp nodup).2.2
      have notLive : conn ∉ queues p ++ users p := fun live => apart conn live conn gone rfl
      have none' := mt (inv.live conn).mp notLive
      refine ⟨fun isOwned => ?_, fun used => notLive (List.mem_append_right _ used)⟩
      have := inv.pins_pos isOwned
      omega
    · rintro ⟨notOwned, notUsed⟩
      rw [owned, List.mem_append, not_or] at notOwned
      rw [pins, pins_absent notOwned.1, List.count_eq_zero_of_not_mem notOwned.2,
        List.count_eq_zero_of_not_mem notUsed] at refs
      have notLive := mt (inv.live conn).mpr (by omega)
      rcases List.mem_append.mp member with live | gone
      · exact absurd live notLive
      · exact gone
  sem idle := by
    have sem := inv.sem
    rw [idle, List.map_nil, List.sum_nil, add_zero] at sem
    exact Int.ofNat.inj sem
  underflow := inv.underflow

/-- The pool is right in every state of a run whose steps are allowed. -/
theorem mysqlPool_of_allowed {labels : List Label}
    (allowed : Meets step Allowed Pool.initial labels)
    (ran : exec step Pool.initial labels = some p) : Correct p := by
  have start : Inv Pool.initial :=
    ⟨accounted_nil, fun conn => by simp [Pool.initial, queues, users, both],
      fun conn => by simp [Pool.initial, pins, users], List.nodup_nil, nofun, rfl, nofun, rfl⟩
  exact (exec_invariant (fun p label p' inv allowed taken => step_inv inv allowed taken)
    start allowed ran).correct

/-- Two connections, of which one is in use and one was invalid when their configuration is
removed. -/
def removedRun : List Label :=
  [.addServer ['c'] 2 true, .advance 0 .connects, .advance 0 .proceeds, .advance 0 .connectFails,
    .advance 0 .proceeds, .getConn, .advance 0 .proceeds, .advance 0 .proceeds, .retry true,
    .advance 0 .connects, .advance 0 .proceeds, .delServer ['c'], .advance 0 .proceeds,
    .advance 0 .proceeds, .freeConn 0 true]

theorem mysqlPool_of_allowed_removed :
    ∃ p, exec step Pool.initial removedRun = some p ∧
      p.deleted = [⟨1, true⟩, ⟨0, true⟩] ∧ p.sem = 0 ∧ p.ops = [] ∧ Correct p := by
  have allowed : Meets step Allowed Pool.initial removedRun := by decide
  exact ⟨_, rfl, rfl, rfl, rfl, mysqlPool_of_allowed allowed rfl⟩

/-- A connection that is freed while it does not work keeps its reference: `nSemToRelease` goes below
zero when its configuration is removed, and it is never deleted. A connection of `m_default` whose
configuration is removed while the retry worker connects it stays in the queue when it is deleted. -/
theorem broken_conn_not_released :
    (∃ p, exec step Pool.initial
        [.addServer ['c'] 1 true, .advance 0 .connects, .advance 0 .proceeds,
          .advance 0 .proceeds, .getConn, .advance 0 .proceeds, .advance 0 .proceeds,
          .freeConn 0 false, .delServer ['c']] = some p ∧
      p.underflow = true ∧ ¬ Correct p) ∧
    ∃ p, exec step Pool.initial
        [.addServer ['c'] 1 true, .advance 0 .connectFails, .advance 0 .proceeds, .retry true,
          .delServer ['c'], .advance 1 .connects] = some p ∧
      p.avail true = [⟨0, true⟩] ∧ p.deleted = [⟨0, true⟩] ∧ p.refs ⟨0, true⟩ = 0 ∧
      ¬ Correct p := by
  refine ⟨⟨_, rfl, rfl, fun correct => ?_⟩, ⟨_, rfl, rfl, rfl, rfl, fun correct => ?_⟩⟩
  · exact absurd correct.underflow (by decide)
  · exact absurd (correct.queues ⟨0, true⟩ (by decide)) (by decide)

end Runs

end MlsImgSearch.Db.MysqlConnPool
