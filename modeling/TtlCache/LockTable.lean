import TtlCache.Fault
import TtlCache.Table

/-!
# Locks by key

A lock table has one mutex for every key that somebody holds or waits for.  The record of a key
comes into being with its first taker and goes with the last one that unregisters.

Taking a lock has two steps: a guard registers with the record of its key, and later acquires the
mutex that it found there.  Giving it back has two steps as well: the guard unregisters, and later
releases its mutex.  Between the last two steps the key may already have a new record with a new
mutex, so what a guard holds is a mutex, not a key.
-/

namespace TtlCache

/-- What the table keeps for a key: its mutex, and how many guards are registered. -/
structure LockRecord where
  mutex : Nat
  waiters : Nat
  deriving DecidableEq, Repr

inductive GuardStage where
  | waiting
  | holding
  /-- No longer registered, but still in possession of the mutex. -/
  | leaving
  deriving DecidableEq, Repr

structure Guard (κ : Type) where
  key : κ
  mutex : Nat
  stage : GuardStage
  deriving DecidableEq, Repr

/-- Records by key, and guards by ticket in the order in which they registered. -/
structure LockTable (κ : Type) where
  records : Table κ LockRecord
  guards : Table Nat (Guard κ)
  nextMutex : Nat
  nextTicket : Nat

namespace LockTable

variable {κ : Type}

def empty : LockTable κ where
  records := .empty
  guards := .empty
  nextMutex := 0
  nextTicket := 0

/-- The number of keys that are held or waited for. -/
def size (t : LockTable κ) : Nat := t.records.size

def isLocked (t : LockTable κ) (mutex : Nat) : Bool :=
  t.guards.rows.any fun row => decide (row.2.mutex = mutex) && decide (row.2.stage ≠ .waiting)

/-- The guard that has waited longest for a mutex. -/
def longestWaiter (t : LockTable κ) (mutex : Nat) : Option Nat :=
  (t.guards.rows.find? fun row =>
    decide (row.2.mutex = mutex) && decide (row.2.stage = .waiting)).map Prod.fst

def enroll (t : LockTable κ) (guard : Guard κ) : Nat × LockTable κ :=
  (t.nextTicket,
    { t with guards := t.guards.insert t.nextTicket guard, nextTicket := t.nextTicket + 1 })

def advance (t : LockTable κ) (ticket : Nat) (stage : GuardStage) : LockTable κ :=
  { t with guards := t.guards.modify ticket fun guard => { guard with stage := stage } }

variable [DecidableEq κ]

/-- The record of a key; a key without one gets a record with a new mutex and no waiters. -/
def recordFor (t : LockTable κ) (key : κ) : LockRecord × LockTable κ :=
  match t.records.get? key with
  | some record => (record, t)
  | none =>
    let record : LockRecord := { mutex := t.nextMutex, waiters := 0 }
    (record, { t with records := t.records.insert key record, nextMutex := t.nextMutex + 1 })

def enlist (t : LockTable κ) (key : κ) : LockTable κ :=
  { t with
    records := t.records.modify key fun record => { record with waiters := record.waiters + 1 } }

/-! ## The steps of a guard -/

/-- Registers a guard for a key and tells its ticket. -/
def register (t : LockTable κ) (key : κ) : Nat × LockTable κ :=
  let (record, opened) := t.recordFor key
  (opened.enlist key).enroll { key := key, mutex := record.mutex, stage := .waiting }

/-- Acquires the mutex of a waiting guard, unless the mutex is locked. -/
def acquire? (t : LockTable κ) (ticket : Nat) : Option (LockTable κ) :=
  match t.guards.get? ticket with
  | none => none
  | some guard =>
    if guard.stage = .waiting && !t.isLocked guard.mutex then
      some (t.advance ticket .holding)
    else
      none

/-- Takes a key in one step if its mutex is free; a failed attempt adds no guard. -/
def tryLock (t : LockTable κ) (key : κ) : Option Nat × LockTable κ :=
  let (record, opened) := t.recordFor key
  if opened.isLocked record.mutex then
    (none, opened)
  else
    let (ticket, locked) :=
      (opened.enlist key).enroll { key := key, mutex := record.mutex, stage := .holding }
    (some ticket, locked)

/--
Takes a guard off the record of its key; the last one takes the record with it.

The guard is off the record in any case.  A missing record, or one without waiters, is a panic.
-/
def unregister (t : LockTable κ) (ticket : Nat) : Option Panic × LockTable κ :=
  match t.guards.get? ticket with
  | none => (none, t)
  | some guard =>
    let leaving := t.advance ticket .leaving
    match t.records.get? guard.key with
    | none => (some .notLocked, leaving)
    | some record =>
      match record.waiters with
      | 0 => (some .noWaiters, leaving)
      | 1 => (none, { leaving with records := leaving.records.erase guard.key })
      | waiters + 2 =>
          (none,
            { leaving with
              records := leaving.records.insert guard.key { record with waiters := waiters + 1 } })

def release (t : LockTable κ) (ticket : Nat) : LockTable κ :=
  { t with guards := t.guards.erase ticket }

/-! ## Whole operations in order of arrival -/

def lock (t : LockTable κ) (key : κ) : Nat × LockTable κ :=
  let (ticket, registered) := t.register key
  (ticket, (registered.acquire? ticket).getD registered)

/-- Hands a free mutex to the guard that has waited longest for it. -/
def handOver (t : LockTable κ) (mutex : Nat) : LockTable κ :=
  match t.longestWaiter mutex with
  | none => t
  | some ticket => (t.acquire? ticket).getD t

/-- Gives a lock back and hands its mutex to the guard that has waited longest for it. -/
def unlock (t : LockTable κ) (ticket : Nat) : Option Panic × LockTable κ :=
  match t.guards.get? ticket with
  | none => (none, t)
  | some guard =>
    let (panic, unregistered) := t.unregister ticket
    (panic, (unregistered.release ticket).handOver guard.mutex)

def stage? (t : LockTable κ) (ticket : Nat) : Option GuardStage :=
  (t.guards.get? ticket).map Guard.stage

def text (t : LockTable κ) : String :=
  "KeyLock \x7b records: " ++ toString t.size ++ " \x7d"

end LockTable

def Guard.text (guard : Guard Key) : String :=
  "KeyGuard \x7b key: " ++ Text.quoted guard.key ++ " \x7d"

end TtlCache
