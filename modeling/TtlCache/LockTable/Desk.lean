import TtlCache.LockTable

/-!
# A lock desk

Named takers ask a desk for keys.  A taker that has to wait is served when the taker before it
gives the key back, in the order of arrival.
-/

namespace TtlCache

/-- A lock table, and the ticket of every taker that has not given its key back. -/
structure LockDesk where
  locks : LockTable Key
  tickets : Table String Nat

namespace LockDesk

def empty : LockDesk where
  locks := .empty
  tickets := .empty

def takersIn (desk : LockDesk) (stage : GuardStage) : List String :=
  let takers := desk.tickets.rows.filter fun row => decide (desk.locks.stage? row.2 = some stage)
  (takers.map Prod.fst).mergeSort fun a b => decide (a ≤ b)

def lock (desk : LockDesk) (taker : String) (key : Key) : Bool × LockDesk :=
  let (ticket, locks) := desk.locks.lock key
  (decide (locks.stage? ticket = some .holding),
    { desk with locks := locks, tickets := desk.tickets.insert taker ticket })

def tryLock (desk : LockDesk) (taker : String) (key : Key) : Option (Guard Key) × LockDesk :=
  match desk.locks.tryLock key with
  | (none, locks) => (none, { desk with locks := locks })
  | (some ticket, locks) =>
      (locks.guards.get? ticket,
        { desk with locks := locks, tickets := desk.tickets.insert taker ticket })

def giveBack (desk : LockDesk) (taker : String) : Bool × LockDesk :=
  match desk.tickets.get? taker with
  | none => (false, desk)
  | some ticket =>
    if desk.locks.stage? ticket = some .holding then
      (true,
        { desk with
          locks := (desk.locks.unlock ticket).2
          tickets := desk.tickets.erase taker })
    else
      (false, desk)

def closing (desk : LockDesk) : Nat -> LockDesk
  | 0 => desk
  | rounds + 1 =>
      ((desk.takersIn .holding).foldl (fun desk taker => (desk.giveBack taker).2) desk).closing
        rounds

/-- Lets all takers give their keys back.  Every round serves at least one taker for good. -/
def close (desk : LockDesk) : LockDesk := desk.closing desk.tickets.size

end LockDesk

end TtlCache
