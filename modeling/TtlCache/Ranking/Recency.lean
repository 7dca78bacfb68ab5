import TtlCache.Chain
import TtlCache.Ranking.Room
import TtlCache.Ranking.Walk
import TtlCache.Table

/-!
# Ranking by recency

Keys stand in a chain in the order of their last use, the least recently used one in front, and a
table gives the slot of every key.
-/

namespace TtlCache

structure Recency where
  capacity : Nat
  order : Chain Key
  positions : Table Key Nat

namespace Recency

/--
A ranking without keys that means to keep `capacity` of them.

A node of the chain takes 56 bytes, a key and its slot take 32.
-/
def ofCapacity (capacity : Nat) : Except Panic Recency :=
  if capacity = 0 then
    .error .zeroCapacity
  else do
    Room.reserveList 56 capacity
    Room.reserveTable 32 capacity
    return { capacity := capacity, order := .empty, positions := .empty }

/-- Records a use: the key becomes the last one. -/
def used (r : Recency) (key : Key) : Recency :=
  match r.positions.get? key with
  | some slot => { r with order := (r.order.moveToBack slot).2 }
  | none =>
    let (slot, order) := r.order.push key
    { r with order := order, positions := r.positions.insert key slot }

def remove (r : Recency) (key : Key) : Recency :=
  match r.positions.get? key with
  | some slot =>
      { r with order := (r.order.remove slot).2, positions := r.positions.erase key }
  | none => r

def size (r : Recency) : Nat := r.order.length

def excess (r : Recency) : Nat := r.size - r.capacity

def start (r : Recency) : Option Nat := r.order.front

def next (r : Recency) : Option Nat -> Option Key × Option Nat
  | none => (none, none)
  | some slot => (r.order.get? slot, r.order.next? slot)

/-- The ranked keys, the least recently used one first. -/
def worst (r : Recency) : List Key := (walk r.next r.order.slots.size r.start).1

end Recency

end TtlCache
