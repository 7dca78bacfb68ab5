import TtlCache.Ranking.Frequency
import TtlCache.Ranking.Recency

/-!
# Rankings

A ranking orders the keys that were reported to it by how little they are worth keeping.  Two
policies are built in; a walk holds on to the ranking through which it goes.
-/

namespace TtlCache

inductive Policy where
  | recency
  | frequency
  deriving DecidableEq, Repr

inductive Ranking where
  | recency (keys : Recency)
  | frequency (keys : Frequency)

namespace Ranking

def ofPolicy (policy : Policy) (capacity : Nat) : Except Panic Ranking :=
  match policy with
  | .recency => (Recency.ofCapacity capacity).map .recency
  | .frequency => (Frequency.ofCapacity capacity).map .frequency

def policy : Ranking -> Policy
  | .recency _ => .recency
  | .frequency _ => .frequency

/-- The number of keys that a ranking means to keep. -/
def capacity : Ranking -> Nat
  | .recency keys => keys.capacity
  | .frequency keys => keys.capacity

def used (ranking : Ranking) (key : Key) : Ranking :=
  match ranking with
  | .recency keys => .recency (keys.used key)
  | .frequency keys => .frequency (keys.used key)

def remove (ranking : Ranking) (key : Key) : Ranking :=
  match ranking with
  | .recency keys => .recency (keys.remove key)
  | .frequency keys => .frequency (keys.remove key)

def size : Ranking -> Nat
  | .recency keys => keys.size
  | .frequency keys => keys.size

def isEmpty (ranking : Ranking) : Bool := ranking.size == 0

def excess : Ranking -> Nat
  | .recency keys => keys.excess
  | .frequency keys => keys.excess

/-- The ranked keys, the one least worth keeping first. -/
def worst : Ranking -> List Key
  | .recency keys => keys.worst
  | .frequency keys => keys.worst

/-- A ranking and where a walk through it stands. -/
inductive Walker where
  | recency (keys : Recency) (cursor : Option Nat)
  | frequency (keys : Frequency) (cursor : Frequency.Cursor)

def walker : Ranking -> Walker
  | .recency keys => .recency keys keys.start
  | .frequency keys => .frequency keys keys.start

def Walker.next : Walker -> Option Key × Walker
  | .recency keys cursor =>
      let (key, cursor) := keys.next cursor
      (key, .recency keys cursor)
  | .frequency keys cursor =>
      let (key, cursor) := keys.next cursor
      (key, .frequency keys cursor)

def take (ranking : Ranking) (count : Nat) : List Key :=
  (walk Walker.next count ranking.walker).1

/-- The length of a whole walk, and the answers to two more steps behind its end. -/
def pastEnd (ranking : Ranking) : Nat × Option Key × Option Key :=
  let (keys, stop) := walk Walker.next (ranking.size + 1) ranking.walker
  let (first, stop) := stop.next
  (keys.length, first, stop.next.1)

end Ranking

end TtlCache
