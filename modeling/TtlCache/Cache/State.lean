import TtlCache.Config
import TtlCache.LockTable
import TtlCache.Store
import TtlCache.Sweeper
import TtlCache.Tally

/-!
# Shared state of a cache

Everything that the threads of a cache share, and the effects that they have on it.  Every effect
looks at one part of the state once.  A thread decides under the lock of a key which effects it
will have and then carries them out one by one, so that other threads may come in between.
-/

namespace TtlCache

/-- The threads of a cache: its clients, and one thread per generation of the sweeper. -/
inductive Worker where
  | client (number : Nat)
  | sweeper (generation : Nat)
  deriving DecidableEq, Repr

/--
The state shared by all threads.

`passLock` is the thread that may run a pass, `passQueue` are the threads that wait for that in the
order in which they came, `takenAt` is the time at which the counts were last taken, and `handles`
the number of references that keep the cache alive.
-/
structure Cache (layout : Layout) where
  clock : Instant
  store : Store layout
  locks : LockTable Key
  evictor : Option Evictor
  sweeper : Sweeper
  passLock : Option Worker
  passQueue : List Worker
  tally : Tally
  takenAt : Instant
  handles : Nat

inductive Wish where
  | mutex (ticket : Nat)
  | pass
  deriving DecidableEq, Repr

inductive Outcome where
  | value (value : Value)
  | failure (text : String)
  | panic (text : String)
  deriving DecidableEq, Repr

inductive Answer where
  /-- A live value and the time left to it, or nothing. -/
  | found (found : Option (Value × Duration))
  | value (value : Value)
  | refused (refusal : ShortTtl)
  | failed (text : String)
  | flag (flag : Bool)
  | statistics (statistics : Statistics)
  | panicked (panic : Panic)
  deriving DecidableEq, Repr

/-- How an operation goes on after a step: from another point, or not at all. -/
inductive Progress (φ : Type) where
  | more (point : φ)
  | done (answer : Answer)

def Progress.map {φ ψ : Type} (wrap : φ -> ψ) : Progress φ -> Progress ψ
  | .more point => .more (wrap point)
  | .done answer => .done answer

namespace Cache

variable {layout : Layout}

def ofConfig (layout : Layout) (config : Config) (clock : Instant) : Cache layout where
  clock := clock
  store := .empty
  locks := .empty
  evictor := config.evictor
  sweeper := .idle config.interval
  passLock := none
  passQueue := []
  tally := .zero
  takenAt := clock
  handles := 1

def contains (c : Cache layout) (key : Key) : Bool := (c.store.get? key).isSome

def notifyUsed (c : Cache layout) (key : Key) : Cache layout :=
  { c with evictor := c.evictor.map fun evictor => evictor.used key }

def notifyRemoved (c : Cache layout) (key : Key) : Cache layout :=
  { c with evictor := c.evictor.map fun evictor => evictor.remove key }

def count (c : Cache layout) (counter : Counter) : Cache layout :=
  { c with tally := c.tally.count counter }

def attach (c : Cache layout) : Cache layout := { c with handles := c.handles + 1 }

/-- Drops a reference; the last one shuts the sweeper down. -/
def detach (c : Cache layout) : Option (Cache layout) :=
  match c.handles with
  | 0 => none
  | 1 => c.sweeper.close.map fun sweeper => { c with handles := 0, sweeper := sweeper }
  | handles + 2 => some { c with handles := handles + 1 }

/-- A cache as a record; none if a built-in evictor would list its keys, as it does in any order. -/
def text? (c : Cache layout) : Option String :=
  if c.evictor.all Evictor.isCustom then
    some ("Cache \x7b len: " ++ toString c.store.size ++ ", evictor: " ++
      Config.evictorText c.evictor ++ ", janitor: " ++ c.sweeper.text ++ ", .. \x7d")
  else
    none

end Cache

inductive Effect where
  | erase (key : Key)
  /-- Stores a value: in the entry of its key if there is one, in a new entry otherwise. -/
  | put (key : Key) (value : Value) (deadline : Instant)
  | use (key : Key)
  | untrack (key : Key)
  | count (counter : Counter)
  /-- Starts the sweeper unless it runs. -/
  | wake
  deriving DecidableEq, Repr

namespace Effect

variable {layout : Layout}

/-- Carries out an effect; only the start of the sweeper may have to wait. -/
def apply (effect : Effect) (c : Cache layout) : Option (Cache layout) :=
  match effect with
  | .erase key => some { c with store := c.store.erase key }
  | .put key value deadline =>
      some { c with store := c.store.insert key { value := value, deadline := deadline } }
  | .use key => some (c.notifyUsed key)
  | .untrack key => some (c.notifyRemoved key)
  | .count counter => some (c.count counter)
  | .wake => c.sweeper.start.map fun sweeper => { c with sweeper := sweeper }

end Effect

end TtlCache
