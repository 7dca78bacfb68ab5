import TtlCache.Fault

/-!
# Cache entries

An entry is a value and the instant from which on it no longer counts.  It is expired at its
deadline, not only after it.
-/

namespace TtlCache

structure Entry where
  value : Value
  deadline : Instant
  deriving DecidableEq, Repr

namespace Entry

def isExpired (entry : Entry) (now : Instant) : Bool :=
  entry.deadline.nanos <= now.nanos

def remaining (entry : Entry) (now : Instant) : Duration :=
  entry.deadline.since now

def extend (entry : Entry) (deadline : Instant) : Entry :=
  { entry with deadline := deadline }

/-- The value, read as `expected` under the name `key`. -/
def read (entry : Entry) (key : Key) (expected : Kind) : Except Panic Value :=
  if entry.value.kind = expected then
    .ok entry.value
  else
    .error (.wrongKind key expected)

/-- The entry as a record that keeps its value to itself. -/
def text (entry : Entry) : String :=
  "CacheEntry \x7b expired_at: " ++ entry.deadline.text ++ ", .. \x7d"

end Entry

end TtlCache
