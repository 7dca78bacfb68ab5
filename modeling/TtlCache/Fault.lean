import TtlCache.Text.Quoted
import TtlCache.Time.Text
import TtlCache.Value

/-!
# Faults

A `Panic` is a misuse that ends the operation in which it is noticed.  A `ShortTtl` is a refusal
that the caller is expected to handle.
-/

namespace TtlCache

inductive Panic where
  | zeroCapacity
  /-- A list was to be larger than any block of storage. -/
  | listTooLarge
  | tableTooLarge
  | evictorAlreadySet
  | zeroInterval
  | wrongKind (key : Key) (expected : Kind)
  | notLocked
  | noWaiters
  /-- Code supplied by the caller panicked with a text of its own. -/
  | raised (text : String)
  deriving DecidableEq, Repr

def Panic.message : Panic -> String
  | .zeroCapacity => "capacity must be greater than zero"
  | .listTooLarge => "capacity overflow"
  | .tableTooLarge => "Hash table capacity overflow"
  | .evictorAlreadySet => "evictor by usage already set"
  | .zeroInterval => "janitor interval must be greater than zero"
  | .wrongKind key expected =>
      "cached value for key " ++ Text.quoted key ++ " is not of type " ++ expected.name
  | .notLocked => "keylock: unlock of unlocked key"
  | .noWaiters => "attempt to subtract with overflow"
  | .raised text => text

/-- The refusal of a time to live that is shorter than the least one. -/
structure ShortTtl where
  ttl : Duration
  least : Duration
  deriving DecidableEq, Repr

namespace ShortTtl

def message (refusal : ShortTtl) : String :=
  "cache duration must be at least " ++ refusal.least.text ++ ", got " ++ refusal.ttl.text

def text (refusal : ShortTtl) : String :=
  "TtlTooShort \x7b ttl: " ++ refusal.ttl.text ++ ", min: " ++ refusal.least.text ++ " \x7d"

end ShortTtl

end TtlCache
