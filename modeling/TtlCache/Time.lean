/-!
# Instants and durations

Time is counted in whole nanoseconds after a fixed origin.  Instants end at `Instant.last`, so a
deadline that lies too far ahead has to be brought closer: `Instant.deadlineAfter` halves the
duration until the sum is an instant again.
-/

namespace TtlCache

structure Duration where
  nanos : Nat
  deriving DecidableEq, Repr

/-- A point in time, in whole nanoseconds after the origin. -/
structure Instant where
  nanos : Nat
  deriving DecidableEq, Repr

def nanosPerSecond : Nat := 1000000000

namespace Duration

def ofSeconds (seconds : Nat) : Duration := ⟨seconds * nanosPerSecond⟩

def ofMillis (millis : Nat) : Duration := ⟨millis * 1000000⟩

def wholeMillis (d : Duration) : Nat := d.nanos / 1000000

/-- The longest duration: all seconds of a 64-bit word and one nanosecond less than a second. -/
def longest : Duration := ⟨18446744073709551615 * nanosPerSecond + 999999999⟩

/-- Half of a duration, rounded down to a nanosecond. -/
def half (d : Duration) : Duration := ⟨d.nanos / 2⟩

end Duration

namespace Instant

/-- The latest instant: all seconds of a signed 64-bit word and a second less one nanosecond. -/
def last : Instant := ⟨9223372036854775807 * nanosPerSecond + 999999999⟩

/-- The instant `d` after `now`, unless that lies past the end of time. -/
def add? (now : Instant) (d : Duration) : Option Instant :=
  if now.nanos + d.nanos <= last.nanos then some ⟨now.nanos + d.nanos⟩ else none

/-- The time from `earlier` to `later`, or none of it if `later` comes first. -/
def since (later earlier : Instant) : Duration := ⟨later.nanos - earlier.nanos⟩

/--
The deadline of something that lives for `ttl` from `now` on.

While the sum lies past the end of time the duration is halved, rounding down.  A duration of zero
is not halved further, so the recursion ends for every pair of arguments.
-/
def deadlineAfter (now : Instant) (ttl : Duration) : Instant :=
  match now.add? ttl with
  | some deadline => deadline
  | none => if ttl.nanos = 0 then now else now.deadlineAfter ttl.half
termination_by ttl.nanos
decreasing_by
  simp only [Duration.half]
  omega

end Instant

end TtlCache
