import TtlCache.Time

/-!
# Written times

A duration is written as an exact decimal fraction in the largest unit that leaves a whole part,
down to nanoseconds.  An instant is written as its seconds and the nanoseconds left over.
-/

namespace TtlCache

/--
The digits after the point of `part / 10 ^ places`, without trailing zeros.

They are the decimal digits of `part`, filled up with zeros on the left to `places` digits.
-/
def fractionDigits (part places : Nat) : String :=
  let digits := Nat.toDigits 10 part
  let padded := List.replicate (places - digits.length) '0' ++ digits
  String.ofList (padded.reverse.dropWhile fun c => c == '0').reverse

/-- The number `whole + part / 10 ^ places` as decimal text; without a point if `part` is zero. -/
def decimalText (whole part places : Nat) : String :=
  if part = 0 then
    toString whole
  else
    toString whole ++ "." ++ fractionDigits part places

namespace Duration

/-- A duration in seconds, milli-, micro- or nanoseconds, whichever first leaves a whole part. -/
def text (d : Duration) : String :=
  if nanosPerSecond <= d.nanos then
    decimalText (d.nanos / nanosPerSecond) (d.nanos % nanosPerSecond) 9 ++ "s"
  else if 1000000 <= d.nanos then
    decimalText (d.nanos / 1000000) (d.nanos % 1000000) 6 ++ "ms"
  else if 1000 <= d.nanos then
    decimalText (d.nanos / 1000) (d.nanos % 1000) 3 ++ "µs"
  else
    toString d.nanos ++ "ns"

end Duration

namespace Instant

def text (t : Instant) : String :=
  "Instant \x7b tv_sec: " ++ toString (t.nanos / nanosPerSecond) ++ ", tv_nsec: " ++
    toString (t.nanos % nanosPerSecond) ++ " \x7d"

end Instant

end TtlCache
