import TtlCache.Time

/-!
# Tallies

A cache counts what became of lookups and entries.  Asking for the counts takes them: every count
starts again from zero.
-/

namespace TtlCache

inductive Counter where
  | hit
  | miss
  | expiration
  | eviction
  deriving DecidableEq, Repr

structure Tally where
  hits : Nat
  misses : Nat
  expirations : Nat
  evictions : Nat
  deriving DecidableEq, Repr

namespace Tally

def zero : Tally := ⟨0, 0, 0, 0⟩

def get (t : Tally) : Counter -> Nat
  | .hit => t.hits
  | .miss => t.misses
  | .expiration => t.expirations
  | .eviction => t.evictions

def set (t : Tally) (counter : Counter) (count : Nat) : Tally :=
  match counter with
  | .hit => { t with hits := count }
  | .miss => { t with misses := count }
  | .expiration => { t with expirations := count }
  | .eviction => { t with evictions := count }

def count (t : Tally) (counter : Counter) : Tally := t.set counter (t.get counter + 1)

theorem get_set (t : Tally) (a b : Counter) (count : Nat) :
    (t.set a count).get b = if b = a then count else t.get b := by
  cases a <;> cases b <;> rfl

theorem get_count (t : Tally) (a b : Counter) :
    (t.count a).get b = t.get b + if b = a then 1 else 0 := by
  rw [count, get_set]
  by_cases h : b = a
  · simp [h]
  · simp [h]

end Tally

/-- The order in which the counts are taken. -/
def Counter.all : List Counter := [.hit, .miss, .expiration, .eviction]

/-- The counts since they were last taken, and the time since then. -/
structure Statistics where
  elapsed : Duration
  counts : Tally
  deriving DecidableEq, Repr

def Statistics.millis (s : Statistics) : Nat := s.elapsed.wholeMillis

end TtlCache
