import TtlCache.Ranking

/-!
# Evictors

An evictor is the ranking that a cache consults when it holds too much.  It is either built in, or
made by the caller, who may have used it before and may answer for its excess in another way.
-/

namespace TtlCache

/-- How an evictor made by the caller answers for its excess. -/
inductive ExcessRule where
  | ranked
  | fixed (count : Nat)
  | raises (text : String)
  deriving DecidableEq, Repr

/-- The ranking of a cache; `custom` is the excess rule of a ranking made by the caller. -/
structure Evictor where
  ranking : Ranking
  custom : Option ExcessRule

namespace Evictor

def builtIn (policy : Policy) (capacity : Nat) : Except Panic Evictor := do
  let ranking <- Ranking.ofPolicy policy capacity
  return { ranking := ranking, custom := none }

/-- An evictor made by the caller, which has seen the uses of `preload` before it is handed over. -/
def made (policy : Policy) (capacity : Nat) (preload : List Key) (rule : ExcessRule) :
    Except Panic Evictor := do
  let ranking <- Ranking.ofPolicy policy capacity
  return { ranking := preload.foldl Ranking.used ranking, custom := some rule }

def isCustom (evictor : Evictor) : Bool := evictor.custom.isSome

def used (evictor : Evictor) (key : Key) : Evictor :=
  { evictor with ranking := evictor.ranking.used key }

def remove (evictor : Evictor) (key : Key) : Evictor :=
  { evictor with ranking := evictor.ranking.remove key }

/-- The ranked keys, the one least worth keeping first. -/
def worst (evictor : Evictor) : List Key := evictor.ranking.worst

def excess (evictor : Evictor) : Except Panic Nat :=
  match evictor.custom with
  | none | some .ranked => .ok evictor.ranking.excess
  | some (.fixed count) => .ok count
  | some (.raises text) => .error (.raised text)

end Evictor

end TtlCache
