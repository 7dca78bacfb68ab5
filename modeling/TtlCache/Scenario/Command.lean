import TtlCache.Cache.Machine

/-!
# Commands and results

A scenario is a list of commands for a main thread, which may start further threads.  A creating
command says what its provider does: commands of its own, and then an outcome.  Every command has
a result, and the main thread also reports what can be seen of the cache after it.
-/

namespace TtlCache

/-- A command of a scenario.  All handles of a cache do the same, so only `drop` names one. -/
inductive Command where
  | get (key : Key) (kind : Kind)
  | create (key : Key) (kind : Kind) (ttl : Duration) (during : List Command) (outcome : Outcome)
  | extend (key : Key) (deadline : Instant)
  | forget (key : Key)
  | purge
  | statistics
  | isRunning
  | isEmpty
  | len
  | describe
  | advance (elapsed : Duration)
  | clone (name : String)
  | drop (name : String)
  | spawn (name : String) (command : Command)
  /-- Lets a thread go on that waits, or will wait, in a provider. -/
  | release (name : String)
  | wait

namespace Command

def call? : Command -> Option Call
  | .get key kind => some (.access key (.get kind))
  | .create key kind ttl _ _ => some (.access key (.create kind ttl))
  | .extend key deadline => some (.access key (.extend deadline))
  | .forget key => some (.access key .forget)
  | .purge => some .purge
  | .statistics => some .statistics
  | _ => none

def during : Command -> List Command
  | .create _ _ _ during _ => during
  | _ => []

def outcome : Command -> Outcome
  | .create _ _ _ _ outcome => outcome
  | _ => .failure ""

mutual

def size : Command -> Nat
  | .create _ _ _ during _ => sizeAll during + 1
  | .spawn _ command => command.size + 1
  | _ => 1

def sizeAll : List Command -> Nat
  | [] => 0
  | command :: rest => command.size + sizeAll rest

end

end Command

mutual

inductive Result where
  | nothing
  | flag (flag : Bool)
  | count (count : Nat)
  | text (text : String)
  | found (value : Value) (remaining : Duration)
  | created (value : Value) (called : Bool) (during : List Report)
  | refused (refusal : ShortTtl)
  | failed (text : String) (called : Bool) (during : List Report)
  | statistics (statistics : Statistics)
  | panicked (panic : Panic)

/--
A result, alone or with what can be seen after the command: the number of entries and whether the
sweeper runs, as long as there is a handle; the ranking of an evictor made by the caller; the
results of the threads that ended; and whether each other thread waits in its provider.
-/
inductive Report where
  | plain (result : Result)
  | full (result : Result) (len : Option Nat) (running : Option Bool) (rank : Option (List Key))
      (done : List (String × Result)) (pending : List (String × Bool))

end

/-- The commands of a thread that are nested in one operation, and what came of them so far. -/
structure Level where
  todo : List Command
  outcome : Outcome
  called : Bool
  results : List Report

namespace Level

def ofCommand (command : Command) : Level where
  todo := command.during
  outcome := command.outcome
  called := false
  results := []

def bare : Level where
  todo := []
  outcome := .failure ""
  called := false
  results := []

def note (level : Level) (report : Report) : Level :=
  { level with results := level.results ++ [report] }

def result (level : Level) : Answer -> Result
  | .found none => .nothing
  | .found (some (value, remaining)) => .found value remaining
  | .value value => .created value level.called level.results
  | .refused refusal => .refused refusal
  | .failed text => .failed text level.called level.results
  | .flag flag => .flag flag
  | .statistics statistics => .statistics statistics
  | .panicked panic => .panicked panic

end Level

end TtlCache
