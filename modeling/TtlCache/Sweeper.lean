import TtlCache.Table
import TtlCache.Time.Text

/-!
# The sweeper

A sweeper runs a pass once per interval on a thread of its own.  It can be stopped and started
again any number of times; every start makes a new thread with a new generation, and threads of
earlier generations may still be asleep or in a pass.  A thread is current if the sweeper runs and
the thread is of the latest generation.  A thread that is not current begins no pass.

Every step below looks at the shared state once, under its lock.  A decision to stop holds that
lock for as long as it takes to find out whether there is still work, so it has a beginning and an
end, and no other step can come in between.
-/

namespace TtlCache

inductive SweeperStage where
  | arming
  /-- Asleep up to a deadline, or for good if there is none. -/
  | asleep (deadline : Option Instant)
  | passing
  /-- Past its last pass, but its end is not noticed yet. -/
  | ending
  deriving DecidableEq, Repr

/-- The shared state of a sweeper, and the stage of every live thread by its generation. -/
structure Sweeper where
  interval : Duration
  running : Bool
  generation : Nat
  shutdown : Bool
  deciding : Bool
  threads : Table Nat SweeperStage
  deriving DecidableEq

namespace Sweeper

def idle (interval : Duration) : Sweeper where
  interval := interval
  running := false
  generation := 0
  shutdown := false
  deciding := false
  threads := .empty

/-- Whether a thread of this generation may begin a pass. -/
def isCurrent (s : Sweeper) (generation : Nat) : Bool :=
  !s.shutdown && s.running && decide (s.generation = generation)

def advance (s : Sweeper) (generation : Nat) (stage : SweeperStage) : Sweeper :=
  { s with threads := s.threads.insert generation stage }

/-! ## Steps of the owner -/

/-- Starts a thread of a new generation, unless the sweeper runs already or is shut down. -/
def start (s : Sweeper) : Option Sweeper :=
  if s.deciding then
    none
  else if s.running || s.shutdown then
    some s
  else
    some
      { s with
        running := true
        generation := s.generation + 1
        threads := s.threads.insert (s.generation + 1) .arming }

/-- A start whose thread cannot be made: the generation is used up, and the sweeper stays idle. -/
def startInVain (s : Sweeper) : Option Sweeper :=
  if s.deciding then
    none
  else if s.running || s.shutdown then
    some s
  else
    some { s with running := false, generation := s.generation + 1 }

def beginStop (s : Sweeper) : Option Sweeper :=
  if s.deciding then none else some { s with deciding := true }

/-- Ends a decision to stop: an idle sweeper no longer runs. -/
def endStop (s : Sweeper) (idle : Bool) : Sweeper :=
  { s with running := s.running && !idle, deciding := false }

def close (s : Sweeper) : Option Sweeper :=
  if s.deciding then none else some { s with shutdown := true, running := false }

/-! ## Steps of a thread -/

/-- Fixes the deadline of the next pass; there is none past the end of time. -/
def arm (s : Sweeper) (generation : Nat) (now : Instant) : Option Sweeper :=
  if s.deciding then
    none
  else
    match s.threads.get? generation with
    | some .arming => some (s.advance generation (.asleep (now.add? s.interval)))
    | _ => none

def isDue (deadline : Option Instant) (now : Instant) : Bool :=
  match deadline with
  | some deadline => deadline.nanos <= now.nanos
  | none => false

/-- Wakes a sleeping thread: into a pass at its deadline, or to its end if it is not current. -/
def wake (s : Sweeper) (generation : Nat) (now : Instant) : Option Sweeper :=
  if s.deciding then
    none
  else
    match s.threads.get? generation with
    | some (.asleep deadline) =>
        if !s.isCurrent generation then
          some (s.advance generation .ending)
        else if isDue deadline now then
          some (s.advance generation .passing)
        else
          none
    | _ => none

/-- Ends a pass: the thread goes on, or comes to its end. -/
def endPass (s : Sweeper) (generation : Nat) (again : Bool) : Option Sweeper :=
  match s.threads.get? generation with
  | some .passing => some (s.advance generation (if again then .arming else .ending))
  | _ => none

/-- Notices the end of a thread; if it is of the latest generation the sweeper no longer runs. -/
def exit (s : Sweeper) (generation : Nat) : Option Sweeper :=
  if s.deciding then
    none
  else
    match s.threads.get? generation with
    | some .ending =>
        some
          { s with
            running := s.running && !decide (s.generation = generation)
            threads := s.threads.erase generation }
    | _ => none

def step (s : Sweeper) (generation : Nat) (now : Instant) : Option Sweeper :=
  match s.threads.get? generation with
  | some .arming => s.arm generation now
  | some (.asleep _) => s.wake generation now
  | some .ending => s.exit generation
  | some .passing | none => none

/-! ## Whole operations -/

def stopIf (s : Sweeper) (idle : Bool) : Option (Bool × Sweeper) :=
  s.beginStop.map fun deciding => (idle, deciding.endStop idle)

def text (s : Sweeper) : String :=
  "Janitor \x7b interval: " ++ s.interval.text ++ ", running: " ++
    (if s.running then "true" else "false") ++ " \x7d"

end Sweeper

end TtlCache
