import TtlCache.Sweeper

/-!
# A sweeper on a timetable

A timetable is a sweeper with a clock that moves only when it is told to, and with passes whose
outcomes are written down beforehand.  After every operation the threads run until all of them
sleep or are gone.
-/

namespace TtlCache

inductive PassOutcome where
  | again
  | enough
  | panic
  deriving DecidableEq, Repr

/-- A sweeper, its clock, and the outcomes of the passes to come by generation. -/
structure Timetable where
  sweeper : Sweeper
  clock : Instant
  scripts : Table Nat (List PassOutcome)
  passes : Nat

namespace Timetable

def initial (interval : Duration) (clock : Instant) : Timetable where
  sweeper := .idle interval
  clock := clock
  scripts := .empty
  passes := 0

/-- Runs the pass of a thread: it takes the next outcome of its script, or goes on past its end. -/
def pass (t : Timetable) (generation : Nat) : Option Timetable :=
  let script := (t.scripts.get? generation).getD []
  (t.sweeper.endPass generation (decide (script.headD .again = .again))).map fun sweeper =>
    { t with
      sweeper := sweeper
      scripts := t.scripts.insert generation script.tail
      passes := t.passes + 1 }

def stepThread (t : Timetable) (generation : Nat) : Option Timetable :=
  match t.sweeper.threads.get? generation with
  | some .passing => t.pass generation
  | _ => (t.sweeper.step generation t.clock).map fun sweeper => { t with sweeper := sweeper }

def step (t : Timetable) : Option Timetable :=
  t.sweeper.threads.keys.findSome? t.stepThread

/-- Runs the threads until none can take a step, for at most `steps` steps. -/
def settleFor : Nat -> Timetable -> Timetable
  | 0, t => t
  | steps + 1, t =>
      match t.step with
      | none => t
      | some next => next.settleFor steps

/--
Runs the threads until none can take a step.

A thread takes at most three steps per pass and one more to its end, and every pass but its last
one uses up an outcome, unless passes follow each other without a pause.
-/
def settle (t : Timetable) : Timetable :=
  let outcomes := t.scripts.rows.foldl (fun total row => total + row.2.length) 0
  t.settleFor (4 * (outcomes + 2 * t.sweeper.threads.size + 1))

/-- Starts the sweeper with a script; nothing happens if it runs already. -/
def start (t : Timetable) (script : List PassOutcome) : Timetable :=
  match t.sweeper.start with
  | none => t
  | some sweeper =>
    if sweeper.generation = t.sweeper.generation then
      settle { t with sweeper := sweeper }
    else
      settle
        { t with
          sweeper := sweeper
          scripts := t.scripts.insert sweeper.generation script }

def isClosed (t : Timetable) : Bool := t.sweeper.shutdown

def stopIf (t : Timetable) (idle : Bool) : Option Bool × Timetable :=
  if t.isClosed then
    (none, t)
  else
    match t.sweeper.stopIf idle with
    | none => (none, t)
    | some (stopped, sweeper) => (some stopped, settle { t with sweeper := sweeper })

def advance (t : Timetable) (elapsed : Duration) : Timetable :=
  settle { t with clock := ⟨t.clock.nanos + elapsed.nanos⟩ }

def close (t : Timetable) : Timetable :=
  match t.sweeper.close with
  | none => t
  | some sweeper => settle { t with sweeper := sweeper }

def running? (t : Timetable) : Option Bool :=
  if t.isClosed then none else some t.sweeper.running

def text? (t : Timetable) : Option String :=
  if t.isClosed then none else some t.sweeper.text

end Timetable

end TtlCache
