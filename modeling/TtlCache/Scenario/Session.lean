import TtlCache.Scenario.Command

/-!
# Sessions

A session plays a scenario on a machine.  The main thread carries out one command after another;
whenever it has done so, all threads run until each of them is blocked, asleep or at its end.  A
thread that runs goes on until it can go no further, and then the next one has its turn.  Threads
that wait for a key are served in the order in which they came.
-/

namespace TtlCache

/--
A further thread: its client, its levels with the innermost first, and whether it was released.
A release is for good: the thread never waits in a provider again.
-/
structure Task where
  client : Nat
  levels : List Level
  released : Bool

def Task.operations (task : Task) : Nat :=
  task.levels.foldl (fun total level => total + Command.sizeAll level.todo + 1) 0

structure Session (layout : Layout) where
  machine : Machine layout
  handles : List String
  tasks : Table String Task
  done : List (String × Result)
  nextClient : Nat

namespace Session

variable {layout : Layout}

def mainClient : Nat := 0

def mainHandle : String := "main"

def ofConfig (layout : Layout) (config : Config) (clock : Instant) : Session layout where
  machine := .ofConfig layout config clock
  handles := [mainHandle]
  tasks := .empty
  done := []
  nextClient := mainClient + 1

def happen (s : Session layout) (event : Event) : Session layout :=
  { s with machine := (s.machine.step event).getD s.machine }

def takeAnswer (s : Session layout) (client : Nat) : Session layout :=
  { s with
    machine := s.machine.setClient client { s.machine.client client with answer := none } }

def setTask (s : Session layout) (name : String) (task : Task) : Session layout :=
  { s with tasks := s.tasks.insert name task }

/-! ## Commands that take no steps -/

/--
Carries out a command that is done at once.

A new handle under a name in use takes the place of the old one, so nothing changes.
-/
def perform (s : Session layout) : Command -> Result × Session layout
  | .isRunning => (.flag s.machine.cache.sweeper.running, s)
  | .isEmpty => (.flag (s.machine.cache.store.size == 0), s)
  | .len => (.count s.machine.cache.store.size, s)
  | .describe => ((s.machine.cache.text?.map Result.text).getD .nothing, s)
  | .advance elapsed => (.nothing, s.happen (.tick elapsed))
  | .clone name =>
      if s.handles.contains name then
        (.nothing, s)
      else
        (.nothing, { s.happen .attach with handles := s.handles ++ [name] })
  | .drop name =>
      if s.handles.contains name then
        (.flag true, { s.happen .detach with handles := s.handles.erase name })
      else
        (.flag false, s)
  | .spawn name command =>
      let task : Task :=
        { client := s.nextClient
          levels := [{ Level.bare with todo := [command] }]
          released := false }
      (.nothing, { (s.happen .attach).setTask name task with nextClient := s.nextClient + 1 })
  | .release name =>
      match s.tasks.get? name with
      | none => (.flag false, s)
      | some task => (.flag true, s.setTask name { task with released := true })
  | _ => (.nothing, s)

/-! ## Further threads -/

def beginCommand (s : Session layout) (name : String) (task : Task) (level : Level)
    (outer : List Level) : Command -> List Command -> Option (Session layout)
  | .wait, todo =>
      if task.released then
        let level := { level with todo := todo }.note (.plain .nothing)
        some (s.setTask name { task with levels := level :: outer })
      else
        none
  | command, todo =>
      let level := { level with todo := todo }
      match command.call? with
      | some call =>
        let levels := Level.ofCommand command :: level :: outer
        some ((s.happen (.call task.client call)).setTask name { task with levels := levels })
      | none =>
        let (result, after) := s.perform command
        some (after.setTask name { task with levels := level.note (.plain result) :: outer })

/-- A thread has done all commands of a level: its provider ends, or the thread does. -/
def endLevel (s : Session layout) (name : String) (task : Task) (level : Level)
    (outer : List Level) : Option (Session layout) :=
  match outer with
  | _ :: _ =>
    let levels := { level with called := true } :: outer
    some
      ((s.happen (.provide task.client level.outcome)).setTask name { task with levels := levels })
  | [] =>
    let result :=
      match level.results with
      | .plain result :: _ => result
      | _ => .nothing
    let after := s.happen .detach
    some { after with tasks := after.tasks.erase name, done := after.done ++ [(name, result)] }

/-- A thread has an answer: the operation that ended is a result on the level around it. -/
def endOperation (s : Session layout) (name : String) (task : Task) (answer : Answer) :
    Option (Session layout) :=
  match task.levels with
  | level :: outer :: rest =>
    let levels := outer.note (.plain (level.result answer)) :: rest
    some ((s.takeAnswer task.client).setTask name { task with levels := levels })
  | _ => none

def stepTask (s : Session layout) (name : String) : Option (Session layout) := do
  let task <- s.tasks.get? name
  let client := s.machine.client task.client
  match client.answer with
  | some answer => s.endOperation name task answer
  | none =>
    if client.mayCall then
      match task.levels with
      | [] => none
      | level :: outer =>
        match level.todo with
        | command :: todo => s.beginCommand name task level outer command todo
        | [] => s.endLevel name task level outer
    else
      (s.machine.runInTurn (.client task.client)).map fun machine => { s with machine := machine }

/-! ## Settling -/

def stepWorker (s : Session layout) (worker : Worker) : Option (Session layout) :=
  (s.machine.runInTurn worker).map fun machine => { s with machine := machine }

def stepThread (s : Session layout) (worker : Worker) : Option (Session layout) :=
  match s.tasks.rows.find? fun row => decide (worker = .client row.2.client) with
  | some (name, _) => s.stepTask name
  | none => s.stepWorker worker

/-- All threads: the main thread, then others in the order in which they began, then sweepers. -/
def threads (s : Session layout) : List Worker :=
  .client mainClient :: s.tasks.rows.map (fun row => .client row.2.client) ++
    s.machine.cache.sweeper.threads.keys.map .sweeper

/-- A step of the thread that took the last one, or of the first one that can take a step. -/
def step (s : Session layout) (last : Worker) : Option (Worker × Session layout) :=
  (last :: s.threads).findSome? fun worker =>
    (s.stepThread worker).map fun next => (worker, next)

def settleFor : Nat -> Worker -> Session layout -> Session layout
  | 0, _, s => s
  | steps + 1, last, s =>
      match s.step last with
      | none => s
      | some (worker, next) => next.settleFor steps worker

def operations (s : Session layout) : Nat :=
  s.tasks.rows.foldl (fun total row => total + row.2.operations)
    (s.machine.cache.sweeper.threads.size + 2)

/--
A bound on the steps that the threads can take before the clock moves again.

Every operation before them and every thread of the sweeper goes at most once through all shards
and keys, and visits each key in a bounded number of steps.
-/
def work (s : Session layout) : Nat :=
  let tracked := (s.machine.cache.evictor.map fun evictor => evictor.ranking.size).getD 0
  let keys := s.machine.cache.store.size + tracked + s.operations
  2 * s.operations * (2 * layout.shards + 24 * keys + 40)

def settle (s : Session layout) : Session layout := s.settleFor s.work (.client mainClient)

/-! ## The main thread -/

def begin (s : Session layout) (call : Call) : Session layout :=
  ((s.happen .attach).happen (.call mainClient call)).settle

/-- The main thread takes its answer; an operation that is still blocked has none. -/
def finish (s : Session layout) (level : Level) : Result × Session layout :=
  match (s.machine.client mainClient).answer with
  | none => (.nothing, s)
  | some answer => (level.result answer, ((s.takeAnswer mainClient).happen .detach).settle)

/-- Whether what the main thread asked for last is in its provider: it has no answer yet. -/
def isMainProviding (s : Session layout) : Bool :=
  let client := s.machine.client mainClient
  client.answer.isNone && client.isProviding

def pending (s : Session layout) : List (String × Bool) :=
  s.tasks.rows.map fun row =>
    let waits :=
      match row.2.levels with
      | { todo := .wait :: _, .. } :: _ => (s.machine.client row.2.client).isProviding
      | _ => false
    (row.1, waits)

/-- Reports a result together with what can be seen. -/
def report (s : Session layout) (result : Result) : Report × Session layout :=
  let cache := s.machine.cache
  let seen := !s.handles.isEmpty
  let rank := (cache.evictor.filter Evictor.isCustom).map Evictor.worst
  (.full result
      (if seen then some cache.store.size else none)
      (if seen then some cache.sweeper.running else none)
      rank s.done s.pending,
    { s with done := [] })

mutual

def exec (s : Session layout) : Command -> Result × Session layout
  | .create key kind ttl during outcome =>
      let begun := s.begin (.access key (.create kind ttl))
      if begun.isMainProviding then
        let (reports, provided) := begun.execAll during
        let ended := (provided.happen (.provide mainClient outcome)).settle
        ended.finish { Level.bare with called := true, results := reports }
      else
        begun.finish .bare
  | command =>
      match command.call? with
      | some call => (s.begin call).finish .bare
      | none =>
        let (result, after) := s.perform command
        (result, after.settle)

def execAll (s : Session layout) : List Command -> List Report × Session layout
  | [] => ([], s)
  | command :: rest =>
      let (result, after) := s.exec command
      let (report, reported) := after.report result
      let (reports, final) := reported.execAll rest
      (report :: reports, final)

end

end Session

def Config.play (config : Config) (clock : Instant) (commands : List Command) : List Report :=
  ((Session.ofConfig .hashed config clock).execAll commands).1

end TtlCache
