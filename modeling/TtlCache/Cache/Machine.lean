import TtlCache.Cache.Access
import TtlCache.Cache.Pass

/-!
# The machine

The machine is a cache together with all of its threads.  A client may have several operations in
progress, each of which was asked for by the provider of the one below it.  What a client asks
for, what its providers come to, and when the clock moves is up to the surroundings; everything
else is a step of one thread.  A run is a sequence of such events.
-/

namespace TtlCache

inductive Call where
  | access (key : Key) (request : Request)
  | purge
  | statistics
  deriving DecidableEq, Repr

structure Taking where
  elapsed : Duration
  todo : List Counter
  taken : Tally
  deriving DecidableEq, Repr

inductive Frame where
  | access (access : Access)
  | pass (pass : Pass)
  /-- About to read and restart the time since the counts were last taken. -/
  | clock
  | taking (taking : Taking)
  deriving DecidableEq, Repr

namespace Frame

variable {layout : Layout}

def step (who : Worker) (c : Cache layout) : Frame -> Option (Cache layout × Progress Frame)
  | .access a => (a.step c).map fun (after, progress) => (after, progress.map .access)
  | .pass p => (p.step who c).map fun (after, progress) => (after, progress.map .pass)
  | .clock =>
      let taking : Taking :=
        { elapsed := c.clock.since c.takenAt, todo := Counter.all, taken := .zero }
      some ({ c with takenAt := c.clock }, .more (.taking taking))
  | .taking t =>
      match t.todo with
      | [] => some (c, .done (.statistics ⟨t.elapsed, t.taken⟩))
      | counter :: todo =>
        let taken := t.taken.set counter (c.tally.get counter)
        some
          ({ c with tally := c.tally.set counter 0 },
            .more (.taking { t with todo := todo, taken := taken }))

def isProviding : Frame -> Bool
  | .access a => a.isProviding
  | _ => false

def wish? : Frame -> Option Wish
  | .access a => a.wish?
  | .pass p => p.wish?
  | _ => none

end Frame

/-- A client: its operations in progress, the innermost first, and the answer to the last one. -/
structure Client where
  stack : List Frame
  answer : Option Answer
  deriving DecidableEq, Repr

namespace Client

def idle : Client where
  stack := []
  answer := none

def isProviding (client : Client) : Bool :=
  match client.stack with
  | frame :: _ => frame.isProviding
  | [] => false

/-- Whether the client may ask for something: between operations, or in a provider. -/
def mayCall (client : Client) : Bool := client.stack.isEmpty || client.isProviding

end Client

/-- A cache, its clients by number, and the passes of the sweeper's threads by generation. -/
structure Machine (layout : Layout) where
  cache : Cache layout
  clients : Table Nat Client
  passes : Table Nat Pass

inductive Event where
  | call (client : Nat) (call : Call)
  | provide (client : Nat) (outcome : Outcome)
  | run (worker : Worker)
  /-- The clock moves on, but never past the end of time. -/
  | tick (elapsed : Duration)
  | attach
  /-- A client drops a handle; the last one is not dropped while an operation runs through it. -/
  | detach
  | reorder (shard : Nat) (rows : Table Key Entry)

namespace Machine

variable {layout : Layout}

def ofConfig (layout : Layout) (config : Config) (clock : Instant) : Machine layout where
  cache := .ofConfig layout config clock
  clients := .empty
  passes := .empty

/-- A client; one that never asked for anything is idle. -/
def client (m : Machine layout) (number : Nat) : Client :=
  (m.clients.get? number).getD .idle

def setClient (m : Machine layout) (number : Nat) (client : Client) : Machine layout :=
  { m with clients := m.clients.insert number client }

/--
The handles that clients have.  A pass of the sweeper keeps the cache alive with a handle of its
own, which no client can use or drop.
-/
def clientHandles (m : Machine layout) : Nat := m.cache.handles - m.passes.size

/-- The first frame of an operation, or its answer if it is refused at once. -/
def opening : Call -> Progress Frame
  | .access key (.create kind ttl) =>
      if ttl.nanos < leastTtl.nanos then
        .done (.refused { ttl := ttl, least := leastTtl })
      else
        .more (.access (.begin key (.create kind ttl)))
  | .access key request => .more (.access (.begin key request))
  | .purge => .more (.pass .enter)
  | .statistics => .more .clock

def call (m : Machine layout) (number : Nat) (call : Call) : Option (Machine layout) :=
  let client := m.client number
  if client.mayCall && decide (0 < m.clientHandles) then
    match opening call with
    | .more frame =>
        some (m.setClient number { stack := frame :: client.stack, answer := none })
    | .done answer => some (m.setClient number { client with answer := some answer })
  else
    none

/-- The innermost provider of a client comes to an end. -/
def provide (m : Machine layout) (number : Nat) (outcome : Outcome) : Option (Machine layout) :=
  let client := m.client number
  match client.stack with
  | .access access :: outer =>
      (access.afterProvider m.cache.clock outcome).map fun access =>
        m.setClient number { client with stack := .access access :: outer }
  | _ => none

def runClient (m : Machine layout) (number : Nat) : Option (Machine layout) :=
  let client := m.client number
  match client.stack with
  | [] => none
  | frame :: outer =>
    (frame.step (.client number) m.cache).map fun (cache, progress) =>
      match progress with
      | .more frame =>
          { m with cache := cache }.setClient number { client with stack := frame :: outer }
      | .done answer =>
          { m with cache := cache }.setClient number { stack := outer, answer := some answer }

/-- A thread of the sweeper ends its pass and goes on if the pass left entries behind. -/
def endPass (m : Machine layout) (cache : Cache layout) (generation : Nat) (answer : Answer) :
    Option (Machine layout) := do
  let cache <- cache.detach
  let sweeper <- cache.sweeper.endPass generation (decide (answer = .flag false))
  some
    { m with
      cache := { cache with sweeper := sweeper }
      passes := m.passes.erase generation }

/--
A thread of the sweeper in a pass takes a step.

A pass keeps the cache alive with a reference of its own, and does not begin if the cache is gone.
-/
def runPass (m : Machine layout) (generation : Nat) : Option (Machine layout) :=
  match m.passes.get? generation with
  | none =>
      if m.cache.handles = 0 then
        (m.cache.sweeper.endPass generation false).map fun sweeper =>
          { m with cache := { m.cache with sweeper := sweeper } }
      else
        some { m with cache := m.cache.attach, passes := m.passes.insert generation .enter }
  | some pass =>
      (pass.step (.sweeper generation) m.cache).bind fun (cache, progress) =>
        match progress with
        | .more pass => some { m with cache := cache, passes := m.passes.insert generation pass }
        | .done answer => m.endPass cache generation answer

def runSweeper (m : Machine layout) (generation : Nat) : Option (Machine layout) :=
  match m.cache.sweeper.threads.get? generation with
  | some .passing => m.runPass generation
  | _ =>
      (m.cache.sweeper.step generation m.cache.clock).map fun sweeper =>
        { m with cache := { m.cache with sweeper := sweeper } }

def run (m : Machine layout) : Worker -> Option (Machine layout)
  | .client number => m.runClient number
  | .sweeper generation => m.runSweeper generation

def isQuiet (m : Machine layout) : Bool := m.clients.rows.all fun row => row.2.stack.isEmpty

def step (m : Machine layout) : Event -> Option (Machine layout)
  | .call number call => m.call number call
  | .provide number outcome => m.provide number outcome
  | .run worker => m.run worker
  | .tick elapsed =>
      (m.cache.clock.add? elapsed).map fun clock =>
        { m with cache := { m.cache with clock := clock } }
  | .attach =>
      if 0 < m.clientHandles then some { m with cache := m.cache.attach } else none
  | .detach =>
      if 1 < m.clientHandles || m.isQuiet && decide (0 < m.clientHandles) then
        m.cache.detach.map fun cache => { m with cache := cache }
      else
        none
  | .reorder shard rows =>
      (m.cache.store.reorder? shard rows).map fun store =>
        { m with cache := { m.cache with store := store } }

/-- Runs a sequence of events, each of which must be able to happen. -/
def runAll (m : Machine layout) (events : List Event) : Option (Machine layout) :=
  events.foldlM step m

/-! ## Turns -/

def wish? (m : Machine layout) : Worker -> Option Wish
  | .client number =>
      match (m.client number).stack with
      | frame :: _ => frame.wish?
      | [] => none
  | .sweeper generation => (m.passes.get? generation).bind Pass.wish?

/-- Whether a guard is the next one to get its mutex: nobody has waited longer for it. -/
def isNext (m : Machine layout) (ticket : Nat) : Bool :=
  match m.cache.locks.guards.get? ticket with
  | none => false
  | some guard => decide (m.cache.locks.longestWaiter guard.mutex = some ticket)

/-- Whether a thread waits for nothing, or has waited longest for what it waits for. -/
def hasTurn (m : Machine layout) (worker : Worker) : Bool :=
  match m.wish? worker with
  | none => true
  | some (.mutex ticket) => m.isNext ticket
  | some .pass => decide (m.cache.passQueue.head? = some worker)

/-- A step of a thread that takes nothing for which somebody else has waited longer. -/
def runInTurn (m : Machine layout) (worker : Worker) : Option (Machine layout) :=
  if m.hasTurn worker then m.run worker else none

end Machine

end TtlCache
