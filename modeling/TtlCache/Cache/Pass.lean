import TtlCache.Cache.State

/-!
# Passes

A pass goes through all keys.  It first lists them, shard by shard; then it visits them one by one
under their locks and marks the expired ones; then, if there are live ones, it asks the evictor
how many keys are too many and marks that many of the worst ranked ones.  The locks of marked keys
stay taken until their entries are removed at the end, so between marking and removal nobody else
comes near them.  At most one pass runs at any time.
-/

namespace TtlCache

/-- Why an entry is removed. -/
inductive Removal where
  | expired
  | evicted
  deriving DecidableEq, Repr

def Removal.counter : Removal -> Counter
  | .expired => .expiration
  | .evicted => .eviction

/-- A key that is to be removed, and the guard by which it is held until then. -/
structure Mark where
  ticket : Nat
  key : Key
  removal : Removal
  deriving DecidableEq, Repr

def Mark.effects (mark : Mark) : List Effect :=
  [.erase mark.key, .untrack mark.key, .count mark.removal.counter]

/-- What a pass knows: the time at which it began, its marks, and whether it met a live entry. -/
structure Survey where
  now : Instant
  marks : List Mark
  live : Bool
  deriving DecidableEq, Repr

def Survey.mark (survey : Survey) (ticket : Nat) (key : Key) (removal : Removal) : Survey :=
  { survey with
    marks := survey.marks ++ [{ ticket := ticket, key := key, removal := removal }] }

inductive Round where
  | expiry
  | eviction
  deriving DecidableEq, Repr

/-- How far a pass has come; `ticket` names a guard, `keys` are the keys still to be visited. -/
inductive Pass where
  | enter
  | queue
  /-- Listing keys; `shard` is the next shard. -/
  | collect (now : Instant) (shard : Nat) (keys : List Key)
  | visit (round : Round) (keys : List Key) (survey : Survey)
  | acquire (round : Round) (ticket : Nat) (key : Key) (keys : List Key) (survey : Survey)
  | judge (round : Round) (ticket : Nat) (key : Key) (keys : List Key) (survey : Survey)
  | untrack (ticket : Nat) (key : Key) (keys : List Key) (survey : Survey)
  | dismiss (round : Round) (ticket : Nat) (key : Key) (keys : List Key) (survey : Survey)
  | release (round : Round) (ticket : Nat) (key : Key) (keys : List Key) (survey : Survey)
  | weigh (survey : Survey)
  | choose (count : Nat) (survey : Survey)
  | remove (todo : List Effect) (mark : Mark) (marks : List Mark)
  /-- The guard of a removed key still has the mutex. -/
  | free (ticket : Nat) (key : Key) (marks : List Mark)
  | decide
  /-- Counting entries, with the lock on the state of the sweeper; `shard` is the next shard. -/
  | sum (shard : Nat) (total : Nat)
  | unwind (marks : List Mark) (panic : Panic)
  | drop (ticket : Nat) (key : Key) (marks : List Mark) (panic : Panic)
  /-- About to let other passes run. -/
  | leave (answer : Answer)
  deriving DecidableEq, Repr

namespace Pass

variable {layout : Layout}

def clear : List Mark -> Pass
  | [] => .decide
  | mark :: marks => .remove mark.effects mark marks

def endRound (c : Cache layout) (survey : Survey) : Round -> Pass
  | .expiry => if survey.live && c.evictor.isSome then .weigh survey else clear survey.marks
  | .eviction => clear survey.marks

/-- What a visited key is found to be in the first round. -/
def judgeExpiry (c : Cache layout) (ticket : Nat) (key : Key) (keys : List Key)
    (survey : Survey) : Pass :=
  match c.store.get? key with
  | none => .dismiss .expiry ticket key keys survey
  | some entry =>
      if entry.isExpired survey.now then
        .visit .expiry keys (survey.mark ticket key .expired)
      else
        .dismiss .expiry ticket key keys { survey with live := true }

def judgeEviction (c : Cache layout) (ticket : Nat) (key : Key) (keys : List Key)
    (survey : Survey) : Pass :=
  if c.contains key then
    .visit .eviction keys (survey.mark ticket key .evicted)
  else
    .untrack ticket key keys survey

/-- Asks the evictor for its excess; keys that are marked already are taken off it. -/
def weighExcess (c : Cache layout) (survey : Survey) : Pass :=
  match c.evictor with
  | none => clear survey.marks
  | some evictor =>
    match evictor.excess with
    | .error panic => .unwind survey.marks panic
    | .ok excess =>
        if excess - survey.marks.length = 0 then
          clear survey.marks
        else
          .choose (excess - survey.marks.length) survey

/-- The `count` worst ranked keys without a mark. -/
def candidates (c : Cache layout) (count : Nat) (marks : List Mark) : List Key :=
  match c.evictor with
  | none => []
  | some evictor =>
      (evictor.worst.filter fun key => !(marks.map Mark.key).contains key).take count

def giveUp (c : Cache layout) (ticket : Nat) (key : Key) (marks : List Mark) (next : Pass) :
    Cache layout × Pass :=
  match c.locks.unregister ticket with
  | (none, locks) => ({ c with locks := locks }, next)
  | (some panic, locks) => ({ c with locks := locks }, .drop ticket key marks panic)

def step (who : Worker) (c : Cache layout) : Pass -> Option (Cache layout × Progress Pass)
  | .enter => some ({ c with passQueue := c.passQueue ++ [who] }, .more .queue)
  | .queue =>
      match c.passLock with
      | none =>
          some
            ({ c with passLock := some who, passQueue := c.passQueue.erase who },
              .more (.collect c.clock 0 []))
      | some _ => none
  | .collect now shard keys =>
      match c.store.shard? shard with
      | some rows => some (c, .more (.collect now (shard + 1) (keys ++ rows.keys)))
      | none => some (c, .more (.visit .expiry keys { now := now, marks := [], live := false }))
  | .visit round (key :: keys) survey =>
      let (ticket, locks) := c.locks.register key
      some ({ c with locks := locks }, .more (.acquire round ticket key keys survey))
  | .visit round [] survey => some (c, .more (endRound c survey round))
  | .acquire round ticket key keys survey =>
      (c.locks.acquire? ticket).map fun locks =>
        ({ c with locks := locks }, .more (.judge round ticket key keys survey))
  | .judge .expiry ticket key keys survey =>
      some (c, .more (judgeExpiry c ticket key keys survey))
  | .judge .eviction ticket key keys survey =>
      some (c, .more (judgeEviction c ticket key keys survey))
  | .untrack ticket key keys survey =>
      some (c.notifyRemoved key, .more (.dismiss .eviction ticket key keys survey))
  | .dismiss round ticket key keys survey =>
      let (after, next) := giveUp c ticket key survey.marks (.release round ticket key keys survey)
      some (after, .more next)
  | .release round ticket _ keys survey =>
      some ({ c with locks := c.locks.release ticket }, .more (.visit round keys survey))
  | .weigh survey => some (c, .more (weighExcess c survey))
  | .choose count survey =>
      some (c, .more (.visit .eviction (candidates c count survey.marks) survey))
  | .remove (effect :: todo) mark marks =>
      (effect.apply c).map fun after => (after, .more (.remove todo mark marks))
  | .remove [] mark marks =>
      let (after, next) :=
        giveUp c mark.ticket mark.key marks (.free mark.ticket mark.key marks)
      some (after, .more next)
  | .free ticket _ marks =>
      some ({ c with locks := c.locks.release ticket }, .more (clear marks))
  | .decide =>
      c.sweeper.beginStop.map fun sweeper => ({ c with sweeper := sweeper }, .more (.sum 0 0))
  | .sum shard total =>
      match c.store.shard? shard with
      | some rows => some (c, .more (.sum (shard + 1) (total + rows.size)))
      | none =>
          some
            ({ c with sweeper := c.sweeper.endStop (total == 0) },
              .more (.leave (.flag (total == 0))))
  | .unwind [] panic => some (c, .more (.leave (.panicked panic)))
  | .unwind (mark :: marks) panic =>
      let (after, next) :=
        giveUp c mark.ticket mark.key marks (.drop mark.ticket mark.key marks panic)
      some (after, .more next)
  | .drop ticket _ marks panic =>
      some ({ c with locks := c.locks.release ticket }, .more (.unwind marks panic))
  | .leave answer => some ({ c with passLock := none }, .done answer)

def wish? : Pass -> Option Wish
  | .queue => some .pass
  | .acquire _ ticket _ _ _ => some (.mutex ticket)
  | _ => none

end Pass

end TtlCache
