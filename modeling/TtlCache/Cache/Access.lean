import TtlCache.Cache.State

/-!
# Operations on one key

An operation takes the lock of its key, looks the key up, has its effects and gives the lock back.
A creating operation that finds no live entry leaves the lock taken while its provider runs, and
what it does afterwards rests on what it saw before.
-/

namespace TtlCache

inductive Request where
  | get (kind : Kind)
  | create (kind : Kind) (ttl : Duration)
  | extend (deadline : Instant)
  | forget
  deriving DecidableEq, Repr

/-- How far an operation on a key has come; `ticket` names its guard. -/
inductive AccessPoint where
  | register
  | acquire (ticket : Nat)
  | look (ticket : Nat)
  /-- No live entry was found; `stale` tells whether there was an expired one. -/
  | missed (ticket : Nat) (stale : Bool)
  | provide (ticket : Nat) (stale : Bool)
  | perform (ticket : Nat) (todo : List Effect) (answer : Answer)
  /-- The guard is off the record of its key and still has the mutex. -/
  | release (ticket : Nat) (answer : Answer)
  deriving DecidableEq, Repr

/-- An operation on a key in progress. -/
structure Access where
  key : Key
  request : Request
  point : AccessPoint
  deriving DecidableEq, Repr

namespace Access

variable {layout : Layout}

def begin (key : Key) (request : Request) : Access where
  key := key
  request := request
  point := .register

def hit (key : Key) : List Effect := [.use key, .count .hit]

def expire (key : Key) : List Effect :=
  [.erase key, .untrack key, .count .expiration, .count .miss]

def lookVacant (ticket : Nat) : Request -> AccessPoint
  | .get _ => .perform ticket [.count .miss] (.found none)
  | .create _ _ => .missed ticket false
  | .extend _ => .perform ticket [] (.flag false)
  | .forget => .perform ticket [] (.flag false)

/-- What a lookup of an entry leads to.  An expired entry is not read, whatever its kind. -/
def lookEntry (key : Key) (ticket : Nat) (entry : Entry) (now : Instant) : Request -> AccessPoint
  | .get kind =>
      if entry.isExpired now then
        .perform ticket (expire key) (.found none)
      else
        match entry.read key kind with
        | .ok value => .perform ticket (hit key) (.found (some (value, entry.remaining now)))
        | .error panic => .perform ticket [] (.panicked panic)
  | .create kind _ =>
      if entry.isExpired now then
        .missed ticket true
      else
        match entry.read key kind with
        | .ok value => .perform ticket (hit key) (.value value)
        | .error panic => .perform ticket [] (.panicked panic)
  | .extend _ => .perform ticket [] (.flag true)
  | .forget => .perform ticket [.untrack key] (.flag true)

/-- The store after a lookup: another deadline and a removal happen with the lookup itself. -/
def storeAfterLook (key : Key) (entry : Entry) (store : Store layout) : Request -> Store layout
  | .get _ | .create _ _ => store
  | .extend deadline => store.insert key (entry.extend deadline)
  | .forget => store.erase key

def look (a : Access) (c : Cache layout) (ticket : Nat) : Cache layout × AccessPoint :=
  match c.store.get? a.key with
  | none => (c, lookVacant ticket a.request)
  | some entry =>
      ({ c with store := storeAfterLook a.key entry c.store a.request },
        lookEntry a.key ticket entry c.clock a.request)

def moveTo (a : Access) (point : AccessPoint) : Progress Access := .more { a with point := point }

/-- One step of an operation on a key; a provider does not end by itself. -/
def step (a : Access) (c : Cache layout) : Option (Cache layout × Progress Access) :=
  match a.point with
  | .register =>
      let (ticket, locks) := c.locks.register a.key
      some ({ c with locks := locks }, a.moveTo (.acquire ticket))
  | .acquire ticket =>
      (c.locks.acquire? ticket).map fun locks =>
        ({ c with locks := locks }, a.moveTo (.look ticket))
  | .look ticket =>
      let (after, point) := a.look c ticket
      some (after, a.moveTo point)
  | .missed ticket stale => some (c.count .miss, a.moveTo (.provide ticket stale))
  | .provide _ _ => none
  | .perform ticket (effect :: todo) answer =>
      (effect.apply c).map fun after => (after, a.moveTo (.perform ticket todo answer))
  | .perform ticket [] answer =>
      match c.locks.unregister ticket with
      | (none, locks) => some ({ c with locks := locks }, a.moveTo (.release ticket answer))
      | (some panic, locks) =>
          some ({ c with locks := locks }, a.moveTo (.release ticket (.panicked panic)))
  | .release ticket answer =>
      some ({ c with locks := c.locks.release ticket }, .done answer)

/--
What an operation does when its provider ends, `now` being the time of that.

A value must be of the kind that was asked for.  It is stored, the sweeper is started if need be,
and only then the value counts as used.  A failure removes the expired entry that was seen before
the provider ran; a panic leaves it.
-/
def afterProvider (a : Access) (now : Instant) (outcome : Outcome) : Option Access :=
  match a.point, a.request with
  | .provide ticket stale, .create kind ttl =>
    match outcome with
    | .value value =>
        if value.kind = kind then
          let effects := [.put a.key value (now.deadlineAfter ttl), .wake, .use a.key]
          some { a with point := .perform ticket effects (.value value) }
        else
          none
    | .failure text =>
        let effects := if stale then [.erase a.key, .untrack a.key] else []
        some { a with point := .perform ticket effects (.failed text) }
    | .panic text => some { a with point := .perform ticket [] (.panicked (.raised text)) }
  | _, _ => none

def isProviding (a : Access) : Bool :=
  match a.point with
  | .provide _ _ => true
  | _ => false

def wish? (a : Access) : Option Wish :=
  match a.point with
  | .acquire ticket => some (.mutex ticket)
  | _ => none

end Access

end TtlCache
