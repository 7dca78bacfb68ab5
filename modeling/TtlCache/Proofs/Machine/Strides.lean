import TtlCache.Cache.Machine
import TtlCache.Proofs.LockTable.Exclusion

/-!
# Strides

What a single step of an operation can be: the point at which it is taken, what it makes of the
cache, and the point to which it leads.  Steps are told apart here once and for all; what is said
of every step is then said stride by stride.
-/

namespace TtlCache

variable {layout : Layout}

/-! ## Operations on a key -/

namespace Access

inductive Stride (c : Cache layout) : Access -> Cache layout -> Progress Access -> Prop where
  | register {key : Key} {request : Request} :
      Stride c ⟨key, request, .register⟩ { c with locks := c.locks.join key .waiting }
        (.more ⟨key, request, .acquire c.locks.nextTicket⟩)
  | acquire {key : Key} {request : Request} {ticket : Nat} {locks : LockTable Key}
      (acquired : c.locks.acquire? ticket = some locks) :
      Stride c ⟨key, request, .acquire ticket⟩ { c with locks := locks }
        (.more ⟨key, request, .look ticket⟩)
  | look {key : Key} {request : Request} {ticket : Nat} :
      Stride c ⟨key, request, .look ticket⟩ (look ⟨key, request, .look ticket⟩ c ticket).1
        (.more ⟨key, request, (look ⟨key, request, .look ticket⟩ c ticket).2⟩)
  | missed {key : Key} {request : Request} {ticket : Nat} {stale : Bool} :
      Stride c ⟨key, request, .missed ticket stale⟩ (c.count .miss)
        (.more ⟨key, request, .provide ticket stale⟩)
  | effect {key : Key} {request : Request} {ticket : Nat} {effect : Effect} {todo : List Effect}
      {answer : Answer} {after : Cache layout} (applied : effect.apply c = some after) :
      Stride c ⟨key, request, .perform ticket (effect :: todo) answer⟩ after
        (.more ⟨key, request, .perform ticket todo answer⟩)
  | unregister {key : Key} {request : Request} {ticket : Nat} {answer : Answer}
      {locks : LockTable Key} (unregistered : c.locks.unregister ticket = (none, locks)) :
      Stride c ⟨key, request, .perform ticket [] answer⟩ { c with locks := locks }
        (.more ⟨key, request, .release ticket answer⟩)
  | panic {key : Key} {request : Request} {ticket : Nat} {answer : Answer} {panic : Panic}
      {locks : LockTable Key} (unregistered : c.locks.unregister ticket = (some panic, locks)) :
      Stride c ⟨key, request, .perform ticket [] answer⟩ { c with locks := locks }
        (.more ⟨key, request, .release ticket (.panicked panic)⟩)
  | release {key : Key} {request : Request} {ticket : Nat} {answer : Answer} :
      Stride c ⟨key, request, .release ticket answer⟩
        { c with locks := c.locks.release ticket } (.done answer)

theorem stride_of_step {a : Access} {c d : Cache layout} {progress : Progress Access}
    (h : a.step c = some (d, progress)) : Stride c a d progress := by
  obtain ⟨key, request, point⟩ := a
  cases point with
  | register =>
    simp only [step, LockTable.register_eq] at h
    cases h
    exact .register
  | acquire ticket =>
    obtain ⟨locks, hacquired, hsome⟩ := Option.map_eq_some_iff.mp h
    cases hsome
    exact .acquire hacquired
  | look ticket =>
    cases h
    exact .look
  | missed ticket stale =>
    cases h
    exact .missed
  | provide ticket stale => cases h
  | perform ticket todo answer =>
    cases todo with
    | nil =>
      simp only [step] at h
      split at h
      · next hunregistered =>
        cases h
        exact .unregister hunregistered
      · next hunregistered =>
        cases h
        exact .panic hunregistered
    | cons effect todo =>
      obtain ⟨after, happlied, hsome⟩ := Option.map_eq_some_iff.mp h
      cases hsome
      exact .effect happlied
  | release ticket answer =>
    cases h
    exact .release

end Access

/-! ## Passes -/

namespace Pass

inductive Stride (who : Worker) (c : Cache layout) :
    Pass -> Cache layout -> Progress Pass -> Prop where
  | enter : Stride who c .enter { c with passQueue := c.passQueue ++ [who] } (.more .queue)
  | begin (free : c.passLock = none) :
      Stride who c .queue { c with passLock := some who, passQueue := c.passQueue.erase who }
        (.more (.collect c.clock 0 []))
  | list {now : Instant} {shard : Nat} {keys : List Key} {rows : Table Key Entry}
      (listed : c.store.shard? shard = some rows) :
      Stride who c (.collect now shard keys) c
        (.more (.collect now (shard + 1) (keys ++ rows.keys)))
  | listed {now : Instant} {shard : Nat} {keys : List Key}
      (behind : c.store.shard? shard = none) :
      Stride who c (.collect now shard keys) c
        (.more (.visit .expiry keys { now := now, marks := [], live := false }))
  | register {round : Round} {key : Key} {keys : List Key} {survey : Survey} :
      Stride who c (.visit round (key :: keys) survey)
        { c with locks := c.locks.join key .waiting }
        (.more (.acquire round c.locks.nextTicket key keys survey))
  | visited {round : Round} {survey : Survey} :
      Stride who c (.visit round [] survey) c (.more (endRound c survey round))
  | acquire {round : Round} {ticket : Nat} {key : Key} {keys : List Key} {survey : Survey}
      {locks : LockTable Key} (acquired : c.locks.acquire? ticket = some locks) :
      Stride who c (.acquire round ticket key keys survey) { c with locks := locks }
        (.more (.judge round ticket key keys survey))
  | judgeExpiry {ticket : Nat} {key : Key} {keys : List Key} {survey : Survey} :
      Stride who c (.judge .expiry ticket key keys survey) c
        (.more (judgeExpiry c ticket key keys survey))
  | judgeEviction {ticket : Nat} {key : Key} {keys : List Key} {survey : Survey} :
      Stride who c (.judge .eviction ticket key keys survey) c
        (.more (judgeEviction c ticket key keys survey))
  | untrack {ticket : Nat} {key : Key} {keys : List Key} {survey : Survey} :
      Stride who c (.untrack ticket key keys survey) (c.notifyRemoved key)
        (.more (.dismiss .eviction ticket key keys survey))
  | dismiss {round : Round} {ticket : Nat} {key : Key} {keys : List Key} {survey : Survey} :
      Stride who c (.dismiss round ticket key keys survey)
        (giveUp c ticket key survey.marks (.release round ticket key keys survey)).1
        (.more (giveUp c ticket key survey.marks (.release round ticket key keys survey)).2)
  | release {round : Round} {ticket : Nat} {key : Key} {keys : List Key} {survey : Survey} :
      Stride who c (.release round ticket key keys survey)
        { c with locks := c.locks.release ticket } (.more (.visit round keys survey))
  | weigh {survey : Survey} : Stride who c (.weigh survey) c (.more (weighExcess c survey))
  | choose {count : Nat} {survey : Survey} :
      Stride who c (.choose count survey) c
        (.more (.visit .eviction (candidates c count survey.marks) survey))
  | effect {effect : Effect} {todo : List Effect} {mark : Mark} {marks : List Mark}
      {after : Cache layout} (applied : effect.apply c = some after) :
      Stride who c (.remove (effect :: todo) mark marks) after (.more (.remove todo mark marks))
  | removed {mark : Mark} {marks : List Mark} :
      Stride who c (.remove [] mark marks)
        (giveUp c mark.ticket mark.key marks (.free mark.ticket mark.key marks)).1
        (.more (giveUp c mark.ticket mark.key marks (.free mark.ticket mark.key marks)).2)
  | free {ticket : Nat} {key : Key} {marks : List Mark} :
      Stride who c (.free ticket key marks) { c with locks := c.locks.release ticket }
        (.more (clear marks))
  | decide {sweeper : Sweeper} (begun : c.sweeper.beginStop = some sweeper) :
      Stride who c .decide { c with sweeper := sweeper } (.more (.sum 0 0))
  | sum {shard total : Nat} {rows : Table Key Entry}
      (listed : c.store.shard? shard = some rows) :
      Stride who c (.sum shard total) c (.more (.sum (shard + 1) (total + rows.size)))
  | summed {shard total : Nat} (behind : c.store.shard? shard = none) :
      Stride who c (.sum shard total) { c with sweeper := c.sweeper.endStop (total == 0) }
        (.more (.leave (.flag (total == 0))))
  | unwind {mark : Mark} {marks : List Mark} {panic : Panic} :
      Stride who c (.unwind (mark :: marks) panic)
        (giveUp c mark.ticket mark.key marks (.drop mark.ticket mark.key marks panic)).1
        (.more (giveUp c mark.ticket mark.key marks (.drop mark.ticket mark.key marks panic)).2)
  | unwound {panic : Panic} :
      Stride who c (.unwind [] panic) c (.more (.leave (.panicked panic)))
  | drop {ticket : Nat} {key : Key} {marks : List Mark} {panic : Panic} :
      Stride who c (.drop ticket key marks panic) { c with locks := c.locks.release ticket }
        (.more (.unwind marks panic))
  | leave {answer : Answer} :
      Stride who c (.leave answer) { c with passLock := none } (.done answer)

theorem stride_of_step {p : Pass} {who : Worker} {c d : Cache layout} {progress : Progress Pass}
    (h : p.step who c = some (d, progress)) : Stride who c p d progress := by
  cases p with
  | enter => cases h; exact .enter
  | queue =>
    simp only [step] at h
    split at h
    · next hfree => cases h; exact .begin hfree
    · cases h
  | collect now shard keys =>
    simp only [step] at h
    split at h
    · next hlisted => cases h; exact .list hlisted
    · next hbehind => cases h; exact .listed hbehind
  | visit round keys survey =>
    cases keys with
    | nil => cases h; exact .visited
    | cons key keys =>
      simp only [step, LockTable.register_eq] at h
      cases h
      exact .register
  | acquire round ticket key keys survey =>
    obtain ⟨locks, hacquired, hsome⟩ := Option.map_eq_some_iff.mp h
    cases hsome
    exact .acquire hacquired
  | judge round ticket key keys survey =>
    cases round with
    | expiry => cases h; exact .judgeExpiry
    | eviction => cases h; exact .judgeEviction
  | untrack ticket key keys survey => cases h; exact .untrack
  | dismiss round ticket key keys survey => cases h; exact .dismiss
  | release round ticket key keys survey => cases h; exact .release
  | weigh survey => cases h; exact .weigh
  | choose count survey => cases h; exact .choose
  | remove todo mark marks =>
    cases todo with
    | nil => cases h; exact .removed
    | cons effect todo =>
      obtain ⟨after, happlied, hsome⟩ := Option.map_eq_some_iff.mp h
      cases hsome
      exact .effect happlied
  | free ticket key marks => cases h; exact .free
  | decide =>
    obtain ⟨sweeper, hbegun, hsome⟩ := Option.map_eq_some_iff.mp h
    cases hsome
    exact .decide hbegun
  | sum shard total =>
    simp only [step] at h
    split at h
    · next hlisted => cases h; exact .sum hlisted
    · next hbehind => cases h; exact .summed hbehind
  | unwind marks panic =>
    cases marks with
    | nil => cases h; exact .unwound
    | cons mark marks => cases h; exact .unwind
  | drop ticket key marks panic => cases h; exact .drop
  | leave answer => cases h; exact .leave

theorem eq_leave_of_done {p : Pass} {who : Worker} {c d : Cache layout} {answer : Answer}
    (h : p.step who c = some (d, .done answer)) :
    p = .leave answer ∧ d = { c with passLock := none } := by
  generalize hprogress : Progress.done answer = progress at h
  cases stride_of_step h with
  | leave =>
    cases hprogress
    exact ⟨rfl, rfl⟩
  | _ => cases hprogress

end Pass

/-! ## All operations -/

namespace Frame

inductive Stride (who : Worker) (c : Cache layout) :
    Frame -> Cache layout -> Progress Frame -> Prop where
  | access {a : Access} {d : Cache layout} {progress : Progress Access}
      (step : a.step c = some (d, progress)) :
      Stride who c (.access a) d (progress.map .access)
  | pass {p : Pass} {d : Cache layout} {progress : Progress Pass}
      (step : p.step who c = some (d, progress)) :
      Stride who c (.pass p) d (progress.map .pass)
  | clock :
      Stride who c .clock { c with takenAt := c.clock }
        (.more (.taking ⟨c.clock.since c.takenAt, Counter.all, .zero⟩))
  | take {elapsed : Duration} {counter : Counter} {todo : List Counter} {taken : Tally} :
      Stride who c (.taking ⟨elapsed, counter :: todo, taken⟩)
        { c with tally := c.tally.set counter 0 }
        (.more (.taking ⟨elapsed, todo, taken.set counter (c.tally.get counter)⟩))
  | taken {elapsed : Duration} {taken : Tally} :
      Stride who c (.taking ⟨elapsed, [], taken⟩) c (.done (.statistics ⟨elapsed, taken⟩))

theorem stride_of_step {frame : Frame} {who : Worker} {c d : Cache layout}
    {progress : Progress Frame} (h : frame.step who c = some (d, progress)) :
    Stride who c frame d progress := by
  cases frame with
  | access a =>
    obtain ⟨⟨after, next⟩, hstep, hsome⟩ := Option.map_eq_some_iff.mp h
    cases hsome
    exact .access hstep
  | pass p =>
    obtain ⟨⟨after, next⟩, hstep, hsome⟩ := Option.map_eq_some_iff.mp h
    cases hsome
    exact .pass hstep
  | clock =>
    cases h
    exact .clock
  | taking taking =>
    obtain ⟨elapsed, todo, taken⟩ := taking
    cases todo with
    | nil =>
      cases h
      exact .taken
    | cons counter todo =>
      cases h
      exact .take

theorem access_of_step {frame : Frame} {who : Worker} {c d : Cache layout} {next : Access}
    (h : frame.step who c = some (d, .more (.access next))) :
    ∃ a, frame = .access a ∧ a.step c = some (d, .more next) := by
  generalize hprogress : Progress.more (Frame.access next) = progress at h
  cases stride_of_step h with
  | @access a d progress step =>
    cases progress <;> cases hprogress
    exact ⟨a, rfl, step⟩
  | @pass p d progress step => cases progress <;> cases hprogress
  | _ => cases hprogress

theorem pass_of_step {frame : Frame} {who : Worker} {c d : Cache layout} {next : Pass}
    (h : frame.step who c = some (d, .more (.pass next))) :
    ∃ p, frame = .pass p ∧ p.step who c = some (d, .more next) := by
  generalize hprogress : Progress.more (Frame.pass next) = progress at h
  cases stride_of_step h with
  | @pass p d progress step =>
    cases progress <;> cases hprogress
    exact ⟨p, rfl, step⟩
  | @access a d progress step => cases progress <;> cases hprogress
  | _ => cases hprogress

end Frame

end TtlCache
