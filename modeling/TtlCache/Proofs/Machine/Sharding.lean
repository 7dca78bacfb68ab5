import TtlCache.Proofs.Machine.Answers
import TtlCache.Proofs.Machine.Mirrors
import TtlCache.Proofs.Machine.Sweep

/-!
# Sharding is invisible

How many shards there are, where a key belongs and in which order the shards list their rows decides
in which order a pass goes through the keys, and nothing else.  Removals come to the same in every
order, so after a pass that runs by itself two mirrored machines mirror each other again, and nobody
can tell from any answer how the entries are spread.
-/

namespace TtlCache

variable {layout other : Layout}

/-! ## What mirrored passes come to -/

namespace Cache.Mirrors

variable {c : Cache layout} {d : Cache other}

theorem isExpiredAt_eq (h : c.Mirrors d) : d.isExpiredAt = c.isExpiredAt := by
  funext now key
  rw [Cache.isExpiredAt, Cache.isExpiredAt, h.store]

theorem isLiveAt_eq (h : c.Mirrors d) : d.isLiveAt = c.isLiveAt := by
  funext now key
  rw [Cache.isLiveAt, Cache.isLiveAt, h.store]

theorem expired_perm (h : c.Mirrors d) : d.expired.Perm c.expired := by
  rw [Cache.expired, Cache.expired, h.isExpiredAt_eq, h.clock]
  exact h.keys_perm.filter _

theorem hasLive_eq (h : c.Mirrors d) : d.hasLive = c.hasLive := by
  rw [Cache.hasLive, Cache.hasLive, h.isLiveAt_eq, h.clock, h.keys_perm.any_eq]

/-- The ranking decides which keys are too many, in whatever order the expired ones were met. -/
theorem surplus_eq (h : c.Mirrors d) : d.surplus = c.surplus := by
  have hexpired : ∀ key, d.expired.contains key = c.expired.contains key := by
    intro key
    rw [Bool.eq_iff_iff, List.contains_iff_mem, List.contains_iff_mem, h.expired_perm.mem_iff]
  have hevictor := h.evictor
  unfold Cache.surplus
  generalize c.evictor = first at hevictor
  generalize d.evictor = second at hevictor
  cases hevictor with
  | none => rfl
  | some hmirrors =>
    simp only [h.hasLive_eq, hmirrors.excess_eq, hmirrors.worst_eq, hexpired,
      h.expired_perm.length_eq]

theorem swept (h : c.Mirrors d) (surplus : List Key) :
    (c.swept surplus).Mirrors (d.swept surplus) := by
  have hperm : (c.expired ++ surplus.filter c.contains).Perm
      (d.expired ++ surplus.filter d.contains) := by
    rw [h.contains_eq]
    exact h.expired_perm.symm.append_right _
  rw [Cache.swept_eq, Cache.swept_eq]
  exact {
    h with
    store := fun key => by
      simp only [Store.get?_foldl_erase, hperm.mem_iff, h.store]
    placed := h.placed.foldl_erase _
    placed' := h.placed'.foldl_erase _
    evictor := rel_map h.evictor fun e f hevictor => by
      rw [h.contains_eq] at hperm ⊢
      exact hevictor.foldl_remove (hperm.append_left _)
    tally := by
      simp only [h.tally, h.expired_perm.length_eq, h.contains_eq] }

theorem decided (h : c.Mirrors d) : c.decided.Mirrors d.decided where
  __ := h
  sweeper := by simp only [Cache.decided, h.sweeper, h.size_eq]

theorem engage (h : c.Mirrors d) (who : Worker) : (c.engage who).Mirrors (d.engage who) where
  __ := h
  passLock := rfl
  passQueue := by simp only [Cache.engage, h.passQueue]

theorem leave (h : c.Mirrors d) (answer : Answer) (who : Worker) :
    Option.Rel Mirrors (c.leave answer who) (d.leave answer who) := by
  have hfreed : Mirrors { c with passLock := none } { d with passLock := none } :=
    { h with passLock := rfl }
  cases who with
  | client number => exact .some hfreed
  | sweeper generation =>
    refine rel_bind hfreed.detach fun a b hdetached => ?_
    refine rel_map_of_eq ?_ fun sweeper => hdetached.resweep sweeper
    rw [hdetached.sweeper]

theorem passResult (h : c.Mirrors d) :
    c.passResult.cache.Mirrors d.passResult.cache ∧
      d.passResult.answer = c.passResult.answer ∧ d.passResult.visits = c.passResult.visits := by
  unfold Cache.passResult
  rw [h.surplus_eq]
  cases c.surplus with
  | error panic => exact ⟨h, rfl, h.keys_perm.length_eq⟩
  | ok surplus =>
    have hswept := h.swept surplus
    refine ⟨hswept.decided, ?_, ?_⟩
    · simp only [hswept.size_eq]
    · simp only [h.keys_perm.length_eq]

end Cache.Mirrors

/-- A stroke of a run in which no pass is disturbed: one event, or a whole pass. -/
inductive Stroke where
  | event (event : Event)
  | pass (place : Place)

/-- What can be asked of a cache: the last answer to every client, its length and so on. -/
structure Reading where
  answer : Nat -> Option Answer
  len : Nat
  ranking : Option (List Key)
  running : Bool

namespace Machine

/-! ## Passes on mirrored machines -/

theorem Coherent.locks_eq {m : Machine layout} (h : m.Coherent)
    (hidle : ∀ place, m.frameAt place = none) :
    m.cache.locks =
      ⟨.empty, .empty, m.cache.locks.nextMutex, m.cache.locks.nextTicket⟩ := by
  have hguards : m.cache.locks.guards = .empty := by
    refine Table.ext_rows (List.eq_nil_iff_forall_not_mem.mpr fun row hrow => ?_)
    obtain ⟨place, frame, hframe, -⟩ := h.attended.claimed (List.mem_map_of_mem hrow)
    rw [hidle place] at hframe
    cases hframe
  have hrecords : m.cache.locks.records = .empty := by
    refine Table.ext_rows (List.eq_nil_iff_forall_not_mem.mpr fun row hrow => ?_)
    have hrecord := Table.get?_eq_some_iff.mpr hrow
    have hwanted := h.owned.sound.wanted hrecord
    rw [h.owned.sound.counted hrecord, LockTable.registered, hguards] at hwanted
    exact absurd hwanted (Nat.lt_irrefl 0)
  rw [← hguards, ← hrecords]

/-- Two mirrored machines on which runs have led to coherent states. -/
structure Twins (m : Machine layout) (n : Machine other) : Prop where
  mirrors : m.Mirrors n
  coherent : m.Coherent
  coherent' : n.Coherent

variable {m : Machine layout} {n : Machine other} {place : Place}

theorem Twins.symm (h : m.Twins n) : n.Twins m := ⟨h.mirrors.symm, h.coherent', h.coherent⟩

theorem Mirrors.lonely (h : m.Mirrors n) (hlonely : m.Lonely place) : n.Lonely place :=
  fun other hother => (h.frameAt_eq other).trans (hlonely other hother)

theorem Ended.idle {k : Machine layout} {answer : Answer} (h : m.Ended place k answer)
    (hlonely : m.Lonely place) (other : Place) : k.frameAt other = none := by
  by_cases hother : other = place
  · rw [hother, h.frame]
  · rw [h.others other hother, hlonely other hother]

theorem stack_eq_nil_of_idle (hidle : ∀ place, m.frameAt place = none) (number : Nat) :
    (m.client number).stack = [] := by
  cases hstack : (m.client number).stack with
  | nil => rfl
  | cons frame outer =>
    have hframe := frameAt_innermost hstack
    rw [hidle] at hframe
    cases hframe

/-- A pass that runs by itself on both of two mirrored machines leaves them mirrored. -/
theorem Twins.ends (h : m.Twins n) (hlonely : m.Lonely place)
    (hframe : m.frameAt place = some (.pass .enter)) :
    ∃ m' n', m.Toils place m' ∧ m'.frameAt place = none ∧ n.Toils place n' ∧
      n'.frameAt place = none ∧ m'.Twins n' := by
  have hlonely' := h.mirrors.lonely hlonely
  have hframe' : n.frameAt place = some (.pass .enter) := (h.mirrors.frameAt_eq place).trans hframe
  obtain ⟨m', locks, htoils, hended, hleave, hvisited⟩ :=
    (h.coherent.alone hframe).ends hlonely.undisturbed
  obtain ⟨n', locks', htoils', hended', hleave', hvisited'⟩ :=
    (h.coherent'.alone hframe').ends hlonely'.undisturbed
  obtain ⟨hresult, hanswer, hvisits⟩ := h.mirrors.cache.passResult
  have hidle := hended.idle hlonely
  have hidle' := hended'.idle hlonely'
  -- both have handed out the same number of guards
  have hlocks : locks' = locks := by
    have hempty := hended.coherent.locks_eq hidle
    have hempty' := hended'.coherent.locks_eq hidle'
    rw [(Cache.left_of_leave hleave).locks] at hempty
    rw [(Cache.left_of_leave hleave').locks] at hempty'
    replace hempty : locks = ⟨.empty, .empty, locks.nextMutex, locks.nextTicket⟩ := hempty
    replace hempty' : locks' = ⟨.empty, .empty, locks'.nextMutex, locks'.nextTicket⟩ := hempty'
    rw [hempty, hempty', LockTable.mk.injEq, hvisited.mutexes hlonely, hvisited.tickets,
      hvisited'.mutexes hlonely', hvisited'.tickets, h.mirrors.cache.locks, hvisits]
    exact ⟨rfl, rfl, rfl, rfl⟩
  have hcache : m'.cache.Mirrors n'.cache := by
    rw [hlocks, hanswer] at hleave'
    have hleft := ((hresult.engage place.worker).relock locks).leave m.cache.passResult.answer
      place.worker
    rw [hleave, hleave'] at hleft
    cases hleft with
    | some hmirrors => exact hmirrors
  refine ⟨m', n', htoils, hended.frame, htoils', hended'.frame, ⟨hcache, fun number => ?_,
    fun generation => ?_⟩, hended.coherent, hended'.coherent⟩
  · rw [hended.client_eq (stack_eq_nil_of_idle hidle number),
      hended'.client_eq (stack_eq_nil_of_idle hidle' number), hanswer, h.mirrors.clients]
  · have hnone : m'.passes.get? generation = none :=
      Option.map_eq_none_iff.mp (hidle (.sweeper generation))
    have hnone' : n'.passes.get? generation = none :=
      Option.map_eq_none_iff.mp (hidle' (.sweeper generation))
    rw [hnone, hnone']

theorem Toils.unique {k o : Machine layout} (h : m.Toils place k) (hother : m.Toils place o)
    (hended : k.frameAt place = none) (hended' : o.frameAt place = none) : k = o := by
  have idle : ∀ {k : Machine layout}, k.frameAt place = none → k.isActive place = false := by
    intro k hnone
    rw [isActive, hnone]
    rfl
  induction h with
  | refl m =>
    cases hother with
    | refl => rfl
    | step busy ran rest =>
      rw [idle hended] at busy
      cases busy
  | step busy ran rest ih =>
    cases hother with
    | refl =>
      rw [idle hended'] at busy
      cases busy
    | step busy' ran' rest' =>
      cases ran.symm.trans ran'
      exact ih rest' hended

/-! ## Strokes -/

/--
A machine does a stroke.  Operations on keys may take their steps in any order, and so may all other
threads; but a pass goes on only while nothing else is in progress, and then it runs to its end.
-/
inductive Does (m : Machine layout) : Stroke -> Machine layout -> Prop where
  | event {event : Event} {next : Machine layout} (apart : m.sweeps event = false)
      (kept : event.isReorder = false) (step : m.step event = some next) :
      Does m (.event event) next
  | pass {place : Place} {next : Machine layout} (lonely : m.Lonely place)
      (begins : m.frameAt place = some (.pass .enter)) (toils : m.Toils place next)
      (ended : next.frameAt place = none) : Does m (.pass place) next

theorem Does.unique {stroke : Stroke} {k o : Machine layout} (h : m.Does stroke k)
    (hother : m.Does stroke o) : k = o := by
  cases h with
  | event apart kept step =>
    cases hother with
    | event apart' kept' step' => exact Option.some.inj (step.symm.trans step')
  | pass lonely begins toils ended =>
    cases hother with
    | pass lonely' begins' toils' ended' => exact toils.unique toils' ended ended'

theorem Mirrors.sweeps_eq (h : m.Mirrors n) (event : Event) : n.sweeps event = m.sweeps event := by
  have hacting : n.acting event = m.acting event := by
    cases event with
    | run worker =>
      cases worker with
      | client number => simp only [acting, innermost, h.clients]
      | sweeper generation =>
        rw [acting, acting, Table.contains, Table.contains, h.passes, h.cache.sweeper]
    | provide number outcome => simp only [acting, innermost, h.clients]
    | _ => rfl
  simp only [sweeps, hacting, h.frameAt_eq]

/-- What one of two mirrored machines can do in a stroke the other can do as well. -/
theorem Twins.does (h : m.Twins n) {stroke : Stroke} {m' : Machine layout}
    (hdoes : m.Does stroke m') : ∃ n', n.Does stroke n' ∧ m'.Twins n' := by
  cases hdoes with
  | @event event next apart kept step =>
    have hrel := h.mirrors.step apart kept
    rw [step] at hrel
    generalize hn : n.step event = result at hrel
    cases hrel with
    | some hmirrors =>
      exact ⟨_, .event ((h.mirrors.sweeps_eq event).trans apart) kept hn, hmirrors,
        h.coherent.step step, h.coherent'.step hn⟩
  | @pass place next lonely begins toils ended =>
    obtain ⟨k, n', hk, hkended, hn', hended, htwins⟩ := h.ends lonely begins
    rw [toils.unique hk ended hkended]
    have hbegins := (h.mirrors.frameAt_eq place).trans begins
    exact ⟨n', .pass (h.mirrors.lonely lonely) hbegins hn' hended, htwins⟩

/-- Shards list their rows in other orders. -/
inductive Shuffled : Machine layout -> Machine layout -> Prop where
  | refl (m : Machine layout) : Shuffled m m
  | step {m next k : Machine layout} {shard : Nat} {rows : Table Key Entry}
      (moved : m.step (.reorder shard rows) = some next) (rest : Shuffled next k) : Shuffled m k

theorem Twins.shuffled (h : m.Twins n) {m' : Machine layout} (hshuffled : m.Shuffled m') :
    m'.Twins n := by
  induction hshuffled with
  | refl => exact h
  | step moved rest ih => exact ih ⟨h.mirrors.reorder moved, h.coherent.step moved, h.coherent'⟩

/-- Strokes one after another, with the rows of shards in any order before each of them. -/
def Plays (m : Machine layout) : List Stroke -> Machine layout -> Prop
  | [], k => m.Shuffled k
  | stroke :: strokes, k =>
      ∃ ready next, m.Shuffled ready ∧ ready.Does stroke next ∧ next.Plays strokes k

theorem Twins.plays (h : m.Twins n) {strokes : List Stroke} {m' : Machine layout}
    {n' : Machine other} (hm : m.Plays strokes m') (hn : n.Plays strokes n') : m'.Twins n' := by
  induction strokes generalizing m n with
  | nil => exact ((h.shuffled hm).symm.shuffled hn).symm
  | cons stroke strokes ih =>
    obtain ⟨ready, next, hready, hdoes, hrest⟩ := hm
    obtain ⟨ready', next', hready', hdoes', hrest'⟩ := hn
    obtain ⟨same, hsame, htwins⟩ := ((h.shuffled hready).symm.shuffled hready').symm.does hdoes
    rw [hsame.unique hdoes'] at htwins
    exact ih htwins hrest hrest'

theorem Twins.exists_plays (h : m.Twins n) {strokes : List Stroke} {m' : Machine layout}
    (hm : m.Plays strokes m') : ∃ n', n.Plays strokes n' := by
  induction strokes generalizing m n with
  | nil => exact ⟨n, .refl n⟩
  | cons stroke strokes ih =>
    obtain ⟨ready, next, hready, hdoes, hrest⟩ := hm
    obtain ⟨next', hdoes', htwins⟩ := (h.shuffled hready).does hdoes
    obtain ⟨n', hn'⟩ := ih htwins hrest
    exact ⟨n', n, next', .refl n, hdoes', hn'⟩

theorem Shuffled.plays {k o : Machine layout} {strokes : List Stroke} (h : m.Shuffled k)
    (hlater : k.Plays strokes o) : m.Plays strokes o := by
  have trans : ∀ {m k o : Machine layout}, m.Shuffled k → k.Shuffled o → m.Shuffled o := by
    intro m k o h hlater
    induction h with
    | refl => exact hlater
    | step moved rest ih => exact .step moved (ih hlater)
  cases strokes with
  | nil => exact trans h hlater
  | cons stroke strokes =>
    obtain ⟨ready, next, hready, hrest⟩ := hlater
    exact ⟨ready, next, trans h hready, hrest⟩

theorem Plays.append {k o : Machine layout} {strokes more : List Stroke} (h : m.Plays strokes k)
    (hlater : k.Plays more o) : m.Plays (strokes ++ more) o := by
  induction strokes generalizing m with
  | nil => exact Shuffled.plays h hlater
  | cons stroke strokes ih =>
    obtain ⟨ready, next, hready, hdoes, hrest⟩ := h
    exact ⟨ready, next, hready, hdoes, ih hrest⟩

theorem plays_of_run {k : Machine layout} {events : List Event}
    (hheeds : m.Heeds (fun m event => m.sweeps event = false ∧ event.isReorder = false) events)
    (hrun : m.runAll events = some k) : m.Plays (events.map .event) k := by
  induction events generalizing m with
  | nil =>
    cases hrun
    exact Shuffled.refl _
  | cons event events ih =>
    obtain ⟨next, hstep, hrest⟩ := Option.bind_eq_some_iff.mp hrun
    exact ⟨m, next, .refl m, .event hheeds.1.1 hheeds.1.2 hstep, ih (hheeds.2 next hstep) hrest⟩

theorem toils_of_run {k : Machine layout} (steps : Nat)
    (hheeds : m.Heeds (fun m _ => m.isActive place = true)
      (List.replicate steps (.run place.worker)))
    (hrun : m.runAll (List.replicate steps (.run place.worker)) = some k) : m.Toils place k := by
  induction steps generalizing m with
  | zero =>
    cases hrun
    exact .refl _
  | succ steps ih =>
    obtain ⟨next, hstep, hrest⟩ := Option.bind_eq_some_iff.mp hrun
    exact .step hheeds.1 hstep (ih (hheeds.2 next hstep) hrest)

/-! ## What can be told -/

/-- What can be asked of a machine between two strokes. -/
def reading (m : Machine layout) : Reading where
  answer number := (m.client number).answer
  len := m.cache.store.size
  ranking := m.cache.evictor.map Evictor.worst
  running := m.cache.sweeper.running

theorem Mirrors.reading_eq (h : m.Mirrors n) : m.reading = n.reading := by
  simp only [reading, h.clients, h.cache.size_eq, h.cache.worst_eq, h.cache.sweeper]

theorem twins_ofConfig {config : Config}
    (hevictor : ∀ evictor, config.evictor = some evictor → evictor.Origin) (layout other : Layout)
    (clock : Instant) : (ofConfig layout config clock).Twins (ofConfig other config clock) := by
  refine ⟨⟨?_, fun _ => rfl, fun _ => rfl⟩, coherent_ofConfig hevictor clock,
    coherent_ofConfig hevictor clock⟩
  have hsame : Option.Rel Evictor.Mirrors config.evictor config.evictor := by
    cases hconfig : config.evictor with
    | none => exact .none
    | some evictor => exact .some (.refl (hevictor evictor hconfig).sound)
  exact ⟨rfl, fun key => by simp [ofConfig, Cache.ofConfig], Store.placed_empty,
    Store.placed_empty, rfl, hsame, rfl, rfl, rfl, rfl, rfl, rfl⟩

/--
Every stored key is in one shard, and is counted and listed once.  A pass that runs by itself is
about to visit the stored keys, each of them once, and comes to its end.
-/
structure Partitioned (m : Machine layout) : Prop where
  housed : ∀ key, m.cache.contains key = true →
    ∃! number, ∃ rows, m.cache.store.shard? number = some rows ∧ key ∈ rows.keys
  counted : m.cache.store.size = m.cache.store.keys.length
  nodup : m.cache.store.keys.Nodup
  listed : ∀ key, key ∈ m.cache.store.keys ↔ m.cache.contains key = true
  surveyed : ∀ place, m.Lonely place → m.frameAt place = some (.pass .enter) →
    ∃ next last keys, m.Toils place next ∧
      next.frameAt place = some (.pass (.visit .expiry keys ⟨m.cache.clock, [], false⟩)) ∧
      keys.Nodup ∧ (∀ key, key ∈ keys ↔ m.cache.contains key = true) ∧ m.Does (.pass place) last

theorem Coherent.partitioned (h : m.Coherent) : m.Partitioned where
  housed key hkey := by
    refine ⟨layout.place key, ⟨_, m.cache.store.shard?_shardOf key, ?_⟩, ?_⟩
    · exact Table.mem_keys_iff.mpr hkey
    · rintro number ⟨rows, hrows, hmem⟩
      exact (h.placed _ _ _ hrows hmem).symm
  counted := (Store.length_keys _).symm
  nodup := h.placed.nodup_keys
  listed key := h.placed.mem_keys
  surveyed place hlonely hframe := by
    have halone := h.alone hframe
    have hcalm := hlonely.undisturbed
    obtain ⟨listed, hlisted, hthere, -, -⟩ := halone.sets_out (hcalm.unhindered h.mem_itinerary)
    obtain ⟨last, -, htoils, hended, -, -⟩ := halone.ends hcalm
    exact ⟨listed, last, _, hlisted, hthere.frame, h.placed.nodup_keys,
      fun key => h.placed.mem_keys, .pass hlonely hframe htoils hended.frame⟩

/--
Caches with the same options cannot be told apart by how many shards they have, where keys belong
and in which order shards list their rows, be it one shard for all keys: they can do the same, and
whatever they have done, they read the same.
-/
theorem sharding_is_invisible {config : Config}
    (hevictor : ∀ evictor, config.evictor = some evictor → evictor.Origin) (layout other : Layout)
    (clock : Instant) :
    (∀ strokes, (∃ m, (ofConfig layout config clock).Plays strokes m) ↔
      ∃ n, (ofConfig other config clock).Plays strokes n) ∧
    (∀ strokes m n, (ofConfig layout config clock).Plays strokes m →
      (ofConfig other config clock).Plays strokes n → m.reading = n.reading ∧
        ∀ stroke, (∃ next, m.Does stroke next) ↔ ∃ next, n.Does stroke next) ∧
    ∀ events m, (ofConfig layout config clock).runAll events = some m → m.Partitioned := by
  have htwins := twins_ofConfig hevictor layout other clock
  have follows : ∀ {l k : Layout} {m : Machine l} {n : Machine k}, m.Twins n → ∀ {stroke},
      (∃ next, m.Does stroke next) → ∃ next, n.Does stroke next := by
    rintro l k m n h stroke ⟨next, hdoes⟩
    obtain ⟨next', hdoes', -⟩ := h.does hdoes
    exact ⟨next', hdoes'⟩
  refine ⟨fun strokes => ⟨?_, ?_⟩, fun strokes m n hm hn => ?_, fun events m hrun => ?_⟩
  · rintro ⟨m, hm⟩
    exact htwins.exists_plays hm
  · rintro ⟨n, hn⟩
    exact htwins.symm.exists_plays hn
  · have hlater := htwins.plays hm hn
    exact ⟨hlater.mirrors.reading_eq, fun stroke => ⟨follows hlater, follows hlater.symm⟩⟩
  · exact (coherent_of_run hevictor hrun).partitioned

def apart : Layout := ⟨2, fun key => if key = "a" then 0 else 1⟩

/-- A pass evicts the key that was stored first, be it in a shard of its own or not. -/
theorem sharding_is_invisible_evicting :
    ∃ (strokes : List Stroke) (m : Machine apart) (n : Machine .flat),
      (ofConfig apart keepLast ⟨0⟩).Plays strokes m ∧
      (ofConfig .flat keepLast ⟨0⟩).Plays strokes n ∧ m.reading = n.reading ∧
      n.reading.len = 1 ∧ n.reading.ranking = some ["b"] ∧
      n.reading.answer 1 = some (.flag false) := by
  let events : List Event := creation 0 "a" leastTtl .unit ++
    [.call 0 (.access "a" (.extend ⟨100⟩))] ++ List.replicate 5 (.run (.client 0)) ++
    creation 0 "b" leastTtl .unit ++ [.call 0 (.access "b" (.extend ⟨100⟩))] ++
    List.replicate 5 (.run (.client 0)) ++ [.call 1 .purge]
  have hrun : (ofConfig apart keepLast ⟨0⟩).runAll events = some _ := rfl
  have hfirst := plays_of_run (by decide) hrun
  have hboth := hfirst.append (show Plays _ [.pass (.client 1 0)] _ from
    ⟨_, _, .refl _, .pass (lonely_of_places (by decide)) rfl (toils_of_run 32 (by decide) rfl) rfl,
      .refl _⟩)
  obtain ⟨hcan, hreads, -⟩ := sharding_is_invisible origin_keepLast apart .flat ⟨0⟩
  obtain ⟨n, hn⟩ := (hcan _).mp ⟨_, hboth⟩
  have hreading := (hreads _ _ _ hboth hn).1
  refine ⟨_, _, n, hboth, hn, hreading, ?_, ?_, ?_⟩
  · rw [← hreading]
    decide
  · rw [← hreading]
    decide
  · rw [← hreading]
    decide

end Machine

end TtlCache
