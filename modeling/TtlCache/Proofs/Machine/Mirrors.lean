import TtlCache.Proofs.Machine.Attendance
import TtlCache.Proofs.Machine.Losses

/-!
# Mirrored machines

Machines whose entries are spread over shards in different ways mirror each other if they agree on
everything that an operation on a key can see: which entry a key has, what the evictor answers, and
all that has nothing to do with entries.  Such an operation can do the same on both, and both mirror
each other after it.
-/

namespace TtlCache

variable {layout other : Layout}

/-! ## Related results -/

section Related

variable {α β γ δ : Type} {R : α → β → Prop} {S : γ → δ → Prop}

theorem rel_map {x : Option α} {y : Option β} {f : α → γ} {g : β → δ} (h : Option.Rel R x y)
    (hmap : ∀ a b, R a b → S (f a) (g b)) : Option.Rel S (x.map f) (y.map g) := by
  cases h with
  | some h => exact .some (hmap _ _ h)
  | none => exact .none

theorem rel_map_of_eq {x y : Option α} {f : α → γ} {g : α → δ} (h : y = x)
    (hmap : ∀ a, S (f a) (g a)) : Option.Rel S (x.map f) (y.map g) := by
  subst h
  cases y with
  | some a => exact .some (hmap a)
  | none => exact .none

theorem map_eq_of_rel {x : Option α} {y : Option β} {f : α → γ} {g : β → γ}
    (h : Option.Rel R x y) (hmap : ∀ a b, R a b → f a = g b) : x.map f = y.map g := by
  cases h with
  | some h => exact congrArg some (hmap _ _ h)
  | none => rfl

theorem rel_swap {x : Option α} {y : Option β} {R' : β → α → Prop} (h : Option.Rel R x y)
    (hswap : ∀ a b, R a b → R' b a) : Option.Rel R' y x := by
  cases h with
  | some h => exact .some (hswap _ _ h)
  | none => exact .none

theorem rel_bind {x : Option α} {y : Option β} {f : α → Option γ} {g : β → Option δ}
    (h : Option.Rel R x y) (hbind : ∀ a b, R a b → Option.Rel S (f a) (g b)) :
    Option.Rel S (x.bind f) (y.bind g) := by
  cases h with
  | some h => exact hbind _ _ h
  | none => exact .none

end Related

/-! ## Evictors -/

/-- Two evictors that give the same answers whatever they are told. -/
structure Evictor.Mirrors (e f : Evictor) : Prop where
  custom : f.custom = e.custom
  agrees : e.ranking.Agrees f.ranking
  sound : e.ranking.Sound
  sound' : f.ranking.Sound

namespace Evictor.Mirrors

variable {e f : Evictor}

theorem refl (h : e.ranking.Sound) : e.Mirrors e := ⟨rfl, .refl _, h, h⟩

theorem symm (h : e.Mirrors f) : f.Mirrors e := ⟨h.custom.symm, h.agrees.symm, h.sound', h.sound⟩

theorem used (h : e.Mirrors f) (key : Key) : (e.used key).Mirrors (f.used key) where
  custom := h.custom
  agrees := h.agrees.used h.sound h.sound' key
  sound := (h.sound.used key).1
  sound' := (h.sound'.used key).1

theorem remove (h : e.Mirrors f) (key : Key) : (e.remove key).Mirrors (f.remove key) where
  custom := h.custom
  agrees := h.agrees.remove h.sound h.sound' key
  sound := (h.sound.remove key).1
  sound' := (h.sound'.remove key).1

theorem foldl_remove (h : e.Mirrors f) {keys others : List Key} (hperm : keys.Perm others) :
    (keys.foldl Evictor.remove e).Mirrors (others.foldl Evictor.remove f) := by
  rw [Evictor.foldl_remove, Evictor.foldl_remove]
  exact ⟨h.custom, h.agrees.foldl_remove hperm h.sound h.sound', (h.sound.foldl_remove _).1,
    (h.sound'.foldl_remove _).1⟩

theorem worst_eq (h : e.Mirrors f) : f.worst = e.worst :=
  (h.agrees.worst_eq h.sound h.sound').symm

theorem excess_eq (h : e.Mirrors f) : f.excess = e.excess := by
  have hexcess := h.agrees.excess_eq h.sound h.sound'
  simp only [excess, h.custom, hexcess]

end Evictor.Mirrors

/-! ## Caches -/

/-- Two caches that differ in nothing but where and in which order their entries stand. -/
structure Cache.Mirrors (c : Cache layout) (d : Cache other) : Prop where
  clock : d.clock = c.clock
  store : ∀ key, d.store.get? key = c.store.get? key
  placed : c.store.Placed
  placed' : d.store.Placed
  locks : d.locks = c.locks
  evictor : Option.Rel Evictor.Mirrors c.evictor d.evictor
  sweeper : d.sweeper = c.sweeper
  passLock : d.passLock = c.passLock
  passQueue : d.passQueue = c.passQueue
  tally : d.tally = c.tally
  takenAt : d.takenAt = c.takenAt
  handles : d.handles = c.handles

namespace Cache.Mirrors

variable {c : Cache layout} {d : Cache other}

theorem symm (h : c.Mirrors d) : d.Mirrors c where
  clock := h.clock.symm
  store key := (h.store key).symm
  placed := h.placed'
  placed' := h.placed
  locks := h.locks.symm
  evictor := rel_swap h.evictor fun _ _ hevictor => hevictor.symm
  sweeper := h.sweeper.symm
  passLock := h.passLock.symm
  passQueue := h.passQueue.symm
  tally := h.tally.symm
  takenAt := h.takenAt.symm
  handles := h.handles.symm

theorem contains_eq (h : c.Mirrors d) : d.contains = c.contains := by
  funext key
  rw [Cache.contains, Cache.contains, h.store]

theorem keys_perm (h : c.Mirrors d) : d.store.keys.Perm c.store.keys :=
  h.placed.keys_perm h.placed' fun key => by rw [h.store]

theorem size_eq (h : c.Mirrors d) : d.store.size = c.store.size := by
  rw [← Store.length_keys, ← Store.length_keys, h.keys_perm.length_eq]

theorem worst_eq (h : c.Mirrors d) :
    d.evictor.map Evictor.worst = c.evictor.map Evictor.worst :=
  (map_eq_of_rel h.evictor fun _ _ hevictor => hevictor.worst_eq.symm).symm

theorem insert (h : c.Mirrors d) (key : Key) (entry : Entry) :
    Mirrors { c with store := c.store.insert key entry }
      { d with store := d.store.insert key entry } where
  __ := h
  store k := by rw [Store.get?_insert, Store.get?_insert, h.store]
  placed := h.placed.insert key entry
  placed' := h.placed'.insert key entry

theorem erase (h : c.Mirrors d) (key : Key) :
    Mirrors { c with store := c.store.erase key } { d with store := d.store.erase key } where
  __ := h
  store k := by rw [Store.get?_erase, Store.get?_erase, h.store]
  placed := h.placed.erase key
  placed' := h.placed'.erase key

theorem notifyUsed (h : c.Mirrors d) (key : Key) :
    (c.notifyUsed key).Mirrors (d.notifyUsed key) where
  __ := h
  evictor := rel_map h.evictor fun _ _ hevictor => hevictor.used key

theorem notifyRemoved (h : c.Mirrors d) (key : Key) :
    (c.notifyRemoved key).Mirrors (d.notifyRemoved key) where
  __ := h
  evictor := rel_map h.evictor fun _ _ hevictor => hevictor.remove key

theorem count (h : c.Mirrors d) (counter : Counter) :
    (c.count counter).Mirrors (d.count counter) where
  __ := h
  tally := congrArg (fun tally => tally.count counter) h.tally

theorem relock (h : c.Mirrors d) (locks : LockTable Key) :
    (c.relock locks).Mirrors (d.relock locks) where
  __ := h
  locks := rfl

theorem resweep (h : c.Mirrors d) (sweeper : Sweeper) :
    Mirrors { c with sweeper := sweeper } { d with sweeper := sweeper } where
  __ := h
  sweeper := rfl

theorem attach (h : c.Mirrors d) : c.attach.Mirrors d.attach where
  __ := h
  handles := congrArg (· + 1) h.handles

theorem detach (h : c.Mirrors d) : Option.Rel Mirrors c.detach d.detach := by
  unfold Cache.detach
  rw [h.handles]
  split
  · exact .none
  · exact rel_map_of_eq (congrArg Sweeper.close h.sweeper) fun sweeper =>
      { h with sweeper := rfl, handles := rfl }
  · exact .some { h with handles := rfl }

theorem apply (h : c.Mirrors d) (effect : Effect) :
    Option.Rel Mirrors (effect.apply c) (effect.apply d) := by
  cases effect with
  | erase key => exact .some (h.erase key)
  | put key value deadline => exact .some (h.insert key _)
  | use key => exact .some (h.notifyUsed key)
  | untrack key => exact .some (h.notifyRemoved key)
  | count counter => exact .some (h.count counter)
  | wake =>
    exact rel_map_of_eq (congrArg Sweeper.start h.sweeper) fun sweeper => h.resweep sweeper

end Cache.Mirrors

/-! ## Steps -/

/-- After a step both caches mirror each other, and the operation goes on in the same way. -/
def InStep {φ : Type} (x : Cache layout × φ) (y : Cache other × φ) : Prop :=
  x.1.Mirrors y.1 ∧ x.2 = y.2

variable {c : Cache layout} {d : Cache other}

theorem Access.mirrors_look (h : c.Mirrors d) (a : Access) (ticket : Nat) :
    InStep (a.look c ticket) (a.look d ticket) := by
  unfold look
  rw [h.store]
  split
  · exact ⟨h, rfl⟩
  · next entry _ =>
    refine ⟨?_, congrArg (lookEntry a.key ticket entry · a.request) h.clock.symm⟩
    cases a.request with
    | get kind => exact h
    | create kind ttl => exact h
    | extend deadline => exact h.insert _ _
    | forget => exact h.erase _

theorem Access.mirrors_step (h : c.Mirrors d) (a : Access) :
    Option.Rel InStep (a.step c) (a.step d) := by
  unfold step
  split
  · rw [h.locks]
    exact .some ⟨h.relock _, rfl⟩
  · next ticket _ =>
    refine rel_map_of_eq ?_ fun locks => ⟨h.relock locks, rfl⟩
    rw [h.locks]
  · next ticket _ =>
    obtain ⟨hmirrors, hpoint⟩ := a.mirrors_look h ticket
    exact .some ⟨hmirrors, congrArg a.moveTo hpoint⟩
  · exact .some ⟨h.count .miss, rfl⟩
  · exact .none
  · next effect todo answer _ => exact rel_map (h.apply effect) fun _ _ hafter => ⟨hafter, rfl⟩
  · rw [h.locks]
    split
    · exact .some ⟨h.relock _, rfl⟩
    · exact .some ⟨h.relock _, rfl⟩
  · rw [h.locks]
    exact .some ⟨h.relock _, rfl⟩

theorem Frame.mirrors_step (h : c.Mirrors d) {frame : Frame} (hframe : frame.isPass = false)
    (who : Worker) : Option.Rel InStep (frame.step who c) (frame.step who d) := by
  cases frame with
  | access a =>
    refine rel_map (a.mirrors_step h) fun x y hstep => ⟨hstep.1, ?_⟩
    exact congrArg (Progress.map Frame.access) hstep.2
  | pass p => cases hframe
  | clock =>
    refine .some ⟨{ h with takenAt := h.clock }, ?_⟩
    simp only [h.clock, h.takenAt]
  | taking taking =>
    obtain ⟨elapsed, todo, taken⟩ := taking
    cases todo with
    | nil => exact .some ⟨h, rfl⟩
    | cons counter todo =>
      refine .some ⟨{ h with tally := congrArg (fun tally => tally.set counter 0) h.tally }, ?_⟩
      simp only [h.tally]

def Event.isReorder : Event -> Bool
  | .reorder _ _ => true
  | _ => false

/-! ## Machines -/

theorem Table.size_congr {κ α β : Type} [DecidableEq κ] {t : Table κ α} {u : Table κ β}
    (h : ∀ key, (u.get? key).isSome = (t.get? key).isSome) : u.size = t.size := by
  have hperm : u.keys.Perm t.keys := by
    rw [List.perm_ext_iff_of_nodup u.nodup_keys t.nodup_keys]
    intro key
    rw [Table.mem_keys_iff, Table.mem_keys_iff, h]
  rw [← Table.length_keys, ← Table.length_keys, hperm.length_eq]

namespace Machine

variable {m : Machine layout} {n : Machine other}

theorem isQuiet_iff : m.isQuiet = true ↔ ∀ number, (m.client number).stack = [] := by
  refine ⟨stack_eq_nil_of_isQuiet, fun h => ?_⟩
  rw [isQuiet, List.all_eq_true]
  rintro ⟨number, found⟩ hrow
  have hnone := h number
  rw [client, Table.get?_eq_some_iff.mpr hrow] at hnone
  exact List.isEmpty_iff.mpr hnone

/-- Two machines that differ in nothing but where and in which order their entries stand. -/
structure Mirrors (m : Machine layout) (n : Machine other) : Prop where
  cache : m.cache.Mirrors n.cache
  clients : ∀ number, n.client number = m.client number
  passes : ∀ generation, n.passes.get? generation = m.passes.get? generation

namespace Mirrors

theorem symm (h : m.Mirrors n) : n.Mirrors m where
  cache := h.cache.symm
  clients number := (h.clients number).symm
  passes generation := (h.passes generation).symm

theorem frameAt_eq (h : m.Mirrors n) (place : Place) : n.frameAt place = m.frameAt place := by
  cases place with
  | client number depth => simp only [frameAt, h.clients]
  | sweeper generation => simp only [frameAt, h.passes]

theorem clientHandles_eq (h : m.Mirrors n) : n.clientHandles = m.clientHandles := by
  rw [clientHandles, clientHandles, h.cache.handles,
    Table.size_congr fun generation => congrArg Option.isSome (h.passes generation)]

theorem isQuiet_eq (h : m.Mirrors n) : n.isQuiet = m.isQuiet := by
  rw [Bool.eq_iff_iff, isQuiet_iff, isQuiet_iff]
  exact forall_congr' fun number => by rw [h.clients]

theorem setClient (h : m.Mirrors n) (number : Nat) (client : Client) :
    (m.setClient number client).Mirrors (n.setClient number client) where
  cache := h.cache
  clients k := by rw [client_setClient, client_setClient, h.clients]
  passes := h.passes

theorem recache (h : m.Mirrors n) {c : Cache layout} {d : Cache other} (hcache : c.Mirrors d) :
    Mirrors { m with cache := c } { n with cache := d } :=
  ⟨hcache, h.clients, h.passes⟩

theorem call (h : m.Mirrors n) (number : Nat) (request : Call) :
    Option.Rel Mirrors (m.call number request) (n.call number request) := by
  unfold Machine.call
  rw [h.clients, h.clientHandles_eq]
  dsimp only
  split
  · cases opening request with
    | more frame => exact .some (h.setClient _ _)
    | done answer => exact .some (h.setClient _ _)
  · exact .none

theorem provide (h : m.Mirrors n) (number : Nat) (outcome : Outcome) :
    Option.Rel Mirrors (m.provide number outcome) (n.provide number outcome) := by
  unfold Machine.provide
  rw [h.clients, h.cache.clock]
  dsimp only
  split
  · exact rel_map_of_eq rfl fun access => h.setClient _ _
  · exact .none

theorem runClient (h : m.Mirrors n) {number : Nat}
    (hpass : ∀ frame ∈ (m.client number).stack.head?, frame.isPass = false) :
    Option.Rel Mirrors (m.runClient number) (n.runClient number) := by
  unfold Machine.runClient
  rw [h.clients]
  dsimp only
  cases hstack : (m.client number).stack with
  | nil => exact .none
  | cons frame outer =>
    have hframe : frame.isPass = false := hpass frame (by rw [hstack]; rfl)
    refine rel_map (Frame.mirrors_step h.cache hframe _) ?_
    rintro ⟨c, progress⟩ ⟨d, same⟩ ⟨hcache, hsame⟩
    cases hsame
    cases progress with
    | more next => exact (h.recache hcache).setClient _ _
    | done answer => exact (h.recache hcache).setClient _ _

theorem runSweeper (h : m.Mirrors n) {generation : Nat}
    (hpass : m.cache.sweeper.threads.get? generation = some .passing →
      m.passes.get? generation = none) :
    Option.Rel Mirrors (m.runSweeper generation) (n.runSweeper generation) := by
  unfold Machine.runSweeper
  rw [h.cache.sweeper]
  split
  · next hpassing =>
    have hnone := hpass hpassing
    unfold runPass
    rw [h.passes, hnone, h.cache.handles]
    dsimp only
    split
    · refine rel_map_of_eq (congrArg (Sweeper.endPass · generation false) h.cache.sweeper) ?_
      exact fun sweeper => h.recache (h.cache.resweep sweeper)
    · refine .some ⟨h.cache.attach, h.clients, fun other => ?_⟩
      simp only [Table.get?_insert, h.passes]
  · refine rel_map_of_eq ?_ fun sweeper => h.recache (h.cache.resweep sweeper)
    rw [h.cache.clock]

/-- Laying out a shard anew changes nothing that can be seen. -/
theorem reorder (h : m.Mirrors n) {shard : Nat} {rows : Table Key Entry} {m' : Machine layout}
    (hstep : m.step (.reorder shard rows) = some m') : m'.Mirrors n := by
  obtain ⟨store, hstore, rfl⟩ := Option.map_eq_some_iff.mp hstep
  refine ⟨?_, h.clients, h.passes⟩
  exact {
    h.cache with
    store := fun key => (h.cache.store key).trans (Store.get?_reorder? hstore key).symm
    placed := h.cache.placed.reorder hstore }

end Mirrors

def sweeps (m : Machine layout) (event : Event) : Bool :=
  (m.acting event).any fun place => (m.frameAt place).any Frame.isPass

/--
What one of two mirrored machines can do the other can do as well, as long as no pass takes a step
and no rows are moved; afterwards both mirror each other.
-/
theorem Mirrors.step (h : m.Mirrors n) {event : Event} (hpass : m.sweeps event = false)
    (hreorder : event.isReorder = false) :
    Option.Rel Mirrors (m.step event) (n.step event) := by
  cases event with
  | call number request => exact h.call number request
  | provide number outcome => exact h.provide number outcome
  | run worker =>
    cases worker with
    | client number =>
      refine h.runClient fun frame hframe => ?_
      cases hstack : (m.client number).stack with
      | nil => simp [hstack] at hframe
      | cons top outer =>
        rw [hstack] at hframe
        cases hframe
        simpa [sweeps, acting, innermost_eq hstack, frameAt_innermost hstack] using hpass
    | sweeper generation =>
      refine h.runSweeper fun hpassing => ?_
      cases hnone : m.passes.get? generation with
      | none => rfl
      | some p =>
        simp [sweeps, acting, hpassing, Table.contains, hnone, frameAt, Frame.isPass] at hpass
  | tick elapsed =>
    simp only [Machine.step]
    rw [h.cache.clock]
    exact rel_map_of_eq rfl fun clock => h.recache { h.cache with clock := rfl }
  | attach =>
    simp only [Machine.step]
    rw [h.clientHandles_eq]
    split
    · exact .some (h.recache h.cache.attach)
    · exact .none
  | detach =>
    simp only [Machine.step]
    rw [h.clientHandles_eq, h.isQuiet_eq]
    split
    · exact rel_map h.cache.detach fun _ _ hcache => h.recache hcache
    · exact .none
  | reorder shard rows => cases hreorder

end Machine

end TtlCache
