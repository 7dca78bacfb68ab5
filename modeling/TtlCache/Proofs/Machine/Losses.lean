import TtlCache.Cache.Machine
import TtlCache.Proofs.Ranking.Order
import TtlCache.Proofs.Store.Keys

/-!
# What a pass takes out of a cache

A pass that nobody disturbs is a function of the cache: `Cache.expired` are the keys that expire,
`Cache.surplus` those that the evictor is to be rid of, and `Cache.passResult` is what the pass
comes to.  One key after another is removed, but what is left does not depend on which one goes
first.
-/

namespace TtlCache

variable {layout : Layout}

/-! ## One removal after another -/

theorem filter_notMem_take {α : Type} [DecidableEq α] {items : List α} (h : items.Nodup)
    (count : Nat) :
    items.filter (fun item => decide (item ∉ items.take count)) = items.drop count := by
  have hdisjoint :=
    (List.nodup_append.mp ((List.take_append_drop count items).symm ▸ h)).2.2
  conv_lhs => arg 2; rw [← List.take_append_drop count items]
  rw [List.filter_append, List.filter_eq_nil_iff.mpr, List.nil_append, List.filter_eq_self.mpr]
  · intro item hitem
    exact decide_eq_true fun htaken => hdisjoint item htaken item hitem rfl
  · intro item hitem
    simpa using hitem

theorem Tally.foldl_count (counter : Counter) (keys : List Key) (t : Tally) :
    (keys.map fun _ => counter).foldl count t = t.set counter (t.get counter + keys.length) := by
  induction keys generalizing t with
  | nil => cases counter <;> rfl
  | cons key keys ih =>
    rw [List.map_cons, List.foldl_cons, ih, get_count, if_pos rfl, List.length_cons,
      Nat.add_assoc, Nat.add_comm 1]
    cases counter <;> rfl

namespace Store

theorem get?_foldl_erase (keys : List Key) (s : Store layout) (key : Key) :
    (keys.foldl erase s).get? key = if key ∈ keys then none else s.get? key := by
  induction keys generalizing s with
  | nil => rfl
  | cons first keys ih =>
    rw [List.foldl_cons, ih, get?_erase]
    by_cases hfirst : key = first <;> simp [hfirst]

theorem Placed.foldl_erase {s : Store layout} (h : s.Placed) (keys : List Key) :
    (keys.foldl Store.erase s).Placed := by
  induction keys generalizing s with
  | nil => exact h
  | cons key keys ih => exact ih (h.erase key)

end Store

namespace Ranking

variable {r s : Ranking}

theorem Sound.foldl_remove (h : r.Sound) (keys : List Key) :
    (keys.foldl Ranking.remove r).Sound ∧
      (keys.foldl Ranking.remove r).worst = r.worst.filter fun key => decide (key ∉ keys) := by
  induction keys generalizing r with
  | nil => exact ⟨h, by simp⟩
  | cons first keys ih =>
    obtain ⟨hsound, hworst⟩ := ih (h.remove first).1
    refine ⟨hsound, hworst.trans ?_⟩
    rw [h.worst_remove, List.filter_filter]
    simp [not_or, Bool.and_comm]

theorem capacity_foldl_remove (keys : List Key) (r : Ranking) :
    (keys.foldl Ranking.remove r).capacity = r.capacity := by
  induction keys generalizing r with
  | nil => rfl
  | cons key keys ih => rw [List.foldl_cons, ih, capacity_remove]

theorem Agrees.foldl_remove {keys others : List Key} (hperm : keys.Perm others) (h : r.Agrees s)
    (hr : r.Sound) (hs : s.Sound) :
    (keys.foldl Ranking.remove r).Agrees (others.foldl Ranking.remove s) := by
  have same : ∀ (keys : List Key) (r s : Ranking), r.Agrees s → r.Sound → s.Sound →
      (keys.foldl Ranking.remove r).Agrees (keys.foldl Ranking.remove s) := by
    intro keys
    induction keys with
    | nil => exact fun r s h _ _ => h
    | cons key keys ih =>
      exact fun r s h hr hs => ih _ _ (h.remove hr hs key) (hr.remove key).1 (hs.remove key).1
  induction hperm generalizing r s with
  | nil => exact h
  | cons key _ ih => exact ih (h.remove hr hs key) (hr.remove key).1 (hs.remove key).1
  | swap a b keys =>
    have hfirst := (h.remove hr hs a).remove (hr.remove a).1 (hs.remove a).1 b
    exact same keys _ _ ((Agrees.remove_comm hr b a).trans hfirst)
      ((hr.remove b).1.remove a).1 ((hs.remove a).1.remove b).1
  | trans _ _ ih ih' => exact (ih h hr hs).trans (ih' (.refl s) hs hs)

end Ranking

theorem Evictor.foldl_remove (keys : List Key) (evictor : Evictor) :
    keys.foldl remove evictor =
      { evictor with ranking := keys.foldl Ranking.remove evictor.ranking } := by
  induction keys generalizing evictor with
  | nil => rfl
  | cons key keys ih => exact ih (evictor.remove key)

/-! ## What becomes of a cache -/

namespace Cache

def isExpiredAt (c : Cache layout) (now : Instant) (key : Key) : Bool :=
  (c.store.get? key).any fun entry => entry.isExpired now

def isLiveAt (c : Cache layout) (now : Instant) (key : Key) : Bool :=
  (c.store.get? key).any fun entry => !entry.isExpired now

def expired (c : Cache layout) : List Key := c.store.keys.filter (c.isExpiredAt c.clock)

def hasLive (c : Cache layout) : Bool := c.store.keys.any (c.isLiveAt c.clock)

/--
The keys that are to go for the sake of the capacity: as many of the worst ranked ones that have not
expired as the evictor has too many, expired ones counted.  Without a live entry nobody asks.
-/
def surplus (c : Cache layout) : Except Panic (List Key) :=
  match c.evictor with
  | none => .ok []
  | some evictor =>
    if c.hasLive then
      evictor.excess.map fun excess =>
        (evictor.worst.filter fun key => !c.expired.contains key).take (excess - c.expired.length)
    else
      .ok []

/-- The keys that a pass visits: the stored ones first, then those that are to go. -/
def itinerary (c : Cache layout) : List Key :=
  match c.surplus with
  | .error _ => c.store.keys
  | .ok surplus => c.store.keys ++ surplus

def drop (c : Cache layout) (target : Removal × Key) : Cache layout :=
  { c with
    store := c.store.erase target.2
    evictor := c.evictor.map fun evictor => evictor.remove target.2
    tally := c.tally.count target.1.counter }

/-- The cache after the expired keys and some surplus ones have been removed. -/
def swept (c : Cache layout) (surplus : List Key) : Cache layout :=
  (c.expired.map (Prod.mk Removal.expired) ++
      (surplus.filter c.contains).map (Prod.mk Removal.evicted)).foldl drop
    ((surplus.filter fun key => !c.contains key).foldl notifyRemoved c)

def decided (c : Cache layout) : Cache layout :=
  { c with sweeper := c.sweeper.endStop (c.store.size == 0) }

/-- What a pass comes to: what becomes of the cache, what is answered, and the guards used up. -/
structure PassResult (layout : Layout) where
  cache : Cache layout
  answer : Answer
  visits : Nat

/-- What a pass alone comes to.  If the evictor panics, nothing is removed. -/
def passResult (c : Cache layout) : PassResult layout :=
  match c.surplus with
  | .error panic => ⟨c, .panicked panic, c.store.keys.length⟩
  | .ok surplus =>
      ⟨(c.swept surplus).decided, .flag ((c.swept surplus).store.size == 0),
        c.store.keys.length + surplus.length⟩

def engage (c : Cache layout) (who : Worker) : Cache layout :=
  { c with passLock := some who, passQueue := (c.passQueue ++ [who]).erase who }

def leave (c : Cache layout) (answer : Answer) : Worker -> Option (Cache layout)
  | .client _ => some { c with passLock := none }
  | .sweeper generation =>
      detach { c with passLock := none } |>.bind fun detached =>
        (detached.sweeper.endPass generation (decide (answer = .flag false))).map fun sweeper =>
          { detached with sweeper := sweeper }

def relock (c : Cache layout) (locks : LockTable Key) : Cache layout := { c with locks := locks }

/-- Nothing is to go for the sake of the capacity unless there is a live entry. -/
theorem surplus_cases {c : Cache layout} {surplus : List Key} (h : c.surplus = .ok surplus) :
    surplus = [] ∨ ∃ evictor count, c.evictor = some evictor ∧ c.hasLive = true ∧
      evictor.excess = .ok count ∧ surplus =
        (evictor.worst.filter fun key => !c.expired.contains key).take
          (count - c.expired.length) := by
  unfold Cache.surplus at h
  split at h
  · cases h
    exact .inl rfl
  · next evictor hevictor =>
    split at h
    · next hlive =>
      cases hexcess : evictor.excess with
      | error panic =>
        rw [hexcess] at h
        cases h
      | ok count =>
        rw [hexcess] at h
        cases h
        exact .inr ⟨evictor, count, hevictor, hlive, hexcess, rfl⟩
    · cases h
      exact .inl rfl

theorem foldl_drop (targets : List (Removal × Key)) (c : Cache layout) :
    targets.foldl drop c =
      { c with
        store := (targets.map Prod.snd).foldl Store.erase c.store
        evictor := c.evictor.map fun evictor => (targets.map Prod.snd).foldl Evictor.remove evictor
        tally := (targets.map fun target => target.1.counter).foldl Tally.count c.tally } := by
  induction targets generalizing c with
  | nil => simp
  | cons target targets ih =>
    rw [List.foldl_cons, ih]
    simp [drop, Function.comp_def]

theorem foldl_notifyRemoved (keys : List Key) (c : Cache layout) :
    keys.foldl notifyRemoved c =
      { c with evictor := c.evictor.map fun evictor => keys.foldl Evictor.remove evictor } := by
  induction keys generalizing c with
  | nil => simp
  | cons key keys ih =>
    rw [List.foldl_cons, ih]
    simp [notifyRemoved, Function.comp_def]

theorem swept_eq (c : Cache layout) (surplus : List Key) :
    c.swept surplus =
      { c with
        store := (c.expired ++ surplus.filter c.contains).foldl Store.erase c.store
        evictor := c.evictor.map fun evictor =>
          ((surplus.filter fun key => !c.contains key) ++
            (c.expired ++ surplus.filter c.contains)).foldl Evictor.remove evictor
        tally := { c.tally with
          expirations := c.tally.expirations + c.expired.length
          evictions := c.tally.evictions + (surplus.filter c.contains).length } } := by
  have hkeys : ((c.expired.map (Prod.mk Removal.expired) ++
      (surplus.filter c.contains).map (Prod.mk Removal.evicted)).map Prod.snd) =
        c.expired ++ surplus.filter c.contains := by
    rw [List.map_append, List.map_map, List.map_map]
    exact congrArg₂ _ (List.map_id _) (List.map_id _)
  have htally : (((c.expired.map (Prod.mk Removal.expired) ++
      (surplus.filter c.contains).map (Prod.mk Removal.evicted)).map fun target =>
        target.1.counter).foldl Tally.count c.tally) =
      { c.tally with
        expirations := c.tally.expirations + c.expired.length
        evictions := c.tally.evictions + (surplus.filter c.contains).length } := by
    rw [List.map_append, List.map_map, List.map_map, List.foldl_append]
    simp only [Function.comp_def, Removal.counter, Tally.foldl_count]
    rfl
  rw [swept, foldl_drop, hkeys, foldl_notifyRemoved, htally, Option.map_map]
  simp only [List.foldl_append, Function.comp_def]

theorem foldl_drop_relock (targets : List (Removal × Key)) (c : Cache layout)
    (locks : LockTable Key) :
    targets.foldl drop (c.relock locks) = (targets.foldl drop c).relock locks :=
  List.foldl_hom (fun c => relock c locks) fun _ _ => rfl

theorem foldl_notifyRemoved_relock (keys : List Key) (c : Cache layout) (locks : LockTable Key) :
    keys.foldl notifyRemoved (c.relock locks) = (keys.foldl notifyRemoved c).relock locks :=
  List.foldl_hom (fun c => relock c locks) fun _ _ => rfl

theorem foldl_drop_engage (targets : List (Removal × Key)) (c : Cache layout) (who : Worker) :
    targets.foldl drop (c.engage who) = (targets.foldl drop c).engage who :=
  List.foldl_hom (fun c => engage c who) fun _ _ => rfl

theorem foldl_notifyRemoved_engage (keys : List Key) (c : Cache layout) (who : Worker) :
    keys.foldl notifyRemoved (c.engage who) = (keys.foldl notifyRemoved c).engage who :=
  List.foldl_hom (fun c => engage c who) fun _ _ => rfl

/-- The end of a pass touches nothing but the turn, handles and the sweeper. -/
structure Left (c d : Cache layout) (answer : Answer) (who : Worker) : Prop where
  store : d.store = c.store
  locks : d.locks = c.locks
  evictor : d.evictor = c.evictor
  tally : d.tally = c.tally
  running : c.sweeper.running = false → d.sweeper.running = false
  thread : ∀ generation, who = .sweeper generation → d.sweeper.threads.get? generation =
    some (if answer = .flag false then .arming else .ending)

theorem left_of_leave {c d : Cache layout} {answer : Answer} {who : Worker}
    (h : c.leave answer who = some d) : c.Left d answer who := by
  cases who with
  | client number =>
    cases h
    exact ⟨rfl, rfl, rfl, rfl, id, fun generation hwho => by cases hwho⟩
  | sweeper generation =>
    obtain ⟨detached, hdetached, hended⟩ := Option.bind_eq_some_iff.mp h
    obtain ⟨sweeper, hsweeper, rfl⟩ := Option.map_eq_some_iff.mp hended
    unfold Sweeper.endPass at hsweeper
    split at hsweeper <;> cases hsweeper
    have hthread : ∀ other, Worker.sweeper generation = .sweeper other →
        ((detached.sweeper.advance generation
          (if decide (answer = .flag false) = true then .arming else .ending)).threads.get? other) =
            some (if answer = .flag false then .arming else .ending) := by
      intro other hother
      cases hother
      simp [Sweeper.advance, Table.get?_insert]
    unfold detach at hdetached
    split at hdetached
    · cases hdetached
    · obtain ⟨closed, hclosed, rfl⟩ := Option.map_eq_some_iff.mp hdetached
      unfold Sweeper.close at hclosed
      split at hclosed <;> cases hclosed
      exact ⟨rfl, rfl, rfl, rfl, fun _ => rfl, hthread⟩
    · cases hdetached
      exact ⟨rfl, rfl, rfl, rfl, id, hthread⟩

end Cache

end TtlCache
