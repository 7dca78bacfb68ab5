import TtlCache.Proofs.Machine.Agreement
import TtlCache.Proofs.Machine.Sweep

/-!
# What a pass clears

A pass that runs by itself clears what has expired and what it goes for besides, whatever that is:
its candidates with entries are evicted, the others are only forgotten.  An evictor keeps the terms
on which it was handed over, so what a pass goes for is told by the ranking and by those terms.
-/

namespace TtlCache

variable {layout : Layout} {c d : Cache layout}

/-! ## The terms of an evictor -/

/-- How an evictor answers for its excess: what its maker told it to say, and its capacity. -/
def Evictor.terms (evictor : Evictor) : Option ExcessRule × Nat :=
  (evictor.custom, evictor.ranking.capacity)

@[simp] theorem Evictor.terms_used (evictor : Evictor) (key : Key) :
    (evictor.used key).terms = evictor.terms := by
  simp [terms, used]

@[simp] theorem Evictor.terms_remove (evictor : Evictor) (key : Key) :
    (evictor.remove key).terms = evictor.terms := by
  simp [terms, remove]

theorem Evictor.terms_builtIn {policy : Policy} {capacity : Nat} {evictor : Evictor}
    (h : builtIn policy capacity = .ok evictor) : evictor.terms = (none, capacity) := by
  rw [terms, (builtIn_spec h).2.2, (ranking_builtIn h).2]

theorem Evictor.excess_of_terms {evictor : Evictor} {capacity : Nat}
    (hterms : evictor.terms = (none, capacity)) (hsound : evictor.ranking.Sound) :
    evictor.excess = .ok (evictor.worst.length - capacity) := by
  obtain ⟨hcustom, hcapacity⟩ := Prod.ext_iff.mp hterms
  simp only [terms] at hcustom hcapacity
  simp only [excess, hcustom, hsound.excess_eq, hcapacity]
  rfl

def Cache.terms (c : Cache layout) : Option (Option ExcessRule × Nat) := c.evictor.map Evictor.terms

theorem Cache.terms_congr (h : d.evictor = c.evictor) : d.terms = c.terms :=
  congrArg (Option.map Evictor.terms) h

@[simp] theorem Cache.terms_notifyUsed (c : Cache layout) (key : Key) :
    (c.notifyUsed key).terms = c.terms := by
  cases hevictor : c.evictor <;> simp [terms, notifyUsed, hevictor]

@[simp] theorem Cache.terms_notifyRemoved (c : Cache layout) (key : Key) :
    (c.notifyRemoved key).terms = c.terms := by
  cases hevictor : c.evictor <;> simp [terms, notifyRemoved, hevictor]

theorem Effect.terms_apply {effect : Effect} (h : effect.apply c = some d) : d.terms = c.terms := by
  cases effect with
  | use key => cases h; exact c.terms_notifyUsed key
  | untrack key => cases h; exact c.terms_notifyRemoved key
  | wake =>
    obtain ⟨sweeper, -, rfl⟩ := Option.map_eq_some_iff.mp h
    rfl
  | _ => cases h; rfl

theorem Access.terms_step {a : Access} {progress : Progress Access}
    (h : a.step c = some (d, progress)) : d.terms = c.terms := by
  cases stride_of_step h with
  | @look key request ticket =>
    have hfinding := finding_look key request (.look ticket) ticket c
    generalize (look ⟨key, request, .look ticket⟩ c ticket).1 = after at hfinding ⊢
    generalize (look ⟨key, request, .look ticket⟩ c ticket).2 = point at hfinding
    cases hfinding <;> rfl
  | effect applied => exact Effect.terms_apply applied
  | _ => rfl

theorem Pass.terms_step {p : Pass} {who : Worker} {progress : Progress Pass}
    (h : p.step who c = some (d, progress)) : d.terms = c.terms := by
  cases stride_of_step h with
  | untrack => exact c.terms_notifyRemoved _
  | effect applied => exact Effect.terms_apply applied
  | dismiss => exact Cache.terms_congr (giveUp_spec c _ _ _ _).2.1
  | removed => exact Cache.terms_congr (giveUp_spec c _ _ _ _).2.1
  | unwind => exact Cache.terms_congr (giveUp_spec c _ _ _ _).2.1
  | _ => rfl

theorem Frame.terms_step {frame : Frame} {who : Worker} {progress : Progress Frame}
    (h : frame.step who c = some (d, progress)) : d.terms = c.terms := by
  cases stride_of_step h with
  | access step => exact Access.terms_step step
  | pass step => exact Pass.terms_step step
  | _ => rfl

theorem Machine.terms_step {m n : Machine layout} {event : Event} (h : m.step event = some n) :
    n.cache.terms = m.cache.terms := by
  cases step_cases h with
  | aside frames alike acting => exact Cache.terms_congr alike.evictor_eq
  | opened place frame fresh free now others alike acting =>
    exact Cache.terms_congr alike.evictor_eq
  | ended place access next outcome was after now others same acting event => rw [same]
  | stepped place frame cache progress was step now others alike acting event =>
    exact (Cache.terms_congr alike.evictor_eq).trans (Frame.terms_step step)

/-! ## Ranked keys and stored keys -/

namespace Cache

/-- The keys whose entries have not expired, the one least worth keeping first. -/
def live (c : Cache layout) (evictor : Evictor) : List Key :=
  evictor.worst.filter (c.isLiveAt c.clock)

theorem contains_of_isLiveAt {now : Instant} {key : Key} (h : c.isLiveAt now key = true) :
    c.contains key = true := by
  cases hentry : c.store.get? key with
  | none => simp [isLiveAt, hentry] at h
  | some entry => simp [contains, hentry]

theorem isExpiredAt_eq {key : Key} (h : c.contains key = true) (now : Instant) :
    c.isExpiredAt now key = !c.isLiveAt now key := by
  cases hentry : c.store.get? key with
  | none => simp [contains, hentry] at h
  | some entry => simp [isLiveAt, isExpiredAt, hentry]

def unexpired (c : Cache layout) (evictor : Evictor) : List Key :=
  evictor.worst.filter fun key => decide (key ∉ c.expired)

/-- The keys that a pass goes for when the evictor wants to be rid of `count` keys. -/
def candidates (c : Cache layout) (evictor : Evictor) (count : Nat) : List Key :=
  (c.unexpired evictor).take (count - c.expired.length)

/-- A cache whose evictor ranks all stored keys, and maybe others. -/
structure Covered (c : Cache layout) (evictor : Evictor) : Prop where
  placed : c.store.Placed
  evictor_eq : c.evictor = some evictor
  sound : evictor.ranking.Sound
  tracks : ∀ key, c.contains key = true → key ∈ evictor.worst

/--
A cache after a pass that went for some candidates: expired entries and candidates are gone, all
else is as it was, and the removed entries have been counted by the reason of their removal.
-/
structure Cleared (c : Cache layout) (evictor : Evictor) (candidates : List Key)
    (d : Cache layout) : Prop where
  store : ∀ key, d.store.get? key =
    if c.isLiveAt c.clock key = true ∧ key ∉ candidates then c.store.get? key else none
  ranking : ∃ later, d.evictor = some later ∧ later.terms = evictor.terms ∧
    later.worst = evictor.worst.filter fun key => decide (key ∉ c.expired ∧ key ∉ candidates)
  tally : d.tally = { c.tally with
    expirations := c.tally.expirations + c.expired.length
    evictions := c.tally.evictions + (candidates.filter c.contains).length }

theorem Cleared.congr {evictor : Evictor} {candidates : List Key} {e : Cache layout}
    (h : c.Cleared evictor candidates d) (hstore : e.store = d.store)
    (hevictor : e.evictor = d.evictor) (htally : e.tally = d.tally) :
    c.Cleared evictor candidates e where
  store key := by rw [hstore, h.store]
  ranking := by rw [hevictor]; exact h.ranking
  tally := htally.trans h.tally

namespace Covered

variable {evictor : Evictor} {count capacity : Nat}

theorem mem_expired (h : c.Covered evictor) {key : Key} :
    key ∈ c.expired ↔ c.isExpiredAt c.clock key = true := by
  rw [expired, List.mem_filter, h.placed.mem_keys, and_iff_right_iff_imp]
  intro hexpired
  cases hentry : c.store.get? key with
  | none => simp [isExpiredAt, hentry] at hexpired
  | some entry => rfl

theorem isLiveAt_iff (h : c.Covered evictor) {key : Key} (hkey : c.contains key = true) :
    c.isLiveAt c.clock key = true ↔ key ∉ c.expired := by
  rw [h.mem_expired, isExpiredAt_eq hkey]
  simp

theorem isLiveAt_of_dead (h : c.Covered evictor) (hdead : c.hasLive = false) (key : Key) :
    c.isLiveAt c.clock key = false := by
  refine Bool.eq_false_iff.mpr fun hlive => ?_
  have hlives : c.hasLive = true := by
    rw [hasLive, List.any_eq_true]
    exact ⟨key, h.placed.mem_keys.mpr (contains_of_isLiveAt hlive), hlive⟩
  rw [hdead] at hlives
  cases hlives

theorem mem_expired_of_dead (h : c.Covered evictor) (hdead : c.hasLive = false) {key : Key} :
    key ∈ c.expired ↔ c.contains key = true := by
  refine ⟨fun hexpired => h.placed.mem_keys.mp (List.mem_of_mem_filter hexpired), fun hkey => ?_⟩
  rw [← Decidable.not_not (p := key ∈ c.expired), ← h.isLiveAt_iff hkey, h.isLiveAt_of_dead hdead]
  nofun

theorem surplus_of_live (h : c.Covered evictor) (hlive : c.hasLive = true)
    (hexcess : evictor.excess = .ok count) : c.surplus = .ok (c.candidates evictor count) := by
  simp [surplus, h.evictor_eq, hlive, hexcess, Except.map, candidates, unexpired]

theorem surplus_of_dead (h : c.Covered evictor) (hdead : c.hasLive = false) :
    c.surplus = .ok [] := by
  simp [surplus, h.evictor_eq, hdead]

/-- Whatever its candidates are, a pass clears them and what has expired. -/
theorem cleared (h : c.Covered evictor) (candidates : List Key) :
    c.Cleared evictor candidates (c.swept candidates) := by
  generalize hgone : (candidates.filter fun key => !c.contains key) ++
    (c.expired ++ candidates.filter c.contains) = gone
  have hremoved : (c.swept candidates).evictor = some (gone.foldl Evictor.remove evictor) := by
    rw [swept_eq, ← hgone, h.evictor_eq]
    rfl
  refine ⟨fun key => ?_, ⟨_, hremoved, ?_, ?_⟩, congrArg Cache.tally (c.swept_eq candidates)⟩
  · rw [swept_eq]
    simp only [Store.get?_foldl_erase, List.mem_append, List.mem_filter]
    cases hentry : c.store.get? key with
    | none => simp
    | some entry =>
      have hkey : c.contains key = true := by simp [contains, hentry]
      simp only [h.isLiveAt_iff hkey]
      by_cases hexpired : key ∈ c.expired <;> simp [hexpired, hkey]
  · rw [Evictor.foldl_remove, Evictor.terms, Ranking.capacity_foldl_remove]
    rfl
  · rw [Evictor.foldl_remove]
    refine (h.sound.foldl_remove _).2.trans (List.filter_congr fun key _ => ?_)
    rw [← hgone]
    cases hkey : c.contains key <;> simp [hkey, and_comm]

theorem nodup_worst (h : c.Covered evictor) : evictor.worst.Nodup := h.sound.nodup_worst

theorem nodup_unexpired (h : c.Covered evictor) : (c.unexpired evictor).Nodup :=
  h.nodup_worst.filter _

theorem nodup_expired (h : c.Covered evictor) : c.expired.Nodup := h.placed.nodup_keys.filter _

/-- Expired keys are ranked, so the ranking is as long as they and the others together. -/
theorem length_worst (h : c.Covered evictor) :
    evictor.worst.length = (c.unexpired evictor).length + c.expired.length := by
  have hperm : (evictor.worst.filter fun key => !decide (key ∉ c.expired)).Perm c.expired := by
    rw [List.perm_ext_iff_of_nodup (h.nodup_worst.filter _) h.nodup_expired]
    intro key
    simp only [List.mem_filter, Bool.not_eq_true', decide_eq_false_iff_not, not_not]
    refine and_iff_right_of_imp fun hexpired => h.tracks key ?_
    exact h.placed.mem_keys.mp (List.mem_of_mem_filter hexpired)
  rw [List.length_eq_length_filter_add fun key => decide (key ∉ c.expired), hperm.length_eq]
  rfl

/-- A truthful evictor makes a pass go for the keys in front of the last ones that fit. -/
theorem candidates_eq (h : c.Covered evictor) :
    c.candidates evictor (evictor.worst.length - capacity) =
      (c.unexpired evictor).take ((c.unexpired evictor).length - capacity) := by
  have hcount : evictor.worst.length - capacity - c.expired.length =
      (c.unexpired evictor).length - capacity := by
    have hlength := h.length_worst
    omega
  rw [candidates, hcount]

theorem worst_of_cleared (h : c.Covered evictor) {later : Evictor}
    (hcleared : c.Cleared evictor (c.candidates evictor count) d)
    (hlater : d.evictor = some later) :
    later.worst = (c.unexpired evictor).drop (count - c.expired.length) := by
  obtain ⟨same, hsame, -, hworst⟩ := hcleared.ranking
  cases hlater.symm.trans hsame
  rw [hworst, ← filter_notMem_take h.nodup_unexpired, unexpired, List.filter_filter]
  refine List.filter_congr fun key _ => ?_
  rw [candidates, unexpired, Bool.and_comm, Bool.decide_and]

theorem mem_live (h : c.Covered evictor) {key : Key} :
    key ∈ c.live evictor ↔ c.isLiveAt c.clock key = true := by
  rw [live, List.mem_filter]
  exact ⟨And.right, fun hlive => ⟨h.tracks key (contains_of_isLiveAt hlive), hlive⟩⟩

theorem nodup_live (h : c.Covered evictor) : (c.live evictor).Nodup := h.nodup_worst.filter _

theorem live_perm (h : c.Covered evictor) :
    (c.live evictor).Perm (c.store.keys.filter (c.isLiveAt c.clock)) := by
  rw [List.perm_ext_iff_of_nodup h.nodup_live (h.placed.nodup_keys.filter _)]
  intro key
  rw [h.mem_live, List.mem_filter, h.placed.mem_keys]
  exact ⟨fun hlive => ⟨contains_of_isLiveAt hlive, hlive⟩, And.right⟩

theorem live_of_dead (h : c.Covered evictor) (hdead : c.hasLive = false) : c.live evictor = [] :=
  List.filter_eq_nil_iff.mpr fun key _ => by simp [h.isLiveAt_of_dead hdead key]

end Covered

end Cache

/-! ## Passes by themselves -/

namespace Machine

variable {m n : Machine layout} {place : Place} {evictor : Evictor}

/-- What a pass that has come to its end tells its client, or its thread of the sweeper. -/
def Reports (m : Machine layout) (place : Place) (stopped : Bool) : Prop :=
  match place with
  | .client number _ => (m.client number).answer = some (.flag stopped)
  | .sweeper generation =>
      m.cache.sweeper.threads.get? generation = some (if stopped then .ending else .arming)

theorem terms_of_run {config : Config} {clock : Instant} {events : List Event}
    (hrun : (ofConfig layout config clock).runAll events = some m) :
    m.cache.terms = config.evictor.map Evictor.terms :=
  run_induction (P := fun m => m.cache.terms = config.evictor.map Evictor.terms)
    (fun h hstep => (terms_step hstep).trans h) rfl hrun

theorem evictor_of_run {config : Config} {evictor : Evictor} {clock : Instant}
    {events : List Event} (hconfig : config.evictor = some evictor)
    (hrun : (ofConfig layout config clock).runAll events = some m) :
    ∃ now, m.cache.evictor = some now ∧ now.terms = evictor.terms :=
  Option.map_eq_some_iff.mp
    ((terms_of_run hrun).trans (congrArg (Option.map Evictor.terms) hconfig))

/-- A pass with some candidates comes to its end by itself. -/
structure Clears (m : Machine layout) (place : Place) (evictor : Evictor) (candidates : List Key)
    (n : Machine layout) : Prop where
  toils : m.Toils place n
  ended : n.frameAt place = none
  placed : n.cache.store.Placed
  cleared : m.cache.Cleared evictor candidates n.cache
  reports : n.Reports place (n.cache.store.size == 0)

theorem Alone.clears_candidates {candidates : List Key} (h : m.Alone place m .enter)
    (hcalm : m.Undisturbed place) (hcovered : m.cache.Covered evictor)
    (hsurplus : m.cache.surplus = .ok candidates) : ∃ n, m.Clears place evictor candidates n := by
  obtain ⟨n, locks, htoils, hended, hleave, -⟩ := h.ends hcalm
  simp only [Cache.passResult, hsurplus] at hleave hended
  have hleft := Cache.left_of_leave hleave
  have hstore : n.cache.store = (m.cache.swept candidates).store := hleft.store
  refine ⟨n, htoils, hended.frame, hended.coherent.placed,
    (hcovered.cleared candidates).congr hstore hleft.evictor hleft.tally, ?_⟩
  rw [hstore]
  cases place with
  | client number depth => exact (hended.answers number).trans (if_pos rfl)
  | sweeper generation =>
    refine (hleft.thread generation rfl).trans ?_
    cases (m.cache.swept candidates).store.size == 0 <;> rfl

theorem Coherent.covered (h : m.Coherent) (hevictor : m.cache.evictor = some evictor)
    (hidle : ∀ other frame, m.frameAt other = some frame →
      ∀ hold ∈ frame.holds, hold.pending = []) : m.cache.Covered evictor := by
  refine ⟨h.placed, hevictor, h.tidy.ranked evictor hevictor, fun key hkey => ?_⟩
  obtain ⟨same, hown, hmem⟩ :=
    (h.tidy.settles_of_idle (by rw [hevictor]; rfl) hidle key).1 hkey
  cases hevictor.symm.trans hown
  exact hmem

end Machine

end TtlCache
