import TtlCache.Proofs.Machine.Clearing

/-!
# The candidates of a pass

An evictor made by the caller may rank keys that were never stored, and may answer for its excess
as it likes.  A pass that meets a live entry takes the answer at its word: from what the evictor
wants to be rid of it takes off the expired entries, and goes for as many of the worst ranked
keys that are left.  Those candidates that have entries are evicted, the others are only forgotten.
A pass that meets no live entry does not ask at all.
-/

namespace TtlCache

variable {layout : Layout} {c d : Cache layout}

/-- What an evictor with a rule answers when it is asked for its excess; nothing if it panics. -/
def ExcessRule.answer? (capacity : Nat) (worst : List Key) : ExcessRule -> Option Nat
  | .ranked => some (worst.length - capacity)
  | .fixed count => some count
  | .raises _ => none

namespace Evictor

variable {policy : Policy} {capacity : Nat} {preload : List Key} {rule : ExcessRule}
  {evictor : Evictor}

theorem capacity_foldl_used (keys : List Key) (r : Ranking) :
    (keys.foldl Ranking.used r).capacity = r.capacity := by
  induction keys generalizing r with
  | nil => rfl
  | cons key keys ih => rw [List.foldl_cons, ih, Ranking.capacity_used]

theorem terms_made (h : made policy capacity preload rule = .ok evictor) :
    evictor.terms = (some rule, capacity) := by
  rw [eq_of_made h, terms, capacity_foldl_used, Ranking.capacity_fresh]

theorem excess_of_answer {count : Nat} (hterms : evictor.terms = (some rule, capacity))
    (hsound : evictor.ranking.Sound) (h : rule.answer? capacity evictor.worst = some count) :
    evictor.excess = .ok count := by
  obtain ⟨hcustom, hcapacity⟩ := Prod.ext_iff.mp hterms
  simp only [terms] at hcustom hcapacity
  cases rule <;> cases h
  · rw [excess, hcustom]
    simp only [hsound.excess_eq, hcapacity]
    rfl
  · rw [excess, hcustom]

end Evictor

namespace Cache.Covered

variable {evictor : Evictor} {capacity : Nat}

theorem mem_worst_of_cleared (h : c.Covered evictor) {candidates : List Key} {later : Evictor}
    (hcleared : c.Cleared evictor candidates d) (hlater : d.evictor = some later) {key : Key}
    (hkey : d.contains key = true) : key ∈ later.worst := by
  obtain ⟨same, hsame, -, hworst⟩ := hcleared.ranking
  cases hlater.symm.trans hsame
  rw [contains, hcleared.store] at hkey
  split at hkey
  · next hkept =>
    have hstored := contains_of_isLiveAt hkept.1
    rw [hworst, List.mem_filter, decide_eq_true_eq]
    exact ⟨h.tracks key hstored, (h.isLiveAt_iff hstored).mp hkept.1, hkept.2⟩
  · cases hkey

theorem fits_of_cleared (h : c.Covered evictor) {later : Evictor}
    (hcleared : c.Cleared evictor (c.candidates evictor (evictor.worst.length - capacity)) d)
    (hplaced : d.store.Placed) (hlater : d.evictor = some later) :
    d.store.size ≤ later.worst.length ∧ later.worst.length ≤ capacity := by
  have hlength := h.length_worst
  constructor
  · rw [← Store.length_keys]
    refine hplaced.nodup_keys.length_le_of_subset fun key hkey => ?_
    exact h.mem_worst_of_cleared hcleared hlater (hplaced.mem_keys.mp hkey)
  · rw [h.worst_of_cleared hcleared hlater, List.length_drop]
    omega

end Cache.Covered

namespace Machine

variable {m n : Machine layout} {place : Place} {evictor : Evictor} {count : Nat}

theorem Toils.rest {middle : Machine layout} (h : m.Toils place middle) (hend : m.Toils place n)
    (hended : n.frameAt place = none) : middle.Toils place n := by
  induction h with
  | refl => exact hend
  | step busy ran rest ih =>
    cases hend with
    | refl =>
      rw [isActive, hended] at busy
      cases busy
    | step busy' ran' rest' =>
      cases ran.symm.trans ran'
      exact ih rest'

theorem Alone.arrives_at_candidates {visits : List Key} (h : m.Alone place m .enter)
    (hcalm : m.Unhindered place visits) (hkeys : m.cache.store.keys ⊆ visits)
    (hevictor : m.cache.evictor = some evictor) (hlive : m.cache.hasLive = true)
    (hexcess : evictor.excess = .ok count) (hmore : m.cache.expired.length < count) :
    ∃ survey, m.Arrives place m (.visit .eviction (m.cache.candidates evictor count) survey)
      (m.cache.engage place.worker) m.cache.store.keys.length := by
  obtain ⟨marks, hmarks, reviewed, hreviewed, halone, hcache, hvisited⟩ := h.surveys hcalm hkeys
  have hsame : reviewed.cache.evictor = some evictor := by
    rw [hcache]
    exact hevictor
  have hexpired : marks.map Mark.key = m.cache.expired := by
    rw [← Mark.map_target_snd, hmarks, List.map_map]
    exact List.map_id _
  have hlength : marks.length = m.cache.expired.length := by
    rw [← hexpired, List.length_map]
  let survey : Survey := ⟨m.cache.clock, marks, m.cache.hasLive⟩
  refine ⟨survey, ?_⟩
  rw [← Nat.add_zero m.cache.store.keys.length]
  refine .after hreviewed hvisited ?_
  have hround : (Pass.visit .expiry [] survey).step place.worker reviewed.cache =
      some (reviewed.cache, .more (.weigh survey)) := by
    simp [Pass.step, Pass.endRound, survey, hsame, hlive]
  refine .cons halone hround rfl fun weighing hthere hfirst => ?_
  have hweigh : (Pass.weigh survey).step place.worker weighing.cache =
      some (weighing.cache, .more (.choose (count - m.cache.expired.length) survey)) := by
    have hcount : count - m.cache.expired.length ≠ 0 := by omega
    simp [Pass.step, Pass.weighExcess, survey, hfirst, hsame, hexcess, hlength, hcount]
  refine .cons hthere hweigh rfl fun choosing hthere' hsecond => ?_
  have hchoose : (Pass.choose (count - m.cache.expired.length) survey).step place.worker
      choosing.cache = some (choosing.cache,
        .more (.visit .eviction (m.cache.candidates evictor count) survey)) := by
    simp [Pass.step, Pass.candidates, Cache.candidates, Cache.unexpired, survey, hsecond, hfirst,
      hsame, hexpired]
  have harrives := Arrives.of_step hthere' hchoose (.refl _ _)
  rw [hsecond, hfirst, hcache] at harrives
  exact harrives.of_relock

theorem Alone.chooses (h : m.Alone place m .enter) (hcalm : m.Undisturbed place)
    (hevictor : m.cache.evictor = some evictor) (hlive : m.cache.hasLive = true)
    (hexcess : evictor.excess = .ok count) (hmore : m.cache.expired.length < count) :
    ∃ middle survey, m.Toils place middle ∧ middle.frameAt place =
      some (.pass (.visit .eviction (m.cache.candidates evictor count) survey)) := by
  obtain ⟨survey, middle, htoils, halone, -⟩ :=
    h.arrives_at_candidates (hcalm.unhindered h.coherent.mem_itinerary)
      m.cache.keys_subset_itinerary hevictor hlive hexcess hmore
  exact ⟨middle, survey, htoils, halone.frame⟩

theorem Lonely.idle (h : m.Lonely place) (hframe : m.frameAt place = some (.pass .enter))
    (other : Place) (frame : Frame) (hother : m.frameAt other = some frame) :
    ∀ hold ∈ frame.holds, hold.pending = [] := by
  by_cases hplace : other = place
  · rw [hplace, hframe] at hother
    cases hother
    exact List.forall_mem_nil _
  · rw [h other hplace] at hother
    cases hother

/-! ## Passes of a cache with an evictor made by the caller -/

/--
A pass that runs by itself, with an evictor made by the caller.  If it meets a live entry it goes
for the candidates that the answer for the excess calls for; a truthful answer makes the cache and
the ranking fit the capacity.  If there is no live entry all entries go and only those keys stay
ranked that had none, whatever the evictor would have answered, even by a panic.
-/
theorem pass_takes_candidates {config : Config} {policy : Policy} {capacity : Nat}
    {preload : List Key} {rule : ExcessRule} {first : Evictor} {clock : Instant}
    {events : List Event} (hmade : Evictor.made policy capacity preload rule = .ok first)
    (hconfig : config.evictor = some first)
    (hrun : (ofConfig layout config clock).runAll events = some m)
    (hframe : m.frameAt place = some (.pass .enter)) (hcalm : m.Undisturbed place)
    (hidle : ∀ other frame, m.frameAt other = some frame →
      ∀ hold ∈ frame.holds, hold.pending = []) :
    ∃ now, m.cache.evictor = some now ∧
      (m.cache.hasLive = true → ∀ count, rule.answer? capacity now.worst = some count →
        ∃ n later, m.Clears place now (m.cache.candidates now count) n ∧
          n.cache.evictor = some later ∧
          (m.cache.expired.length < count → ∃ middle survey, m.Toils place middle ∧
            middle.Toils place n ∧ middle.frameAt place =
              some (.pass (.visit .eviction (m.cache.candidates now count) survey))) ∧
          (rule = .ranked → n.cache.store.size ≤ capacity ∧ later.worst.length ≤ capacity)) ∧
      (m.cache.hasLive = false →
        ∃ n later, m.Clears place now [] n ∧ n.cache.evictor = some later ∧
          n.cache.store.size = 0 ∧
            later.worst = now.worst.filter fun key => !m.cache.contains key) := by
  have hcoherent := coherent_of_origin (.made hmade) hconfig hrun
  obtain ⟨now, hnow, hsame⟩ := evictor_of_run hconfig hrun
  have hcovered := hcoherent.covered hnow hidle
  have halone := hcoherent.alone hframe
  refine ⟨now, hnow, fun hlive count hanswer => ?_, fun hdead => ?_⟩
  · have hexcess := Evictor.excess_of_answer (hsame.trans (Evictor.terms_made hmade))
      hcovered.sound hanswer
    obtain ⟨n, hclears⟩ :=
      halone.clears_candidates hcalm hcovered (hcovered.surplus_of_live hlive hexcess)
    obtain ⟨later, hlater, -⟩ := hclears.cleared.ranking
    refine ⟨n, later, hclears, hlater, fun hmore => ?_, fun hranked => ?_⟩
    · obtain ⟨middle, survey, hmiddle, hvisit⟩ := halone.chooses hcalm hnow hlive hexcess hmore
      exact ⟨middle, survey, hmiddle, hmiddle.rest hclears.toils hclears.ended, hvisit⟩
    · subst hranked
      cases hanswer
      obtain ⟨hsize, hlength⟩ := hcovered.fits_of_cleared hclears.cleared hclears.placed hlater
      exact ⟨Nat.le_trans hsize hlength, hlength⟩
  · obtain ⟨n, hclears⟩ :=
      halone.clears_candidates hcalm hcovered (hcovered.surplus_of_dead hdead)
    obtain ⟨later, hlater, -, hworst⟩ := hclears.cleared.ranking
    have hgone : ∀ key, m.cache.isLiveAt m.cache.clock key = false :=
      fun key => hcovered.isLiveAt_of_dead hdead key
    refine ⟨n, later, hclears, hlater, ?_, hworst.trans (List.filter_congr fun key _ => ?_)⟩
    · rw [← Store.length_keys, List.length_eq_zero_iff, List.eq_nil_iff_forall_not_mem]
      intro key hkey
      rw [hclears.placed.mem_keys, hclears.cleared.store, if_neg (by simp [hgone key])] at hkey
      cases hkey
    · rw [Bool.eq_iff_iff, decide_eq_true_eq, Bool.not_eq_true', ← Bool.not_eq_true]
      simp [hcovered.mem_expired_of_dead hdead]

/--
An evictor that was handed over with "g" ranked and that wants to be rid of two keys.  One entry has
expired, so the only candidate is "g", which has no entry; the live entry stays.
-/
theorem pass_takes_candidates_stray :
    ∃ (first now later : Evictor) (events : List Event) (m n : Machine .flat),
      Evictor.made .recency 1 ["g"] (.fixed 2) = .ok first ∧
      runAll (ofConfig .flat ⟨some first, defaultInterval⟩ ⟨0⟩) events = some m ∧
      m.frameAt (.client 1 0) = some (.pass .enter) ∧
      m.cache.evictor = some now ∧ now.worst = ["g", "a", "b"] ∧
      m.cache.candidates now 2 = ["g"] ∧ m.Toils (.client 1 0) n ∧
      n.cache.evictor = some later ∧ later.worst = ["b"] ∧ n.cache.contains "b" = true ∧
      n.cache.contains "a" = false ∧ n.cache.tally.expirations = 1 ∧
      n.cache.tally.evictions = 0 := by
  have hmade : Evictor.made .recency 1 ["g"] (.fixed 2) =
      .ok ⟨.recency (Recency.used ⟨1, .empty, .empty⟩ "g"), some (.fixed 2)⟩ := rfl
  obtain ⟨m, hrun, hplaces, hframe, ⟨now, hnow, hworst, hgoes⟩, hlive, hexpired, hgone, hstays,
      hstray, hcounts⟩ :
      ∃ m : Machine .flat, runAll
          (ofConfig .flat
            ⟨some ⟨.recency (Recency.used ⟨1, .empty, .empty⟩ "g"), some (.fixed 2)⟩,
              defaultInterval⟩ ⟨0⟩)
          (creation 0 "a" leastTtl .unit ++ [.call 0 (.access "a" (.extend ⟨9⟩))] ++
            List.replicate 5 (.run (.client 0)) ++ creation 0 "b" leastTtl .unit ++
              [.call 0 (.access "b" (.extend ⟨100⟩))] ++ List.replicate 5 (.run (.client 0)) ++
                [.tick ⟨50⟩, .call 1 .purge]) = some m ∧
        (∀ other ∈ m.places, other = .client 1 0) ∧
        m.frameAt (.client 1 0) = some (.pass .enter) ∧
        (∃ now, m.cache.evictor = some now ∧ now.worst = ["g", "a", "b"] ∧
          m.cache.candidates now 2 = ["g"]) ∧
        m.cache.hasLive = true ∧ m.cache.expired = ["a"] ∧
        m.cache.isLiveAt m.cache.clock "a" = false ∧ m.cache.isLiveAt m.cache.clock "b" = true ∧
        m.cache.contains "g" = false ∧ m.cache.tally.expirations = 0 ∧
          m.cache.tally.evictions = 0 :=
    ⟨_, rfl, by decide, rfl, ⟨_, rfl, by decide, by decide⟩, by decide, by decide, by decide,
      by decide, by decide, rfl, rfl⟩
  have hlonely := lonely_of_places hplaces
  obtain ⟨same, hsame, hpass, -⟩ := pass_takes_candidates hmade rfl hrun hframe
    hlonely.undisturbed (hlonely.idle hframe)
  cases hnow.symm.trans hsame
  obtain ⟨n, later, hclears, hlater, -⟩ := hpass hlive 2 rfl
  obtain ⟨last, hlast, -, hleft⟩ := hclears.cleared.ranking
  cases hlater.symm.trans hlast
  have htally := hclears.cleared.tally
  rw [hworst, hgoes, hexpired] at hleft
  rw [hgoes, hexpired] at htally
  refine ⟨_, now, later, _, m, n, hmade, hrun, hframe, hnow, hworst, hgoes, hclears.toils, hlater,
    hleft, ?_, ?_, ?_, ?_⟩
  · rw [Cache.contains, hclears.cleared.store, hgoes, if_pos ⟨hstays, by decide⟩]
    exact Cache.contains_of_isLiveAt hstays
  · rw [Cache.contains, hclears.cleared.store, if_neg (by simp [hgone])]
    rfl
  · rw [htally, hcounts.1]
    rfl
  · rw [htally, hcounts.2, List.filter_singleton, hstray]
    rfl

end Machine

end TtlCache
