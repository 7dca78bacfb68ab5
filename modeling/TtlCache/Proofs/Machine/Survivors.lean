import TtlCache.Proofs.Machine.Answers
import TtlCache.Proofs.Machine.Clearing

/-!
# What survives a pass

A built-in evictor ranks exactly the stored keys, so what it has too many is told by their number.
Expired entries count towards that number and are taken off it again when they are marked.  So in
the end the live keys most worth keeping are left, as many as fit, and an expired entry never costs
a live one its place.
-/

namespace TtlCache

variable {layout : Layout} {c d : Cache layout}

/-! ## Live keys -/

namespace Cache

/-- As many of the live keys as fit, the ones most worth keeping. -/
def kept (c : Cache layout) (evictor : Evictor) (capacity : Nat) : List Key :=
  (c.live evictor).drop ((c.live evictor).length - capacity)

/-- A cache whose evictor is built in and ranks exactly the stored keys. -/
structure Settled (c : Cache layout) (evictor : Evictor) (capacity : Nat) : Prop where
  placed : c.store.Placed
  evictor_eq : c.evictor = some evictor
  terms_eq : evictor.terms = (none, capacity)
  sound : evictor.ranking.Sound
  tracks : ∀ key, key ∈ evictor.worst ↔ c.contains key = true

namespace Settled

variable {evictor : Evictor} {capacity : Nat}

theorem covered (h : c.Settled evictor capacity) : c.Covered evictor :=
  ⟨h.placed, h.evictor_eq, h.sound, fun key => (h.tracks key).mpr⟩

theorem unexpired_eq (h : c.Settled evictor capacity) : c.unexpired evictor = c.live evictor := by
  refine List.filter_congr fun key hkey => ?_
  rw [Bool.eq_iff_iff, decide_eq_true_eq, h.covered.isLiveAt_iff ((h.tracks key).mp hkey)]

theorem surplus_eq (h : c.Settled evictor capacity) :
    c.surplus = .ok ((c.live evictor).take ((c.live evictor).length - capacity)) := by
  have hexcess := Evictor.excess_of_terms h.terms_eq h.sound
  cases hlive : c.hasLive with
  | true =>
    rw [h.covered.surplus_of_live hlive hexcess, h.covered.candidates_eq, h.unexpired_eq]
  | false =>
    rw [h.covered.surplus_of_dead hlive, h.covered.live_of_dead hlive, List.take_nil]

theorem filter_surplus (h : c.Settled evictor capacity) :
    (c.live evictor).filter (fun key =>
      decide (key ∉ (c.live evictor).take ((c.live evictor).length - capacity))) =
        c.kept evictor capacity :=
  filter_notMem_take h.covered.nodup_live _

end Settled

/-- What is left of a cache: the kept keys, with their entries and in their order. -/
structure Trimmed (c : Cache layout) (evictor : Evictor) (capacity : Nat) (d : Cache layout) :
    Prop where
  store : ∀ key, d.store.get? key =
    if key ∈ c.kept evictor capacity then c.store.get? key else none
  ranking : ∃ later, d.evictor = some later ∧ later.worst = c.kept evictor capacity
  tally : d.tally = { c.tally with
    expirations := c.tally.expirations + c.expired.length
    evictions := c.tally.evictions + ((c.live evictor).length - capacity) }

variable {evictor : Evictor} {capacity : Nat}

theorem Trimmed.congr {e : Cache layout} (h : c.Trimmed evictor capacity d)
    (hstore : e.store = d.store) (hevictor : e.evictor = d.evictor) (htally : e.tally = d.tally) :
    c.Trimmed evictor capacity e where
  store key := by rw [hstore, h.store]
  ranking := by rw [hevictor]; exact h.ranking
  tally := htally.trans h.tally

theorem Settled.trimmed (h : c.Settled evictor capacity) {surplus : List Key}
    (hsurplus : c.surplus = .ok surplus) : c.Trimmed evictor capacity (c.swept surplus) := by
  have hcleared := h.covered.cleared surplus
  have hkept := h.filter_surplus
  rw [h.surplus_eq, Except.ok.injEq] at hsurplus
  rw [hsurplus] at hkept
  refine ⟨fun key => ?_, ?_, ?_⟩
  · rw [hcleared.store]
    refine if_congr ?_ rfl rfl
    rw [← hkept, List.mem_filter, h.covered.mem_live, decide_eq_true_eq]
  · obtain ⟨later, hlater, -, hworst⟩ := hcleared.ranking
    refine ⟨later, hlater, hworst.trans ?_⟩
    rw [← hkept, ← h.unexpired_eq, unexpired, List.filter_filter]
    exact List.filter_congr fun key _ => by simp [and_comm]
  · -- every surplus key is stored
    have hstored : surplus.filter c.contains = surplus := by
      refine List.filter_eq_self.mpr fun key hkey => ?_
      rw [← hsurplus] at hkey
      exact contains_of_isLiveAt (h.covered.mem_live.mp (List.mem_of_mem_take hkey))
    rw [hcleared.tally, hstored, ← hsurplus, List.length_take, Nat.min_eq_left (Nat.sub_le _ _)]

theorem Settled.isEmpty_swept (h : c.Settled evictor capacity) (hpositive : 0 < capacity)
    {surplus : List Key} (hsurplus : c.surplus = .ok surplus) :
    ((c.swept surplus).store.size == 0) = (c.live evictor).isEmpty := by
  have hplaced : (c.swept surplus).store.Placed := by
    rw [swept_eq]
    exact h.placed.foldl_erase _
  have hstore := (h.trimmed hsurplus).store
  rw [Bool.eq_iff_iff, beq_iff_eq, List.isEmpty_iff, ← Store.length_keys, List.length_eq_zero_iff]
  constructor
  · intro hnone
    have hkept : c.kept evictor capacity = [] := by
      refine List.eq_nil_iff_forall_not_mem.mpr fun key hkey => ?_
      have hlive := contains_of_isLiveAt (h.covered.mem_live.mp (List.mem_of_mem_drop hkey))
      have hleft : key ∈ (c.swept surplus).store.keys := by
        rwa [hplaced.mem_keys, hstore, if_pos hkey]
      rw [hnone] at hleft
      cases hleft
    rw [kept, List.drop_eq_nil_iff] at hkept
    exact List.length_eq_zero_iff.mp (by omega)
  · intro hnone
    refine List.eq_nil_iff_forall_not_mem.mpr fun key hkey => ?_
    rw [hplaced.mem_keys, hstore, if_neg (by simp [kept, hnone])] at hkey
    cases hkey

end Cache

/-! ## Passes of a cache with a built-in evictor -/

/--
An operation that is not in the way of a pass.  Where it does not wait, it holds keys without
entries, as a provider does, and has not begun to store or to remove anything.
-/
structure Frame.Aside (c : Cache layout) (frame : Frame) : Prop where
  turn : frame.has .turn = false
  claims : ∀ claim ∈ frame.claims,
    claim.stage = .waiting ∨ claim.stage = .holding ∧ c.contains claim.key = false
  idle : ∀ hold ∈ frame.holds, hold.pending = []

namespace Machine

variable {m n : Machine layout} {place : Place} {policy : Policy}

/-- A built-in evictor has no key to begin with, so none is excused. -/
theorem tidy_of_builtIn {config : Config} {capacity : Nat} {evictor : Evictor} {clock : Instant}
    {events : List Event} (hbuilt : Evictor.builtIn policy capacity = .ok evictor)
    (hconfig : config.evictor = some evictor)
    (hrun : (ofConfig layout config clock).runAll events = some m) : m.Tidy fun _ => False := by
  obtain ⟨hsound, hworst, -⟩ := Evictor.builtIn_spec hbuilt
  have only : ∀ other, config.evictor = some other → other = evictor :=
    fun other hother => Option.some.inj (hother.symm.trans hconfig)
  have hnone : ∀ other key, config.evictor = some other → key ∈ other.worst → False := by
    intro other key hother hmem
    rw [only other hother, hworst] at hmem
    cases hmem
  obtain ⟨-, -, htidy⟩ :=
    owned_tidy_of_run hrun (fun other hother => only other hother ▸ hsound) hnone
  exact htidy.mono fun _ h => h.1

/-- Where nothing has begun to be stored or removed, a built-in evictor ranks what is stored. -/
theorem settled_of_run {config : Config} {capacity : Nat} {evictor : Evictor} {clock : Instant}
    {events : List Event} (hbuilt : Evictor.builtIn policy capacity = .ok evictor)
    (hconfig : config.evictor = some evictor)
    (hrun : (ofConfig layout config clock).runAll events = some m)
    (hidle : ∀ other frame, m.frameAt other = some frame →
      ∀ hold ∈ frame.holds, hold.pending = []) :
    ∃ now, m.cache.Settled now capacity := by
  have hcoherent := coherent_of_origin (.builtIn hbuilt) hconfig hrun
  have htidy := tidy_of_builtIn hbuilt hconfig hrun
  obtain ⟨now, hnow, hsame⟩ := evictor_of_run hconfig hrun
  refine ⟨now, hcoherent.placed, hnow, hsame.trans (Evictor.terms_builtIn hbuilt),
    htidy.ranked now hnow, fun key => ?_⟩
  rw [← htidy.tracks_iff (by rw [hnow]; rfl) hidle]
  simp [Cache.Tracks, hnow]

theorem undisturbed_of_aside {evictor : Evictor} {capacity : Nat}
    (h : m.cache.Settled evictor capacity)
    (haside : ∀ other frame, other ≠ place → m.frameAt other = some frame →
      frame.Aside m.cache) : m.Undisturbed place where
  turn hplace hother := (haside _ _ hplace hother).turn
  claims := by
    intro other frame hplace hother claim hclaim
    refine ((haside other frame hplace hother).claims claim hclaim).imp_right fun hheld => ?_
    refine ⟨hheld.1, hheld.2, fun htracked => ?_⟩
    obtain ⟨same, hsame, hmem⟩ := htracked
    cases h.evictor_eq.symm.trans hsame
    rw [h.tracks, hheld.2] at hmem
    cases hmem

/--
A pass that runs by itself, with a built-in evictor, comes to its end: the live keys most worth
keeping survive, as many as fit, with their entries and in their order.  All expired entries and all
other live ones are counted as removed, and the pass tells to stop if nothing was live, in which
case the sweeper does not run.  Other operations may be in progress, waiting or in a provider.
-/
theorem pass_keeps_live_keys_that_fit {config : Config} {capacity : Nat} {evictor : Evictor}
    {clock : Instant} {events : List Event} (hbuilt : Evictor.builtIn policy capacity = .ok evictor)
    (hconfig : config.evictor = some evictor)
    (hrun : (ofConfig layout config clock).runAll events = some m)
    (hframe : m.frameAt place = some (.pass .enter))
    (haside : ∀ other frame, other ≠ place → m.frameAt other = some frame →
      frame.Aside m.cache) :
    ∃ now steps n, m.cache.evictor = some now ∧
      m.runAll (List.replicate steps (.run place.worker)) = some n ∧
      (∀ fewer < steps, ∃ middle,
        m.runAll (List.replicate fewer (.run place.worker)) = some middle ∧
          middle.isActive place = true) ∧
      n.frameAt place = none ∧
      (m.cache.live now).Perm (m.cache.store.keys.filter (m.cache.isLiveAt m.cache.clock)) ∧
      m.cache.Trimmed now capacity n.cache ∧
      n.Reports place (m.cache.live now).isEmpty ∧
      (m.cache.live now = [] → n.cache.sweeper.running = false) := by
  have hidle : ∀ other frame, m.frameAt other = some frame →
      ∀ hold ∈ frame.holds, hold.pending = [] := by
    intro other frame hother
    by_cases hplace : other = place
    · rw [hplace, hframe] at hother
      cases hother
      exact List.forall_mem_nil _
    · exact (haside other frame hplace hother).idle
  obtain ⟨now, hsettled⟩ := settled_of_run hbuilt hconfig hrun hidle
  have hcoherent := coherent_of_origin (.builtIn hbuilt) hconfig hrun
  have hcalm := undisturbed_of_aside hsettled haside
  obtain ⟨n, locks, htoils, hended, hleave, -⟩ := (hcoherent.alone hframe).ends hcalm
  obtain ⟨steps, hsteps, hbusy⟩ := htoils.runAll
  have hsurplus := hsettled.surplus_eq
  have hempty := hsettled.isEmpty_swept (Evictor.capacity_pos hbuilt) hsurplus
  simp only [Cache.passResult, hsurplus] at hleave hended
  have hleft := Cache.left_of_leave hleave
  refine ⟨now, steps, n, hsettled.evictor_eq, hsteps, hbusy, hended.frame,
    hsettled.covered.live_perm,
    (hsettled.trimmed hsurplus).congr hleft.store hleft.evictor hleft.tally, ?_, fun hnone => ?_⟩
  · rw [hempty] at hended hleft
    cases place with
    | client number depth => exact (hended.answers number).trans (if_pos rfl)
    | sweeper generation =>
      refine (hleft.thread generation rfl).trans ?_
      cases (m.cache.live now).isEmpty <;> rfl
  · have hstops := hempty.trans (congrArg List.isEmpty hnone)
    refine hleft.running ?_
    simp only [Cache.relock, Cache.engage, Cache.decided, hstops, Sweeper.endStop]
    exact Bool.and_false _

/--
With room for one key, an expired entry that was used last does not cost a live one its place.
Another client is in the provider of a key that has no entry.
-/
theorem pass_keeps_live_keys_that_fit_one :
    ∃ (events : List Event) (m n : Machine .flat) (now later : Evictor) (steps : Nat),
      runAll (ofConfig .flat keepLast ⟨0⟩) events = some m ∧
      m.frameAt (.client 1 0) = some (.pass .enter) ∧ (m.client 2).isProviding = true ∧
      m.cache.evictor = some now ∧ now.worst = ["b", "a"] ∧ m.cache.live now = ["b"] ∧
      m.runAll (List.replicate steps (.run (.client 1))) = some n ∧
      n.cache.evictor = some later ∧ later.worst = ["b"] ∧
      n.cache.store.get? "b" = some ⟨.unit, ⟨100⟩⟩ ∧ n.cache.store.get? "a" = none ∧
      n.cache.tally = { m.cache.tally with expirations := 1 } ∧
      (n.client 1).answer = some (.flag false) := by
  have hbuilt : Evictor.builtIn .recency 1 = .ok ⟨.recency ⟨1, .empty, .empty⟩, none⟩ := rfl
  have hrun : runAll (ofConfig .flat keepLast ⟨0⟩)
      (creation 0 "b" leastTtl .unit ++ [.call 0 (.access "b" (.extend ⟨100⟩))] ++
        List.replicate 5 (.run (.client 0)) ++ creation 0 "a" leastTtl .unit ++
          [.call 0 (.access "a" (.extend ⟨9⟩))] ++ List.replicate 5 (.run (.client 0)) ++
            (creation 2 "c" leastTtl .unit).take 5 ++ [.tick ⟨50⟩, .call 1 .purge]) = some _ := rfl
  obtain ⟨now, steps, n, hnow, hsteps, -, -, -, htrimmed, hreports, -⟩ :=
    pass_keeps_live_keys_that_fit hbuilt rfl hrun
      (show Machine.frameAt _ (.client 1 0) = some (.pass .enter) from rfl) (by
        intro other frame hother hframe
        have hmem := mem_places.mpr (Option.isSome_of_eq_some hframe)
        have honly : other = .client 2 0 :=
          (show ∀ place ∈ _, place ≠ .client 1 0 → place = .client 2 0 by decide) other hmem hother
        subst honly
        cases hframe
        exact ⟨rfl, by decide, by decide⟩)
  cases hnow
  obtain ⟨later, hlater, hworst⟩ := htrimmed.ranking
  exact ⟨_, _, n, _, later, steps, hrun, rfl, rfl, rfl, by decide, by decide, hsteps, hlater,
    hworst.trans (by decide), (htrimmed.store "b").trans (by decide),
    (htrimmed.store "a").trans (by decide), htrimmed.tally.trans (by decide), hreports⟩

end Machine

end TtlCache
