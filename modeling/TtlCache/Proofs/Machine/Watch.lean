import TtlCache.Proofs.Machine.Answers
import TtlCache.Proofs.Machine.Counting
import TtlCache.Proofs.Machine.Visits

/-!
# Stored keys are watched

The sweeper is started after a value has been stored, under another lock than the store's, and a
pass that finds nothing left stops it.  While the pass counts shard by shard others go on storing.
But whoever stores something in the meantime has to wait for the end of the count before it can
start the sweeper, and starts it then.  So a stored key is watched by a running sweeper, or the
operation that stored it is about to start one.
-/

namespace TtlCache

variable {layout : Layout}

namespace Machine

variable {m n : Machine layout} {event : Event}

/-! ## Keys that are not watched yet -/

/-- Whether an operation has stored a value of a key and is about to start the sweeper. -/
def Pending (m : Machine layout) (key : Key) : Prop :=
  ∃ place a, m.frameAt place = some (.access a) ∧ a.key = key ∧ a.isWaking = true

theorem Staffed.open_of_stack (h : m.Staffed) {number : Nat}
    (hstack : (m.client number).stack ≠ []) : m.cache.sweeper.shutdown = false := by
  refine Bool.eq_false_iff.mpr fun hshutdown => ?_
  have hserved := h.served hstack
  rw [h.closed hshutdown] at hserved
  exact Nat.not_lt_zero _ hserved

theorem Staffed.open_of_access (h : m.Staffed) {place : Place} {a : Access}
    (hframe : m.frameAt place = some (.access a)) : m.cache.sweeper.shutdown = false := by
  cases place with
  | sweeper generation =>
    obtain ⟨p, -, hp⟩ := Option.map_eq_some_iff.mp hframe
    cases hp
  | client number depth =>
    exact h.open_of_stack (List.ne_nil_of_mem (mem_stack_of_frameAt hframe))

theorem not_pending_of_isQuiet (h : m.isQuiet = true) (key : Key) : ¬m.Pending key := by
  rintro ⟨place, a, hframe, -⟩
  cases place with
  | sweeper generation =>
    obtain ⟨p, -, hp⟩ := Option.map_eq_some_iff.mp hframe
    cases hp
  | client number depth =>
    have hmem := mem_stack_of_frameAt hframe
    rw [stack_eq_nil_of_isQuiet h number] at hmem
    cases hmem

theorem pending_of_step (h : m.Staffed) (hstep : m.step event = some n) {key : Key}
    (hpending : m.Pending key) :
    n.Pending key ∨ m.cache.sweeper.deciding = false ∧ n.cache.sweeper.running = true := by
  obtain ⟨other, a, hframe, hkey, hwaking⟩ := hpending
  cases step_cases hstep with
  | aside frames alike acting => exact Or.inl ⟨other, a, (frames other).trans hframe, hkey, hwaking⟩
  | opened place frame fresh free now others alike acting =>
    have hother : other ≠ place := by
      rintro rfl
      rw [free] at hframe
      cases hframe
    exact Or.inl ⟨other, a, (others other hother).trans hframe, hkey, hwaking⟩
  | ended place access next outcome was after now others same acting event =>
    by_cases hother : other = place
    · -- a provider runs before anything is stored
      subst hother
      cases was.symm.trans hframe
      unfold Access.afterProvider at after
      split at after
      · next hpoint hrequest =>
        obtain ⟨own, request, point⟩ := a
        cases hpoint
        cases hwaking
      · cases after
    · exact Or.inl ⟨other, a, (others other hother).trans hframe, hkey, hwaking⟩
  | stepped place frame cache progress was step now others alike acting event kept =>
    by_cases hother : other = place
    · subst hother
      cases was.symm.trans hframe
      have hopen := h.open_of_access hframe
      cases Frame.stride_of_step step with
      | access taken =>
        obtain ⟨hdeciding, hrunning, next, rfl⟩ := Access.running_of_waking taken hwaking hopen
        rw [kept _ rfl]
        exact Or.inr ⟨hdeciding, hrunning⟩
    · exact Or.inl ⟨other, a, (others other hother).trans hframe, hkey, hwaking⟩

theorem started_of_step (h : m.Staffed) {number : Nat} {a : Access}
    (htop : m.top? (.client number) = some (.access a)) (hwaking : a.isWaking = true)
    (hstep : m.step (.run (.client number)) = some n) : n.cache.sweeper.running = true := by
  obtain ⟨place, -, hframe⟩ := frameAt_of_top? htop
  have hopen := h.open_of_access hframe
  simp only [step, run, runClient] at hstep
  simp only [top?] at htop
  cases hstack : (m.client number).stack with
  | nil => simp [hstack] at htop
  | cons frame outer =>
    rw [hstack] at htop
    cases htop
    simp only [hstack, Option.map_eq_some_iff, Prod.exists, Frame.step] at hstep
    obtain ⟨_, _, ⟨cache, progress, htaken, hcache⟩, rfl⟩ := hstep
    obtain ⟨-, hrunning, next, rfl⟩ := Access.running_of_waking htaken hwaking hopen
    cases hcache
    exact hrunning

/-! ## Counts -/

/-- What holds of operations that store and of counts between any two events. -/
structure Counted (m : Machine layout) : Prop where
  staffed : m.Staffed
  sole : m.Sole .verdict
  sheds : ∀ {place frame}, m.frameAt place = some frame → frame.Sheds
  follows : ∀ {place a}, m.frameAt place = some (.access a) → a.Follows
  /-- What stands in the shards that a count has found empty was stored during the count. -/
  pending : ∀ {place shard}, m.frameAt place = some (.pass (.sum shard 0)) → ∀ key,
    m.cache.contains key = true → (layout.place key).val < shard → m.Pending key

theorem counted_ofConfig (config : Config) (clock : Instant) :
    (ofConfig layout config clock).Counted := by
  refine ⟨staffed_ofConfig config clock, sole_ofConfig config clock _, ?_, ?_, ?_⟩
  all_goals
    intro place _ hframe
    rw [frameAt_ofConfig] at hframe
    cases hframe

namespace Counted

theorem contains_of_step (h : m.Counted) (hstep : m.step event = some n)
    {key : Key} (hkey : n.cache.contains key = true) :
    m.cache.contains key = true ∨ n.Pending key := by
  have alike : ∀ {c : Cache layout}, c.Alike n.cache → c.contains key = true := by
    intro c halike
    rwa [← (halike.sameKey key).contains_eq]
  cases step_cases hstep with
  | aside frames alike' acting => exact Or.inl (alike alike')
  | opened place frame fresh free now others alike' acting => exact Or.inl (alike alike')
  | ended place access next outcome was after now others same acting event =>
    exact Or.inl (same ▸ hkey)
  | stepped place frame cache progress was step now others alike' acting event kept =>
    have hafter := alike alike'
    cases hbefore : m.cache.contains key with
    | true => exact Or.inl rfl
    | false =>
      refine Or.inr ?_
      cases Frame.stride_of_step step with
      | @access a _ progress taken =>
        obtain ⟨next, rfl, hown, hwaking⟩ :=
          Access.waking_of_step taken (h.follows was) hbefore hafter
        exact ⟨place, next, now, hown, hwaking⟩
      | pass taken =>
        rw [Pass.contains_of_step taken (h.sheds was) hafter] at hbefore
        cases hbefore
      | _ =>
        rw [show m.cache.contains key = true from hafter] at hbefore
        cases hbefore

theorem pending_of_count (h : m.Counted) (hstep : m.step event = some n) {place : Place}
    {shard total : Nat} (hframe : m.frameAt place = some (.pass (.sum shard total))) {key : Key}
    (hpending : m.Pending key) : n.Pending key := by
  rcases pending_of_step h.staffed hstep hpending with hstays | ⟨hdeciding, -⟩
  · exact hstays
  · have htaken := h.sole.taken (has_iff.mpr ⟨_, hframe, rfl⟩)
    rw [Cache.isTaken, hdeciding] at htaken
    cases htaken

theorem step (h : m.Counted) (hstep : m.step event = some n) : n.Counted := by
  refine ⟨h.staffed.step hstep, h.sole.step hstep, ?sheds, ?follows, ?pending⟩
  case sheds =>
    intro place frame hframe
    cases came_of_step hstep hframe with
    | stood was => exact h.sheds was
    | began fresh => exact fresh.sheds
    | provided was after => trivial
    | stepped was step => exact Frame.sheds_step step rfl (h.sheds was)
  case follows =>
    intro place a hframe
    cases came_of_step hstep hframe with
    | stood was => exact h.follows was
    | began fresh =>
      cases fresh
      trivial
    | provided was after => exact Access.follows_afterProvider after
    | stepped was step =>
      obtain ⟨before, rfl, taken⟩ := Frame.access_of_step step
      exact Access.follows_step taken (h.follows was)
  case pending =>
    intro place shard hframe key hkey hlt
    -- what was stored before is still pending, and what is new is pending anyway
    have still : ∀ {last total}, m.frameAt place = some (.pass (.sum last total)) →
        (m.cache.contains key = true → m.Pending key) → n.Pending key := by
      intro last total hwas hpending
      rcases h.contains_of_step hstep hkey with hold | hnew
      · exact h.pending_of_count hstep hwas (hpending hold)
      · exact hnew
    cases came_of_step hstep hframe with
    | stood was => exact still was fun hold => h.pending was key hold hlt
    | began fresh => cases fresh
    | stepped was step =>
      obtain ⟨before, rfl, taken⟩ := Frame.pass_of_step step
      rcases Pass.sum_of_step taken with
        ⟨rfl, rfl⟩ | ⟨last, before, rows, rfl, hrows, rfl, hsum, -⟩
      · exact absurd hlt (Nat.not_lt_zero _)
      · refine still was fun hold => ?_
        obtain ⟨rfl, hempty⟩ := Nat.add_eq_zero_iff.mp hsum.symm
        refine h.pending was key hold (Nat.lt_of_le_of_ne (Nat.le_of_lt_succ hlt) ?_)
        -- the shard that has just been counted is empty
        rintro rfl
        rw [Store.shard?_shardOf] at hrows
        cases hrows
        have hmem : key ∈ (m.cache.store.shardOf key).keys := Table.mem_keys_iff.mpr hold
        rw [List.length_eq_zero_iff.mp ((Table.length_keys _).trans hempty)] at hmem
        cases hmem

end Counted

/-- A pass stops the sweeper only if everything that is stored is pending. -/
theorem stopped_of_step (h : m.Counted) (hstep : m.step event = some n)
    {place : Place} (hbefore : m.frameAt place ≠ some (.pass (.leave (.flag true))))
    (hafter : n.frameAt place = some (.pass (.leave (.flag true)))) :
    n.cache.sweeper.running = false ∧ ∀ key, n.cache.contains key = true → n.Pending key := by
  cases came_of_step hstep hafter with
  | stood was => exact absurd was hbefore
  | began fresh => cases fresh
  | stepped was step =>
    obtain ⟨p, rfl, taken⟩ := Frame.pass_of_step step
    rcases Pass.leave_of_step taken with ⟨shard, total, rfl, hbehind, hcache, hflag⟩ | ⟨_, hpanic⟩
    · have hzero : total = 0 := by simpa using (Answer.flag.inj hflag).symm
      subst hzero
      refine ⟨?_, fun key hkey => ?_⟩
      · rw [hcache]
        exact Bool.and_false _
      · rcases h.contains_of_step hstep hkey with hold | hnew
        · refine h.pending_of_count hstep was (h.pending was key hold ?_)
          have hshards : layout.shards ≤ shard := by simpa [Store.shard?] using hbehind
          exact Nat.lt_of_lt_of_le (layout.place key).isLt hshards
        · exact hnew
    · cases hpanic

/-! ## Threads that end -/

/-- A rule for runs: no pass on a thread of the sweeper panics. -/
def Calm (m : Machine layout) (_ : Event) : Prop :=
  ∀ generation p, m.passes.get? generation = some p → p.panics = false

instance (m : Machine layout) (event : Event) : Decidable (m.Calm event) :=
  decidable_of_iff (∀ row ∈ m.passes.rows, row.2.panics = false)
    ⟨fun h generation p hp => h (generation, p) (Table.get?_eq_some_iff.mp hp),
      fun h row hrow => h row.1 row.2 (Table.get?_eq_some_iff.mpr hrow)⟩

theorem handles_of_step (hstep : m.step event = some n) (hhandles : 0 < n.cache.handles) :
    0 < m.cache.handles := by
  cases turn_of_step hstep with
  | idle cache passes => rwa [cache] at hhandles
  | ticked clock cache passes => rwa [cache] at hhandles
  | attached handles cache passes =>
    rw [clientHandles] at handles
    omega
  | detached enough dropped passes clients =>
    have hdrops := (Cache.drops_of_detach dropped).handles_eq
    omega
  | reordered reordered cache passes => rwa [cache] at hhandles
  | worked top step passes => rwa [(Frame.steers_step step).handles_eq] at hhandles
  | trod stage step cache passes => rwa [cache] at hhandles
  | missed gone free ended cache passes =>
    rw [cache] at hhandles
    exact absurd hhandles (by simp [gone])
  | entered stage free alive cache passes => exact alive
  | passed stage was step passes => rwa [(Pass.steers_step step).handles_eq] at hhandles
  | finished stage was step dropped ended cache_eq passes =>
    have hdrops := (Cache.drops_of_detach dropped).handles_eq
    rw [(Pass.steers_step step).handles_eq] at hdrops
    omega

theorem retired_of_step (hstep : m.step event = some n) {generation : Nat}
    (h : m.cache.sweeper.Retired generation) : n.cache.sweeper.Retired generation := by
  cases turn_of_step hstep with
  | idle cache passes => rwa [cache]
  | ticked clock cache passes => rwa [cache]
  | attached handles cache passes => rwa [cache]
  | detached enough detached passes clients => exact (Cache.drops_of_detach detached).retired h
  | reordered reordered cache passes => rwa [cache]
  | worked top step passes => exact h.shift (.steered (Frame.steers_step step).sweeper)
  | trod stage step cache passes =>
    rw [cache]
    exact h.shift (.trod (Sweeper.tread_of_step step))
  | missed gone free ended cache passes =>
    rw [cache]
    exact h.shift (.trod (Sweeper.tread_of_endPass ended))
  | entered stage free alive cache passes => rwa [cache]
  | passed stage was step passes => exact h.shift (.steered (Pass.steers_step step).sweeper)
  | finished stage was step detached ended cache_eq passes =>
    rw [cache_eq]
    have hsteered := h.shift (.steered (Pass.steers_step step).sweeper)
    have hdropped := (Cache.drops_of_detach detached).retired hsteered
    exact hdropped.shift (.trod (Sweeper.tread_of_endPass ended))

/-- What holds of threads that end as long as no pass panics and the cache is there. -/
structure Retiring (m : Machine layout) : Prop where
  /-- A pass that is about to end its thread has stopped the sweeper. -/
  leaving : ∀ {generation answer},
    m.frameAt (.sweeper generation) = some (.pass (.leave answer)) →
      answer = .flag false ∨ m.cache.sweeper.Retired generation ∨ ∃ panic, answer = .panicked panic
  ending : 0 < m.cache.handles → ∀ {generation},
    m.cache.sweeper.threads.get? generation = some .ending → m.cache.sweeper.Retired generation

namespace Retiring

theorem leaving_of_step (h : m.Retiring) (hstaffed : m.Staffed) (hstep : m.step event = some n)
    {generation : Nat} {answer : Answer}
    (hframe : n.frameAt (.sweeper generation) = some (.pass (.leave answer))) :
    answer = .flag false ∨ n.cache.sweeper.Retired generation ∨
      ∃ panic, answer = .panicked panic := by
  cases came_of_step hstep hframe with
  | stood was => exact (h.leaving was).imp_right (Or.imp_left (retired_of_step hstep))
  | began fresh => cases fresh
  | stepped was step =>
    obtain ⟨p, rfl, taken⟩ := Frame.pass_of_step step
    rcases Pass.leave_of_step taken with ⟨shard, total, -, -, hcache, rfl⟩ | hpanic
    · cases total with
      | zero =>
        -- the sweeper does not run any more, so the thread is not current
        obtain ⟨pass, hpass, -⟩ := Option.map_eq_some_iff.mp was
        have hlive := Table.mem_keys_iff.mpr (Option.isSome_of_eq_some (hstaffed.posted hpass))
        refine Or.inr (Or.inl ?_)
        rw [hcache]
        exact ⟨hstaffed.sound.bounded hlive, by simp [Sweeper.isCurrent, Sweeper.endStop]⟩
      | succ total => exact Or.inl rfl
    · exact Or.inr (Or.inr hpanic)

/-- A pass that did not panic and is not to be repeated has stopped the sweeper. -/
theorem retired_of_done (h : m.Retiring) (hcalm : m.Calm event) {generation : Nat} {pass : Pass}
    {cache : Cache layout} {answer : Answer} (hwas : m.passes.get? generation = some pass)
    (hdone : pass.step (.sweeper generation) m.cache = some (cache, .done answer)) :
    answer = .flag false ∨ m.cache.sweeper.Retired generation := by
  obtain ⟨rfl, -⟩ := Pass.eq_leave_of_done hdone
  rcases h.leaving (frameAt_of_pass hwas) with hagain | hretired | ⟨panic, rfl⟩
  · exact Or.inl hagain
  · exact Or.inr hretired
  · cases hcalm generation _ hwas

theorem ending_of_step (h : m.Retiring) (hstaffed : m.Staffed) (hcalm : m.Calm event)
    (hstep : m.step event = some n) (hhandles : 0 < n.cache.handles) {generation : Nat}
    (hending : n.cache.sweeper.threads.get? generation = some .ending) :
    n.cache.sweeper.Retired generation := by
  have hbefore := handles_of_step hstep hhandles
  have onward : m.cache.sweeper.threads.get? generation = some .ending →
      n.cache.sweeper.Retired generation :=
    fun hwas => retired_of_step hstep (h.ending hbefore hwas)
  have same : n.cache.sweeper.threads = m.cache.sweeper.threads →
      n.cache.sweeper.Retired generation := fun hthreads => onward (hthreads ▸ hending)
  cases turn_of_step hstep with
  | idle cache passes => exact same (by rw [cache])
  | ticked clock cache passes => exact same (by rw [cache])
  | attached handles cache passes => exact same (by rw [cache]; rfl)
  | detached enough dropped passes clients =>
    exact same (Cache.drops_of_detach dropped).threads_eq
  | reordered reordered cache passes => exact same (by rw [cache])
  | worked top step passes => exact onward ((Frame.steers_step step).sweeper.get?_of_ending hending)
  | @trod other sweeper stage step cache passes =>
    have htread := Sweeper.tread_of_step step
    have hending : sweeper.threads.get? generation = some .ending := by rwa [cache] at hending
    by_cases hother : generation = other
    · subst hother
      have hlive := htread.live
      have hcurrent := htread.isCurrent_of_ending stage hending
      exact retired_of_step hstep ⟨hstaffed.sound.bounded hlive, hcurrent⟩
    · exact onward (htread.get?_of_ne hother ▸ hending)
  | missed gone free ended cache passes => exact absurd hbefore (by simp [gone])
  | entered stage free alive cache passes => exact same (by rw [cache]; rfl)
  | passed stage was step passes =>
    exact onward ((Pass.steers_step step).sweeper.get?_of_ending hending)
  | @finished other pass cache detached answer sweeper stage was step dropped ended cache_eq
      passes =>
    rw [cache_eq] at hending
    by_cases hother : generation = other
    · subst hother
      rcases h.retired_of_done hcalm was step with rfl | hretired
      · simp only [Sweeper.endPass, decide_true, if_true] at ended
        split at ended
        · cases ended
          rw [Sweeper.advance, Table.get?_insert, if_pos rfl] at hending
          cases hending
        · cases ended
      · exact retired_of_step hstep hretired
    · rw [(Sweeper.tread_of_endPass ended).get?_of_ne hother,
        (Cache.drops_of_detach dropped).threads_eq] at hending
      exact onward ((Pass.steers_step step).sweeper.get?_of_ending hending)

theorem step (h : m.Retiring) (hstaffed : m.Staffed) (hcalm : m.Calm event)
    (hstep : m.step event = some n) : n.Retiring where
  leaving := h.leaving_of_step hstaffed hstep
  ending := h.ending_of_step hstaffed hcalm hstep

/-- A sweeper that runs goes on running, unless a count of all shards has come to zero. -/
theorem running_of_step (h : m.Retiring) (hstaffed : m.Staffed) (hstep : m.step event = some n)
    (hhandles : 0 < n.cache.handles) (hrunning : m.cache.sweeper.running = true) :
    n.cache.sweeper.running = true ∨ ∃ place shard,
      m.frameAt place = some (.pass (.sum shard 0)) ∧ m.cache.store.shard? shard = none := by
  have hbefore := handles_of_step hstep hhandles
  have passed : ∀ {generation pass} {cache : Cache layout} {progress : Progress Pass},
      m.passes.get? generation = some pass →
      pass.step (.sweeper generation) m.cache = some (cache, progress) →
      cache.sweeper.running = true ∨ ∃ place shard,
        m.frameAt place = some (.pass (.sum shard 0)) ∧ m.cache.store.shard? shard = none := by
    intro generation pass cache progress hwas hstep
    refine (Pass.running_of_step hstep hrunning).imp_right ?_
    rintro ⟨shard, rfl, hbehind⟩
    exact ⟨.sweeper generation, shard, frameAt_of_pass hwas, hbehind⟩
  cases turn_of_step hstep with
  | idle cache passes => exact Or.inl (by rwa [cache])
  | ticked clock cache passes => exact Or.inl (by rwa [cache])
  | attached handles cache passes => exact Or.inl (by rwa [cache])
  | detached enough dropped passes clients =>
    rw [(Cache.drops_of_detach dropped).kept hhandles]
    exact Or.inl hrunning
  | reordered reordered cache passes => exact Or.inl (by rwa [cache])
  | worked top step passes =>
    refine (Frame.running_of_step step hrunning).imp_right ?_
    rintro ⟨shard, rfl, hbehind⟩
    obtain ⟨place, -, hframe⟩ := frameAt_of_top? top
    exact ⟨place, shard, hframe, hbehind⟩
  | @trod generation sweeper stage step cache passes =>
    rw [cache]
    refine Or.inl ?_
    have hsame := hstaffed.sound.unnoticed (fun hending => (h.ending hbefore hending).2)
      (Sweeper.tread_of_step step)
    exact hsame.1.trans hrunning
  | missed gone free ended cache passes => exact absurd hbefore (by simp [gone])
  | entered stage free alive cache passes => exact Or.inl (by rwa [cache])
  | passed stage was step passes => exact passed was step
  | @finished generation pass cache detached answer sweeper stage was step dropped ended cache_eq
      passes =>
    refine (passed was step).imp_left fun hafter => ?_
    rw [cache_eq] at hhandles ⊢
    have hsame := (Cache.drops_of_detach dropped).kept hhandles
    simp only [Sweeper.endPass] at ended
    split at ended
    · cases ended
      rw [← hsame] at hafter
      exact hafter
    · cases ended

end Retiring

/-! ## Runs -/

/-- What holds between any two events of a run in which no pass of the sweeper panics. -/
structure Watched (m : Machine layout) : Prop where
  retiring : m.Retiring
  watched : 0 < m.cache.handles → ∀ key, m.cache.contains key = true →
    m.cache.sweeper.running = true ∨ m.Pending key

theorem watched_ofConfig (config : Config) (clock : Instant) :
    (ofConfig layout config clock).Watched where
  retiring := by
    refine ⟨fun {generation answer} hpass => ?_, fun _ {generation} hending => ?_⟩
    · cases hpass
    · cases hending
  watched := by
    intro _ key hkey
    have habsent : (Store.empty : Store layout).get? key = none := Store.get?_empty key
    simp [ofConfig, Cache.ofConfig, Cache.contains, habsent] at hkey

theorem Watched.step (h : m.Watched) (hcounted : m.Counted)
    (hcalm : m.Calm event) (hstep : m.step event = some n) : n.Watched where
  retiring := h.retiring.step hcounted.staffed hcalm hstep
  watched := by
    intro hhandles key hkey
    rcases hcounted.contains_of_step hstep hkey with hold | hnew
    · have waits : m.Pending key → n.cache.sweeper.running = true ∨ n.Pending key := by
        intro hpending
        exact (pending_of_step hcounted.staffed hstep hpending).symm.imp_left And.right
      rcases h.watched (handles_of_step hstep hhandles) key hold with hrunning | hpending
      · rcases h.retiring.running_of_step hcounted.staffed hstep hhandles hrunning with
          hruns | ⟨place, shard, hframe, hbehind⟩
        · exact Or.inl hruns
        · refine waits (hcounted.pending hframe key hold ?_)
          have hshards : layout.shards ≤ shard := by simpa [Store.shard?] using hbehind
          exact Nat.lt_of_lt_of_le (layout.place key).isLt hshards
      · exact waits hpending
    · exact Or.inr hnew

theorem counted_of_run {config : Config} {clock : Instant} {events : List Event}
    (hrun : (ofConfig layout config clock).runAll events = some m) : m.Counted :=
  run_induction (P := Counted) (fun h hstep => h.step hstep) (counted_ofConfig config clock) hrun

theorem watched_of_run {config : Config} {clock : Instant} {events : List Event}
    (hheeds : (ofConfig layout config clock).Heeds Calm events)
    (hrun : (ofConfig layout config clock).runAll events = some m) : m.Watched := by
  refine (heeds_induction (P := fun m => m.Counted ∧ m.Watched) ?_
    ⟨counted_ofConfig config clock, watched_ofConfig config clock⟩ hheeds hrun).2
  rintro m n event ⟨hcounted, hwatched⟩ hcalm hstep
  exact ⟨hcounted.step hstep, hwatched.step hcounted hcalm hstep⟩

/-- The pass at a place has stopped the sweeper and has still to tell so. -/
def Stopped (m : Machine layout) (place : Place) : Prop :=
  m.frameAt place = some (.pass (.leave (.flag true)))

/-- How it came that a pass has stopped the sweeper in a run. -/
structure Stop (start : Machine layout) (events : List Event) (place : Place)
    (before : List Event) (event : Event) (after : List Event) (last next : Machine layout) :
    Prop where
  split : events = before ++ event :: after
  reached : start.runAll before = some last
  stopped : last.step event = some next
  newly : ¬last.Stopped place
  running : next.cache.sweeper.running = false
  pending : ∀ key, next.cache.contains key = true → next.Pending key
  stays : ∀ first rest mid, after = first ++ rest → next.runAll first = some mid →
    mid.Stopped place

theorem runAll_concat {m n : Machine layout} {events : List Event} {event : Event}
    (h : m.runAll (events ++ [event]) = some n) :
    ∃ last, m.runAll events = some last ∧ last.step event = some n := by
  rw [runAll, List.foldlM_append, Option.bind_eq_bind, Option.bind_eq_some_iff] at h
  obtain ⟨last, hlast, hstep⟩ := h
  refine ⟨last, hlast, ?_⟩
  simpa using hstep

/-- A pass that has still to tell that it has stopped the sweeper stopped it when it did. -/
theorem Stop.onward {start last next : Machine layout} {events before after : List Event}
    {moment : Event} {place : Place} (h : Stop start events place before moment after last next)
    (hrun : start.runAll (events ++ [event]) = some m) (hstopped : m.Stopped place) :
    Stop start (events ++ [event]) place before moment (after ++ [event]) last next where
  split := by rw [h.split, List.append_assoc, List.cons_append]
  reached := h.reached
  stopped := h.stopped
  newly := h.newly
  running := h.running
  pending := h.pending
  stays := by
    intro first rest mid hsplit hmid
    rcases List.eq_nil_or_concat rest with rfl | ⟨rest, final, rfl⟩
    · have hall : start.runAll (events ++ [event]) = some mid := by
        have hreached := h.reached
        rw [runAll] at hreached
        rw [h.split, List.append_assoc, List.cons_append, hsplit, List.append_nil, runAll,
          List.foldlM_append, hreached, Option.bind_eq_bind, Option.bind_some, List.foldlM_cons,
          h.stopped]
        exact hmid
      cases hall.symm.trans hrun
      exact hstopped
    · rw [List.concat_eq_append, ← List.append_assoc] at hsplit
      obtain ⟨hsame, -⟩ := List.append_inj' hsplit rfl
      exact h.stays first rest mid hsame hmid

theorem stop_of_run {config : Config} {clock : Instant} {events : List Event}
    (hrun : (ofConfig layout config clock).runAll events = some m) {place : Place}
    (hstopped : m.Stopped place) :
    ∃ before event after last next,
      Stop (ofConfig layout config clock) events place before event after last next := by
  induction events using List.reverseRecOn generalizing m with
  | nil =>
    cases hrun
    rw [Stopped, frameAt_ofConfig] at hstopped
    cases hstopped
  | append_singleton events event ih =>
    obtain ⟨last, hlast, hstep⟩ := runAll_concat hrun
    by_cases hwas : last.Stopped place
    · obtain ⟨before, moment, after, first, next, hstop⟩ := ih hlast hwas
      exact ⟨before, moment, after ++ [event], first, next, hstop.onward hrun hstopped⟩
    · obtain ⟨hrunning, hpending⟩ := stopped_of_step (counted_of_run hlast) hstep hwas hstopped
      refine ⟨events, event, [], last, m, rfl, hlast, hstep, hwas, hrunning, hpending, ?_⟩
      intro first rest mid hsplit hmid
      obtain ⟨rfl, -⟩ := List.append_eq_nil_iff.mp hsplit.symm
      cases hmid
      exact hstopped

/--
As long as no pass of the sweeper panics, the sweeper runs if anything is stored, apart from what
was stored by operations that are about to start it.  A pass answers that it has stopped the sweeper
only if at that moment nothing was stored apart from that.  And whatever passes have panicked,
whoever stores a value starts the sweeper right after, and leaves it running.
-/
theorem stored_keys_are_watched {config : Config} {clock : Instant} {events : List Event}
    (hrun : (ofConfig layout config clock).runAll events = some m) :
    ((ofConfig layout config clock).Heeds Calm events → 0 < m.cache.handles →
      ∀ key, m.cache.contains key = true → ¬m.Pending key → m.cache.sweeper.running = true) ∧
    (∀ place p c, m.frameAt place = some (.pass p) →
      p.step place.worker m.cache = some (c, .done (.flag true)) →
        ∃ before event after last next,
          Stop (ofConfig layout config clock) events place before event after last next) ∧
    (∀ place key request ticket other value deadline todo answer,
      m.frameAt place = some
        (.access ⟨key, request, .perform ticket (.put other value deadline :: todo) answer⟩) →
      other = key ∧ todo = [.wake, .use key]) ∧
    ∀ number a, m.top? (.client number) = some (.access a) → a.isWaking = true →
      ∀ n, m.step (.run (.client number)) = some n → n.cache.sweeper.running = true := by
  have hcounted := counted_of_run hrun
  refine ⟨fun hheeds hhandles key hkey hpending => ?_, fun place p c hframe hdone => ?_, ?_, ?_⟩
  · have hwatched := (watched_of_run hheeds hrun).watched hhandles key hkey
    exact hwatched.resolve_right hpending
  · obtain ⟨rfl, -⟩ := Pass.eq_leave_of_done hdone
    exact stop_of_run hrun hframe
  · intro place key request ticket other value deadline todo answer hframe
    rcases hcounted.follows hframe with hplain | ⟨value', deadline', heq⟩
    · exact absurd (hplain _ List.mem_cons_self) (by simp [Effect.isPut])
    · cases heq
      exact ⟨rfl, rfl⟩
  · exact fun number a htop hwaking n => started_of_step hcounted.staffed htop hwaking

/--
A pass has found everything expired and counts the entries that are left, of which there are none,
when a client stores another one.  The pass stops the sweeper, and the client starts it again.
-/
def recount : List Event :=
  creation 0 "a" leastTtl .unit ++
    [.tick leastTtl, .call 1 (.access "b" (.create .unit leastTtl))] ++
    List.replicate 4 (.run (.client 1)) ++ [.provide 1 (.value .unit), .call 0 .purge] ++
    List.replicate 15 (.run (.client 0)) ++ [.run (.client 1), .run (.client 0)]

theorem stored_keys_are_watched_recount :
    (∃ m n, runAll (ofConfig .flat keepLast ⟨0⟩) recount = some m ∧
      m.cache.contains "b" = true ∧ m.cache.sweeper.running = false ∧
      (∃ before event after last next,
        Stop (ofConfig .flat keepLast ⟨0⟩) recount (.client 0 0) before event after last next) ∧
      m.step (.run (.client 1)) = some n ∧ n.cache.sweeper.running = true) ∧
    ∃ m, runAll (ofConfig .flat keepLast ⟨0⟩)
        (recount ++ [.run (.client 0)] ++ List.replicate 4 (.run (.client 1))) = some m ∧
      m.cache.contains "b" = true ∧ m.cache.sweeper.running = true := by
  constructor
  · have hrun := Option.eq_some_of_isSome (o := runAll (ofConfig .flat keepLast ⟨0⟩) recount)
      (by decide +kernel)
    obtain ⟨-, hstop, -, hwaking⟩ := stored_keys_are_watched hrun
    have hnext := hwaking 1
      ⟨"b", .create .unit leastTtl, .perform 1 [.wake, .use "b"] (.value .unit)⟩
      (by decide +kernel) rfl
    have hlonger := Option.eq_some_of_isSome (o := runAll (ofConfig .flat keepLast ⟨0⟩)
      (recount ++ [.run (.client 1)])) (by decide +kernel)
    obtain ⟨last, hlast, hstep⟩ := runAll_concat hlonger
    obtain rfl := Option.some.inj (hlast.symm.trans hrun)
    exact ⟨_, _, hrun, by decide +kernel, by decide +kernel,
      hstop (.client 0 0) (.leave (.flag true)) _ (by decide +kernel) rfl, hstep, hnext _ hstep⟩
  · have hrun := Option.eq_some_of_isSome (o := runAll (ofConfig .flat keepLast ⟨0⟩)
      (recount ++ [.run (.client 0)] ++ List.replicate 4 (.run (.client 1)))) (by decide +kernel)
    have hheeds : (ofConfig .flat keepLast ⟨0⟩).Heeds Calm
        (recount ++ [.run (.client 0)] ++ List.replicate 4 (.run (.client 1))) := by decide +kernel
    have hwatched := (stored_keys_are_watched hrun).1 hheeds (by decide +kernel)
      "b" (by decide +kernel) (not_pending_of_isQuiet (by decide +kernel) "b")
    exact ⟨_, hrun, by decide +kernel, hwatched⟩

end Machine

end TtlCache
