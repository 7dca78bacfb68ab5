import TtlCache.Proofs.Machine.Stacks

/-!
# Threads of the sweeper and their passes

A thread of the sweeper that is due runs a pass, for which it takes a handle of its own.
`Machine.turn_of_step` says once what an event does to the cache and to these passes.  It follows
that a pass is run by a live thread, that there is a handle for every pass and one more while a
client has something in progress, and that the sweeper is shut down only when the last handle goes.
-/

namespace TtlCache

variable {layout : Layout}

/-! ## What operations do to the sweeper -/

/-- What an operation does to the sweeper; the handles are not its business. -/
structure Cache.Steers (c d : Cache layout) : Prop where
  sweeper : c.sweeper.Steer d.sweeper
  handles_eq : d.handles = c.handles

theorem Cache.Steers.of_same {c d : Cache layout} (hsweeper : d.sweeper = c.sweeper)
    (hhandles : d.handles = c.handles) : c.Steers d :=
  ⟨hsweeper ▸ .still, hhandles⟩

theorem Effect.steers_apply {effect : Effect} {c d : Cache layout} (h : effect.apply c = some d) :
    c.Steers d := by
  cases effect with
  | wake =>
    obtain ⟨sweeper, hstart, rfl⟩ := Option.map_eq_some_iff.mp h
    exact ⟨Sweeper.steer_of_start hstart, rfl⟩
  | _ =>
    cases h
    exact .of_same rfl rfl

theorem Access.steers_step {a : Access} {c d : Cache layout} {progress : Progress Access}
    (h : a.step c = some (d, progress)) : c.Steers d := by
  cases stride_of_step h with
  | @look key request ticket =>
    unfold look
    split <;> exact .of_same rfl rfl
  | effect applied => exact Effect.steers_apply applied
  | _ => exact .of_same rfl rfl

theorem Pass.steers_giveUp (c : Cache layout) (ticket : Nat) (key : Key) (marks : List Mark)
    (next : Pass) : c.Steers (giveUp c ticket key marks next).1 := by
  unfold giveUp
  split <;> exact .of_same rfl rfl

theorem Pass.steers_step {p : Pass} {who : Worker} {c d : Cache layout} {progress : Progress Pass}
    (h : p.step who c = some (d, progress)) : c.Steers d := by
  cases stride_of_step h with
  | dismiss => exact steers_giveUp _ _ _ _ _
  | effect applied => exact Effect.steers_apply applied
  | removed => exact steers_giveUp _ _ _ _ _
  | decide begun =>
    obtain ⟨-, rfl⟩ := Sweeper.beginStop_eq_some_iff.mp begun
    exact ⟨.begun, rfl⟩
  | summed behind => exact ⟨.decided _, rfl⟩
  | unwind => exact steers_giveUp _ _ _ _ _
  | _ => exact .of_same rfl rfl

theorem Frame.steers_step {frame : Frame} {who : Worker} {c d : Cache layout}
    {progress : Progress Frame} (h : frame.step who c = some (d, progress)) : c.Steers d := by
  cases stride_of_step h with
  | access step => exact Access.steers_step step
  | pass step => exact Pass.steers_step step
  | _ => exact .of_same rfl rfl

namespace Sweeper.Steer

variable {s t : Sweeper}

theorem get?_of_live (h : s.Steer t) (hsound : s.Sound) {generation : Nat} {stage : SweeperStage}
    (hlive : s.threads.get? generation = some stage) :
    t.threads.get? generation = some stage := by
  cases h with
  | started idle opened =>
    rw [Table.get?_insert, if_neg, hlive]
    rintro rfl
    exact hsound.next_fresh (Table.mem_keys_iff.mpr (Option.isSome_of_eq_some hlive))
  | _ => exact hlive

theorem shutdown_eq (h : s.Steer t) : t.shutdown = s.shutdown := by
  cases h <;> rfl

theorem get?_of_ending (h : s.Steer t) {generation : Nat}
    (hending : t.threads.get? generation = some .ending) :
    s.threads.get? generation = some .ending := by
  cases h with
  | started idle opened =>
    rw [Table.get?_insert] at hending
    split at hending
    · cases hending
    · exact hending
  | _ => exact hending

end Sweeper.Steer

/-- A handle that is dropped is one of several, or the last one, which shuts the sweeper down. -/
theorem Cache.detach_cases {c d : Cache layout} (h : c.detach = some d) :
    (1 < c.handles ∧ d = { c with handles := c.handles - 1 }) ∨
      c.handles = 1 ∧ c.sweeper.deciding = false ∧
        d = { c with
          handles := 0
          sweeper := { c.sweeper with shutdown := true, running := false } } := by
  unfold detach at h
  split at h
  · cases h
  · next hone =>
    obtain ⟨sweeper, hclose, rfl⟩ := Option.map_eq_some_iff.mp h
    obtain ⟨hdeciding, rfl⟩ := Sweeper.close_eq_some_iff.mp hclose
    exact Or.inr ⟨hone, hdeciding, rfl⟩
  · next handles hmore =>
    cases h
    exact Or.inl ⟨by omega, by simp [hmore]⟩

/-- What dropping a handle changes, be it the last one or not. -/
structure Cache.Drops (c d : Cache layout) : Prop where
  store_eq : d.store = c.store
  handles_eq : d.handles + 1 = c.handles
  threads_eq : d.sweeper.threads = c.sweeper.threads
  sound : c.sweeper.Sound → d.sweeper.Sound
  closed : d.sweeper.shutdown = true → d.handles = 0 ∨ c.sweeper.shutdown = true
  retired : ∀ {generation}, c.sweeper.Retired generation → d.sweeper.Retired generation
  kept : 0 < d.handles → d.sweeper = c.sweeper

theorem Cache.drops_of_detach {c d : Cache layout} (h : c.detach = some d) : c.Drops d := by
  rcases detach_cases h with ⟨hmore, rfl⟩ | ⟨hone, -, rfl⟩
  · exact ⟨rfl, Nat.sub_add_cancel (Nat.le_of_lt hmore), rfl, id, Or.inr, id, fun _ => rfl⟩
  · exact ⟨rfl, hone.symm, rfl, fun hsound => hsound.close, fun _ => Or.inl rfl,
      fun hretired => hretired.shift .closed, fun hsome => absurd hsome (Nat.lt_irrefl 0)⟩

namespace Machine

/-! ## What an event does -/

/-- What an event can do to the cache and to the passes on the sweeper's threads. -/
inductive Turn (m n : Machine layout) : Prop where
  | idle (cache : n.cache = m.cache) (passes : n.passes = m.passes)
  | ticked (clock : Instant) (cache : n.cache = { m.cache with clock := clock })
      (passes : n.passes = m.passes)
  | attached (handles : 0 < m.clientHandles) (cache : n.cache = m.cache.attach)
      (passes : n.passes = m.passes)
  | detached (enough : 1 < m.clientHandles ∨ m.isQuiet = true ∧ 0 < m.clientHandles)
      (dropped : m.cache.detach = some n.cache) (passes : n.passes = m.passes)
      (clients : n.clients = m.clients)
  | reordered {shard : Nat} {rows : Table Key Entry} {store : Store layout}
      (reordered : m.cache.store.reorder? shard rows = some store)
      (cache : n.cache = { m.cache with store := store }) (passes : n.passes = m.passes)
  | worked {number : Nat} {frame : Frame} {progress : Progress Frame}
      (top : m.top? (.client number) = some frame)
      (step : frame.step (.client number) m.cache = some (n.cache, progress))
      (passes : n.passes = m.passes)
  | trod {generation : Nat} {sweeper : Sweeper}
      (stage : m.cache.sweeper.threads.get? generation ≠ some .passing)
      (step : m.cache.sweeper.step generation m.cache.clock = some sweeper)
      (cache : n.cache = { m.cache with sweeper := sweeper }) (passes : n.passes = m.passes)
  /-- A thread that is due finds the cache gone. -/
  | missed {generation : Nat} {sweeper : Sweeper} (gone : m.cache.handles = 0)
      (free : m.passes.get? generation = none)
      (ended : m.cache.sweeper.endPass generation false = some sweeper)
      (cache : n.cache = { m.cache with sweeper := sweeper }) (passes : n.passes = m.passes)
  | entered {generation : Nat}
      (stage : m.cache.sweeper.threads.get? generation = some .passing)
      (free : m.passes.get? generation = none) (alive : 0 < m.cache.handles)
      (cache : n.cache = m.cache.attach) (passes : n.passes = m.passes.insert generation .enter)
  | passed {generation : Nat} {pass next : Pass}
      (stage : m.cache.sweeper.threads.get? generation = some .passing)
      (was : m.passes.get? generation = some pass)
      (step : pass.step (.sweeper generation) m.cache = some (n.cache, .more next))
      (passes : n.passes = m.passes.insert generation next)
  | finished {generation : Nat} {pass : Pass} {cache detached : Cache layout} {answer : Answer}
      {sweeper : Sweeper} (stage : m.cache.sweeper.threads.get? generation = some .passing)
      (was : m.passes.get? generation = some pass)
      (step : pass.step (.sweeper generation) m.cache = some (cache, .done answer))
      (dropped : cache.detach = some detached)
      (ended : detached.sweeper.endPass generation (decide (answer = .flag false)) = some sweeper)
      (cache_eq : n.cache = { detached with sweeper := sweeper })
      (passes : n.passes = m.passes.erase generation)

theorem turn_of_runClient {m n : Machine layout} {number : Nat}
    (h : m.runClient number = some n) : m.Turn n := by
  simp only [runClient] at h
  split at h
  · cases h
  · next frame outer hstack =>
    simp only [Option.map_eq_some_iff, Prod.exists] at h
    obtain ⟨cache, progress, hstep, hn⟩ := h
    have htop : m.top? (.client number) = some frame := by
      rw [top?, hstack]
      rfl
    cases progress <;> subst hn <;> exact .worked htop hstep rfl

theorem turn_of_runPass {m n : Machine layout} {generation : Nat}
    (hstage : m.cache.sweeper.threads.get? generation = some .passing)
    (h : m.runPass generation = some n) : m.Turn n := by
  unfold runPass at h
  split at h
  · next hfree =>
    split at h
    · next hgone =>
      obtain ⟨sweeper, hended, rfl⟩ := Option.map_eq_some_iff.mp h
      exact .missed hgone hfree hended rfl rfl
    · next halive =>
      cases h
      exact .entered hstage hfree (Nat.pos_of_ne_zero halive) rfl rfl
  · next pass hpass =>
    simp only [Option.bind_eq_some_iff, Prod.exists] at h
    obtain ⟨cache, progress, hstep, hn⟩ := h
    cases progress with
    | more next =>
      cases hn
      exact .passed hstage hpass hstep rfl
    | done answer =>
      simp only [endPass, Option.bind_eq_bind, Option.bind_eq_some_iff, Option.some.injEq] at hn
      obtain ⟨detached, hdetached, sweeper, hended, rfl⟩ := hn
      exact .finished hstage hpass hstep hdetached hended rfl rfl

theorem turn_of_step {m n : Machine layout} {event : Event} (h : m.step event = some n) :
    m.Turn n := by
  cases event with
  | call number request =>
    simp only [step, call, Option.ite_none_right_eq_some] at h
    replace h := h.2
    split at h <;> cases h <;> exact .idle rfl rfl
  | provide number outcome =>
    simp only [step, provide] at h
    split at h
    · obtain ⟨next, -, rfl⟩ := Option.map_eq_some_iff.mp h
      exact .idle rfl rfl
    · cases h
  | run worker =>
    cases worker with
    | client number => exact turn_of_runClient h
    | sweeper generation =>
      simp only [step, run, runSweeper] at h
      split at h
      · next hstage => exact turn_of_runPass hstage h
      · next hstage =>
        obtain ⟨sweeper, hstep, rfl⟩ := Option.map_eq_some_iff.mp h
        exact .trod hstage hstep rfl rfl
  | tick elapsed =>
    obtain ⟨clock, -, rfl⟩ := Option.map_eq_some_iff.mp h
    exact .ticked clock rfl rfl
  | attach =>
    simp only [step, Option.ite_none_right_eq_some, Option.some.injEq] at h
    obtain ⟨hhandles, rfl⟩ := h
    exact .attached hhandles rfl rfl
  | detach =>
    simp only [step, Option.ite_none_right_eq_some, Bool.or_eq_true, Bool.and_eq_true,
      decide_eq_true_eq] at h
    obtain ⟨henough, h⟩ := h
    obtain ⟨cache, hdropped, rfl⟩ := Option.map_eq_some_iff.mp h
    exact .detached henough hdropped rfl rfl
  | reorder shard rows =>
    obtain ⟨store, hstore, rfl⟩ := Option.map_eq_some_iff.mp h
    exact .reordered hstore rfl rfl

/-! ## Passes, threads and handles -/

/-- What holds of the sweeper, its passes and the handles between any two events. -/
structure Staffed (m : Machine layout) : Prop where
  sound : m.cache.sweeper.Sound
  posted : ∀ {generation pass}, m.passes.get? generation = some pass →
    m.cache.sweeper.threads.get? generation = some .passing
  /-- Every pass has a handle of its own. -/
  borne : m.passes.size ≤ m.cache.handles
  served : ∀ {number}, (m.client number).stack ≠ [] → m.passes.size < m.cache.handles
  closed : m.cache.sweeper.shutdown = true → m.cache.handles = 0

theorem staffed_ofConfig (config : Config) (clock : Instant) :
    (ofConfig layout config clock).Staffed where
  sound := Sweeper.sound_idle config.interval
  posted := by
    intro generation pass hpass
    cases hpass
  borne := Nat.zero_le 1
  served := fun _ => Nat.zero_lt_one
  closed := by
    intro hshutdown
    cases hshutdown

theorem stack_ne_nil_of_step {m n : Machine layout} {event : Event} {number : Nat}
    (h : m.step event = some n) (hstack : (n.client number).stack ≠ []) :
    (m.client number).stack ≠ [] ∨ 0 < m.clientHandles := by
  cases restack_of_step h number with
  | same stack_eq => exact Or.inl (stack_eq ▸ hstack)
  | pushed event_eq opened mayCall handles => exact Or.inr handles
  | replaced was => exact Or.inl (by simp [was])
  | popped was => exact Or.inl (by simp [was])

theorem stack_eq_nil_of_isQuiet {m : Machine layout} (h : m.isQuiet = true) (number : Nat) :
    (m.client number).stack = [] := by
  cases hclient : m.clients.get? number with
  | none => simp [Machine.client, hclient, Client.idle]
  | some client =>
    have hrow := List.all_eq_true.mp h (number, client) (Table.get?_eq_some_iff.mp hclient)
    simpa [Machine.client, hclient] using hrow

namespace Staffed

variable {m n : Machine layout} {event : Event}

/-- Nobody else's thread is touched, so only the thread that takes the step is of interest. -/
theorem posted_of_tread (h : m.Staffed) {generation other : Nat} {pass : Pass} {sweeper : Sweeper}
    (htread : m.cache.sweeper.Tread generation sweeper) (hother : other ≠ generation)
    (hpass : m.passes.get? other = some pass) : sweeper.threads.get? other = some .passing := by
  rw [htread.get?_of_ne hother]
  exact h.posted hpass

theorem size_insert_of_none {passes : Table Nat Pass} {generation : Nat} (pass : Pass)
    (h : passes.get? generation = none) :
    (passes.insert generation pass).size = passes.size + 1 := by
  rw [Table.size, Table.rows_insert_of_notMem (Table.get?_eq_none_iff.mp h), List.length_append]
  rfl

theorem size_insert_of_some {passes : Table Nat Pass} {generation : Nat} {was : Pass} (pass : Pass)
    (h : passes.get? generation = some was) :
    (passes.insert generation pass).size = passes.size := by
  have hmem := Table.mem_keys_iff.mpr (Option.isSome_of_eq_some h)
  rw [← Table.length_keys, Table.keys_insert_of_mem hmem, Table.length_keys]

theorem size_erase_of_some {passes : Table Nat Pass} {generation : Nat} {was : Pass}
    (h : passes.get? generation = some was) :
    (passes.erase generation).size + 1 = passes.size := by
  simpa [Table.size] using Table.countP_erase_of_get? h fun _ => true

theorem of_handles (h : m.Staffed) (hstep : m.step event = some n)
    (hsound : n.cache.sweeper.Sound)
    (hposted : ∀ {generation pass}, n.passes.get? generation = some pass →
      n.cache.sweeper.threads.get? generation = some .passing)
    (hhandles : m.cache.handles + n.passes.size ≤ n.cache.handles + m.passes.size)
    (hclosed : n.cache.sweeper.shutdown = true → n.cache.handles = 0) : n.Staffed := by
  have hborne := h.borne
  refine ⟨hsound, hposted, by omega, fun {number} hstack => ?_, hclosed⟩
  have hclient : m.passes.size < m.cache.handles := by
    rcases stack_ne_nil_of_step hstep hstack with hwas | hguard
    · exact h.served hwas
    · rw [clientHandles] at hguard
      omega
  omega

theorem steered (h : m.Staffed) (hstep : m.step event = some n) (hsteers : m.cache.Steers n.cache)
    (hpasses : n.passes.size = m.passes.size)
    (hposts : ∀ {generation pass}, n.passes.get? generation = some pass →
      ∃ was, m.passes.get? generation = some was) : n.Staffed := by
  refine h.of_handles hstep (h.sound.steer hsteers.sweeper) ?_ ?_ ?_
  · intro generation pass hpass
    obtain ⟨was, hwas⟩ := hposts hpass
    exact hsteers.sweeper.get?_of_live h.sound (h.posted hwas)
  · have hhandles := hsteers.handles_eq
    omega
  · intro hshutdown
    rw [hsteers.sweeper.shutdown_eq] at hshutdown
    rw [hsteers.handles_eq]
    exact h.closed hshutdown

theorem detached (h : m.Staffed)
    (henough : 1 < m.clientHandles ∨ m.isQuiet = true ∧ 0 < m.clientHandles)
    (hdropped : m.cache.detach = some n.cache) (hpasses : n.passes = m.passes)
    (hclients : n.clients = m.clients) : n.Staffed := by
  have hdrops := Cache.drops_of_detach hdropped
  have hborne := h.borne
  have hhandles := hdrops.handles_eq
  rw [clientHandles] at henough
  refine ⟨hdrops.sound h.sound, ?_, by rw [hpasses]; omega, ?_, ?_⟩
  · intro generation pass hpass
    rw [hdrops.threads_eq]
    exact h.posted (hpasses ▸ hpass)
  · intro number hstack
    rw [client_congr hclients] at hstack
    rw [hpasses]
    rcases henough with hmany | ⟨hquiet, -⟩
    · omega
    · exact absurd (stack_eq_nil_of_isQuiet hquiet number) hstack
  · intro hshutdown
    rcases hdrops.closed hshutdown with hnone | hbefore
    · exact hnone
    · have hnone := h.closed hbefore
      omega

theorem trod (h : m.Staffed) (hstep : m.step event = some n) {generation : Nat} {sweeper : Sweeper}
    (htread : m.cache.sweeper.Tread generation sweeper)
    (hfree : m.passes.get? generation = none)
    (hcache : n.cache = { m.cache with sweeper := sweeper }) (hpasses : n.passes = m.passes) :
    n.Staffed := by
  refine h.of_handles hstep ?_ ?_ (Nat.le_of_eq (by rw [hcache, hpasses])) ?_
  · rw [hcache]
    exact h.sound.tread htread
  · intro other pass hpass
    rw [hpasses] at hpass
    rw [hcache]
    refine h.posted_of_tread htread ?_ hpass
    rintro rfl
    rw [hfree] at hpass
    cases hpass
  · intro hshutdown
    rw [hcache] at hshutdown ⊢
    exact h.closed (htread.shutdown_eq ▸ hshutdown)

theorem finished (h : m.Staffed) (hstep : m.step event = some n) {generation : Nat} {pass : Pass}
    {cache detached : Cache layout} {sweeper : Sweeper} {again : Bool}
    (hwas : m.passes.get? generation = some pass) (hsteers : m.cache.Steers cache)
    (hdropped : cache.detach = some detached)
    (hended : detached.sweeper.endPass generation again = some sweeper)
    (hcache : n.cache = { detached with sweeper := sweeper })
    (hpasses : n.passes = m.passes.erase generation) : n.Staffed := by
  have htread := Sweeper.tread_of_endPass hended
  have hdrops := Cache.drops_of_detach hdropped
  have hsize := size_erase_of_some hwas
  have hhandles := hdrops.handles_eq.trans hsteers.handles_eq
  refine h.of_handles hstep ?_ ?_ ?_ ?_
  · rw [hcache]
    exact (hdrops.sound (h.sound.steer hsteers.sweeper)).tread htread
  · intro other pass hpass
    rw [hpasses, Table.get?_erase] at hpass
    split at hpass
    · cases hpass
    · next hother =>
      rw [hcache, htread.get?_of_ne hother, hdrops.threads_eq]
      exact hsteers.sweeper.get?_of_live h.sound (h.posted hpass)
  · rw [hcache, hpasses]
    show m.cache.handles + (m.passes.erase generation).size ≤ detached.handles + m.passes.size
    omega
  · intro hshutdown
    rw [hcache] at hshutdown ⊢
    rw [htread.shutdown_eq] at hshutdown
    rcases hdrops.closed hshutdown with hnone | hbefore
    · exact hnone
    · rw [hsteers.sweeper.shutdown_eq] at hbefore
      have hnone := h.closed hbefore
      show detached.handles = 0
      omega

theorem step (h : m.Staffed) (hstep : m.step event = some n) : n.Staffed := by
  -- an event that leaves the sweeper and the passes alone
  have still : n.cache.sweeper = m.cache.sweeper → n.cache.handles = m.cache.handles →
      n.passes = m.passes → n.Staffed := by
    intro hsweeper hhandles hpasses
    refine h.steered hstep (.of_same hsweeper hhandles) (by rw [hpasses]) ?_
    intro generation pass hpass
    exact ⟨pass, hpasses ▸ hpass⟩
  cases turn_of_step hstep with
  | idle cache passes => exact still (by rw [cache]) (by rw [cache]) passes
  | ticked clock cache passes => exact still (by rw [cache]) (by rw [cache]) passes
  | attached handles cache passes =>
    refine h.of_handles hstep ?_ ?_ ?_ ?_
    · rw [cache]
      exact h.sound
    · intro generation pass hpass
      rw [cache]
      exact h.posted (passes ▸ hpass)
    · rw [cache, passes]
      show m.cache.handles + m.passes.size ≤ m.cache.handles + 1 + m.passes.size
      omega
    · intro hshutdown
      rw [cache] at hshutdown
      have hnone := h.closed hshutdown
      rw [clientHandles] at handles
      omega
  | detached enough dropped passes clients => exact h.detached enough dropped passes clients
  | reordered reordered cache passes => exact still (by rw [cache]) (by rw [cache]) passes
  | worked top step passes =>
    refine h.steered hstep (Frame.steers_step step) (by rw [passes]) ?_
    intro generation pass hpass
    exact ⟨pass, passes ▸ hpass⟩
  | @trod generation sweeper stage step cache passes =>
    refine h.trod hstep (Sweeper.tread_of_step step) ?_ cache passes
    exact Option.eq_none_iff_forall_ne_some.mpr fun pass hpass => stage (h.posted hpass)
  | missed gone free ended cache passes =>
    exact h.trod hstep (Sweeper.tread_of_endPass ended) free cache passes
  | @entered generation stage free alive cache passes =>
    have hsize : n.passes.size = m.passes.size + 1 := by
      rw [passes, size_insert_of_none .enter free]
    refine h.of_handles hstep ?_ ?_ ?_ ?_
    · rw [cache]
      exact h.sound
    · intro other pass hpass
      rw [passes, Table.get?_insert] at hpass
      rw [cache]
      split at hpass
      · next hother =>
        rw [hother]
        exact stage
      · exact h.posted hpass
    · rw [hsize, cache]
      show m.cache.handles + (m.passes.size + 1) ≤ m.cache.handles + 1 + m.passes.size
      omega
    · intro hshutdown
      rw [cache] at hshutdown
      have hnone := h.closed hshutdown
      omega
  | @passed generation pass next stage was step passes =>
    refine h.steered hstep (Pass.steers_step step) ?_ ?_
    · rw [passes, size_insert_of_some next was]
    · intro other post hpost
      rw [passes, Table.get?_insert] at hpost
      split at hpost
      · next hother =>
        rw [hother]
        exact ⟨pass, was⟩
      · exact ⟨post, hpost⟩
  | finished stage was step dropped ended cache_eq passes =>
    exact h.finished hstep was (Pass.steers_step step) dropped ended cache_eq passes

end Staffed

end Machine

end TtlCache
