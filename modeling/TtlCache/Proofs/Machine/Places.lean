import TtlCache.Cache.Machine
import TtlCache.Proofs.Sweeper.Generations

/-!
# Where operations stand

An event is a step of at most one operation.  Operations stand at places: in the stack of a client,
counted from the outermost one, or on a thread of the sweeper.  `Machine.step_cases` says once what
an event can do: it opens an operation, ends the provider of one, takes a step of one, or concerns
no operation at all; every other operation stays where and what it is.
-/

namespace TtlCache

variable {layout : Layout}

/-- Where an operation stands; `depth` counts from the outermost operation of a client. -/
inductive Place where
  | client (number : Nat) (depth : Nat)
  | sweeper (generation : Nat)
  deriving DecidableEq, Repr

def Place.worker : Place -> Worker
  | .client number _ => .client number
  | .sweeper generation => .sweeper generation

def Progress.point? {φ : Type} : Progress φ -> Option φ
  | .more point => some point
  | .done _ => none

@[simp] theorem Progress.point?_map {φ ψ : Type} (wrap : φ -> ψ) (progress : Progress φ) :
    (progress.map wrap).point? = progress.point?.map wrap := by
  cases progress <;> rfl

inductive Frame.Fresh : Frame -> Prop where
  | access (key : Key) (request : Request) : Fresh (.access (.begin key request))
  | pass : Fresh (.pass .enter)
  | clock : Fresh .clock

/-- The second cache is a later state of the first one in which no key and no lock has changed. -/
structure Cache.Alike (c d : Cache layout) : Prop where
  clock_le : c.clock.nanos ≤ d.clock.nanos
  locks_eq : d.locks = c.locks
  evictor_eq : d.evictor = c.evictor
  get?_eq : ∀ key, d.store.get? key = c.store.get? key
  passLock_eq : d.passLock = c.passLock
  deciding_eq : d.sweeper.deciding = c.sweeper.deciding

theorem Cache.Alike.refl (c : Cache layout) : c.Alike c :=
  ⟨Nat.le_refl _, rfl, rfl, fun _ => rfl, rfl, rfl⟩

namespace Machine

def frameAt (m : Machine layout) : Place -> Option Frame
  | .client number depth => (m.client number).stack.reverse[depth]?
  | .sweeper generation => (m.passes.get? generation).map .pass

def innermost (m : Machine layout) (number : Nat) : Option Place :=
  match (m.client number).stack with
  | [] => none
  | _ :: outer => some (.client number outer.length)

/-- The place of the operation that takes a step in an event. -/
def acting (m : Machine layout) : Event -> Option Place
  | .provide number _ | .run (.client number) => m.innermost number
  | .run (.sweeper generation) =>
      if m.cache.sweeper.threads.get? generation = some .passing &&
          m.passes.contains generation then
        some (.sweeper generation)
      else
        none
  | _ => none

/-- All operations but the one at `place` stand where they stood. -/
def SameBut (m n : Machine layout) (place : Place) : Prop :=
  ∀ other, other ≠ place → n.frameAt other = m.frameAt other

/-- What an event can do. -/
inductive Move (m n : Machine layout) (event : Event) : Prop where
  | aside (frames : ∀ place, n.frameAt place = m.frameAt place) (alike : m.cache.Alike n.cache)
      (acting : m.acting event = none)
  | opened (place : Place) (frame : Frame) (fresh : frame.Fresh) (free : m.frameAt place = none)
      (now : n.frameAt place = some frame) (others : m.SameBut n place)
      (alike : m.cache.Alike n.cache) (acting : m.acting event = none)
  | ended (place : Place) (access next : Access) (outcome : Outcome)
      (was : m.frameAt place = some (.access access))
      (after : access.afterProvider m.cache.clock outcome = some next)
      (now : n.frameAt place = some (.access next)) (others : m.SameBut n place)
      (same : n.cache = m.cache) (acting : m.acting event = some place)
      (event : ∃ number, event = .provide number outcome)
  | stepped (place : Place) (frame : Frame) (cache : Cache layout) (progress : Progress Frame)
      (was : m.frameAt place = some frame)
      (step : frame.step place.worker m.cache = some (cache, progress))
      (now : n.frameAt place = progress.point?) (others : m.SameBut n place)
      (alike : cache.Alike n.cache) (acting : m.acting event = some place)
      (event : ∃ worker, event = .run worker)
      (kept : ∀ next, progress = .more next → n.cache = cache)

/-! ## Frames after a change -/

theorem client_setClient (m : Machine layout) (number other : Nat) (client : Client) :
    (m.setClient number client).client other =
      if other = number then client else m.client other := by
  simp only [Machine.client, setClient, Table.get?_insert]
  split <;> rfl

theorem client_congr {m n : Machine layout} (h : n.clients = m.clients) (number : Nat) :
    n.client number = m.client number := by
  simp only [Machine.client, h]

theorem frameAt_congr {m n : Machine layout} (hclients : n.clients = m.clients)
    (hpasses : n.passes = m.passes) (place : Place) : n.frameAt place = m.frameAt place := by
  cases place with
  | client number depth => simp only [frameAt, client_congr hclients]
  | sweeper generation => simp only [frameAt, hpasses]

theorem getElem?_reverse_cons {α : Type} (item : α) (items : List α) (position : Nat) :
    (item :: items).reverse[position]? =
      if position = items.length then some item else items.reverse[position]? := by
  rw [List.reverse_cons]
  rcases Nat.lt_trichotomy position items.length with hlt | heq | hgt
  · rw [List.getElem?_append_left (by simpa using hlt), if_neg (Nat.ne_of_lt hlt)]
  · rw [if_pos heq, heq]
    simp
  · rw [if_neg (Nat.ne_of_gt hgt), List.getElem?_eq_none (by simp; omega),
      List.getElem?_eq_none (by simp; omega)]

theorem sameBut_setClient {m n : Machine layout} {number : Nat} {client : Client}
    {outer : List Frame} (hn : n = m.setClient number client)
    (hbefore : (m.client number).stack = outer ∨ ∃ frame, (m.client number).stack = frame :: outer)
    (hafter : client.stack = outer ∨ ∃ frame, client.stack = frame :: outer) :
    m.SameBut n (.client number outer.length) := by
  -- both stacks agree with the outer operations below the place
  have below : ∀ {stack : List Frame} {depth}, (stack = outer ∨ ∃ frame, stack = frame :: outer) →
      depth ≠ outer.length → stack.reverse[depth]? = outer.reverse[depth]? := by
    rintro stack depth (rfl | ⟨frame, rfl⟩) hdepth
    · rfl
    · rw [getElem?_reverse_cons, if_neg hdepth]
  intro other hother
  subst hn
  cases other with
  | sweeper generation => rfl
  | client k depth =>
    simp only [frameAt, client_setClient]
    by_cases hk : k = number
    · subst hk
      have hdepth : depth ≠ outer.length := fun heq => hother (by rw [heq])
      rw [if_pos rfl, below hafter hdepth, below hbefore hdepth]
    · rw [if_neg hk]

theorem frameAt_innermost {m : Machine layout} {number : Nat} {frame : Frame} {outer : List Frame}
    (h : (m.client number).stack = frame :: outer) :
    m.frameAt (.client number outer.length) = some frame := by
  rw [frameAt, h, getElem?_reverse_cons, if_pos rfl]

theorem frameAt_outside {m : Machine layout} {number : Nat} {outer : List Frame}
    (h : (m.client number).stack = outer) : m.frameAt (.client number outer.length) = none := by
  rw [frameAt, h, List.getElem?_eq_none (by simp)]

theorem innermost_eq {m : Machine layout} {number : Nat} {frame : Frame} {outer : List Frame}
    (h : (m.client number).stack = frame :: outer) :
    m.innermost number = some (.client number outer.length) := by
  rw [innermost, h]

/-! ## What an event can do -/

theorem fresh_of_opening {request : Call} {frame : Frame} (h : opening request = .more frame) :
    frame.Fresh := by
  unfold opening at h
  split at h
  · split at h
    · cases h
    · cases h
      exact .access _ _
  · cases h
    exact .access _ _
  · cases h
    exact .pass
  · cases h
    exact .clock

theorem move_of_call {m n : Machine layout} {number : Nat} {request : Call}
    (h : m.call number request = some n) : m.Move n (.call number request) := by
  unfold call at h
  simp only [Option.ite_none_right_eq_some] at h
  replace h := h.2
  cases hopening : opening request with
  | more frame =>
    simp only [hopening, Option.some.injEq] at h
    have hstack : (n.client number).stack = frame :: (m.client number).stack := by
      rw [← h, client_setClient, if_pos rfl]
    refine .opened _ frame (fresh_of_opening hopening) (frameAt_outside rfl)
      (frameAt_innermost hstack)
      (sameBut_setClient h.symm (Or.inl rfl) (Or.inr ⟨frame, rfl⟩)) ?_ rfl
    rw [← h]
    exact Cache.Alike.refl _
  | done answer =>
    simp only [hopening, Option.some.injEq] at h
    refine .aside ?_ ?_ rfl
    · intro place
      have hsame := sameBut_setClient h.symm (Or.inl rfl) (Or.inl rfl)
      by_cases hplace : place = .client number (m.client number).stack.length
      · have hstack : (n.client number).stack = (m.client number).stack := by
          rw [← h, client_setClient, if_pos rfl]
        rw [hplace, frameAt_outside rfl, ← hstack, frameAt_outside rfl]
      · exact hsame place hplace
    · rw [← h]
      exact Cache.Alike.refl _

theorem move_of_provide {m n : Machine layout} {number : Nat} {outcome : Outcome}
    (h : m.provide number outcome = some n) : m.Move n (.provide number outcome) := by
  unfold provide at h
  cases hstack : (m.client number).stack with
  | nil => simp [hstack] at h
  | cons frame outer =>
    cases frame with
    | access access =>
      simp only [hstack, Option.map_eq_some_iff] at h
      obtain ⟨next, hafter, hn⟩ := h
      have hnext : (n.client number).stack = .access next :: outer := by
        rw [← hn, client_setClient, if_pos rfl]
      refine .ended _ access next outcome (frameAt_innermost hstack) hafter
        (frameAt_innermost hnext)
        (sameBut_setClient hn.symm (Or.inr ⟨_, hstack⟩) (Or.inr ⟨_, rfl⟩)) ?_
        (innermost_eq hstack) ⟨number, rfl⟩
      rw [← hn]
      rfl
    | pass pass => simp [hstack] at h
    | clock => simp [hstack] at h
    | taking taking => simp [hstack] at h

theorem move_of_runClient {m n : Machine layout} {number : Nat}
    (h : m.runClient number = some n) : m.Move n (.run (.client number)) := by
  unfold runClient at h
  cases hstack : (m.client number).stack with
  | nil => simp [hstack] at h
  | cons frame outer =>
    simp only [hstack, Option.map_eq_some_iff, Prod.exists] at h
    obtain ⟨cache, progress, hstep, hn⟩ := h
    have hcache : n.cache = cache := by
      rw [← hn]
      cases progress <;> rfl
    have hothers : m.SameBut n (.client number outer.length) := by
      cases progress with
      | more next =>
        exact sameBut_setClient (m := { m with cache := cache }) hn.symm (Or.inr ⟨_, hstack⟩)
          (Or.inr ⟨_, rfl⟩)
      | done answer =>
        exact sameBut_setClient (m := { m with cache := cache }) hn.symm (Or.inr ⟨_, hstack⟩)
          (Or.inl rfl)
    have hnow : n.frameAt (.client number outer.length) = progress.point? := by
      cases progress with
      | more next =>
        refine frameAt_innermost ?_
        rw [← hn, client_setClient, if_pos rfl]
      | done answer =>
        refine frameAt_outside ?_
        rw [← hn, client_setClient, if_pos rfl]
    exact .stepped _ frame cache progress (frameAt_innermost hstack) hstep hnow hothers
      (hcache ▸ Cache.Alike.refl _) (innermost_eq hstack) ⟨_, rfl⟩ fun _ _ => hcache

theorem frameAt_of_pass {m : Machine layout} {generation : Nat} {pass : Pass}
    (h : m.passes.get? generation = some pass) :
    m.frameAt (.sweeper generation) = some (.pass pass) := by
  rw [frameAt, h]
  rfl

theorem frameAt_sweeper {m n : Machine layout} {generation : Nat} (hclients : n.clients = m.clients)
    (hpasses : ∀ other, other ≠ generation → n.passes.get? other = m.passes.get? other) :
    m.SameBut n (.sweeper generation) := by
  intro other hother
  cases other with
  | client number depth => simp only [frameAt, client_congr hclients]
  | sweeper k =>
    have hk : k ≠ generation := fun heq => hother (by rw [heq])
    rw [frameAt, frameAt, hpasses k hk]

theorem detach_alike {c d : Cache layout} (h : c.detach = some d) : c.Alike d := by
  unfold Cache.detach at h
  split at h
  · cases h
  · obtain ⟨sweeper, hclose, rfl⟩ := Option.map_eq_some_iff.mp h
    obtain ⟨-, rfl⟩ := Sweeper.close_eq_some_iff.mp hclose
    exact ⟨Nat.le_refl _, rfl, rfl, fun _ => rfl, rfl, rfl⟩
  · cases h
    exact ⟨Nat.le_refl _, rfl, rfl, fun _ => rfl, rfl, rfl⟩

/-- The end of a pass on a thread of the sweeper concerns no key. -/
theorem endPass_spec {m n : Machine layout} {cache : Cache layout} {generation : Nat}
    {answer : Answer} (h : m.endPass cache generation answer = some n) :
    n.clients = m.clients ∧ n.passes = m.passes.erase generation ∧ cache.Alike n.cache := by
  simp only [endPass, Option.bind_eq_bind, Option.bind_eq_some_iff, Option.some.injEq] at h
  obtain ⟨detached, hdetached, sweeper, hend, rfl⟩ := h
  have halike := detach_alike hdetached
  exact ⟨rfl, rfl, halike.clock_le, halike.locks_eq, halike.evictor_eq, halike.get?_eq,
    halike.passLock_eq, (Sweeper.tread_of_endPass hend).deciding_eq.trans halike.deciding_eq⟩

theorem move_of_runPass {m n : Machine layout} {generation : Nat}
    (hpassing : m.cache.sweeper.threads.get? generation = some .passing)
    (h : m.runPass generation = some n) : m.Move n (.run (.sweeper generation)) := by
  unfold runPass at h
  cases hpass : m.passes.get? generation with
  | none =>
    have hacting : m.acting (.run (.sweeper generation)) = none := by
      simp [acting, Table.contains, hpass]
    simp only [hpass] at h
    split at h
    · obtain ⟨sweeper, hend, rfl⟩ := Option.map_eq_some_iff.mp h
      exact .aside (frameAt_congr rfl rfl)
        ⟨Nat.le_refl _, rfl, rfl, fun _ => rfl, rfl,
          (Sweeper.tread_of_endPass hend).deciding_eq⟩ hacting
    · cases h
      refine .opened (.sweeper generation) (.pass .enter) .pass ?_ ?_ (frameAt_sweeper rfl ?_)
        ⟨Nat.le_refl _, rfl, rfl, fun _ => rfl, rfl, rfl⟩ hacting
      · rw [frameAt, hpass]
        rfl
      · simp [frameAt, Table.get?_insert]
      · intro other hother
        simp [Table.get?_insert, hother]
  | some pass =>
    have hwas := frameAt_of_pass hpass
    have hacting : m.acting (.run (.sweeper generation)) = some (.sweeper generation) := by
      simp [acting, hpassing, Table.contains, hpass]
    simp only [hpass, Option.bind_eq_some_iff, Prod.exists] at h
    obtain ⟨cache, progress, hstep, hn⟩ := h
    have hframe : (Frame.pass pass).step (.sweeper generation) m.cache =
        some (cache, progress.map .pass) := by
      rw [Frame.step, hstep]
      rfl
    cases progress with
    | more next =>
      cases hn
      refine .stepped _ _ cache _ hwas hframe ?_ (frameAt_sweeper rfl ?_) (Cache.Alike.refl _)
        hacting ⟨_, rfl⟩ fun _ _ => rfl
      · simp [frameAt, Table.get?_insert, Progress.map, Progress.point?]
      · intro other hother
        simp [Table.get?_insert, hother]
    | done answer =>
      obtain ⟨hclients, hpasses, halike⟩ := endPass_spec hn
      refine .stepped _ _ cache _ hwas hframe ?_ (frameAt_sweeper hclients ?_) halike
        hacting ⟨_, rfl⟩ fun _ hmore => by cases hmore
      · simp [frameAt, hpasses, Table.get?_erase, Progress.map, Progress.point?]
      · intro other hother
        simp [hpasses, Table.get?_erase, hother]

theorem move_of_runSweeper {m n : Machine layout} {generation : Nat}
    (h : m.runSweeper generation = some n) : m.Move n (.run (.sweeper generation)) := by
  unfold runSweeper at h
  split at h
  · next hpassing => exact move_of_runPass hpassing h
  · next hpassing =>
    obtain ⟨sweeper, hstep, rfl⟩ := Option.map_eq_some_iff.mp h
    refine .aside (frameAt_congr rfl rfl)
      ⟨Nat.le_refl _, rfl, rfl, fun _ => rfl, rfl, (Sweeper.tread_of_step hstep).deciding_eq⟩ ?_
    simp [acting, show m.cache.sweeper.threads.get? generation ≠ some .passing from hpassing]

theorem clock_le_of_add? {now later : Instant} {elapsed : Duration}
    (h : now.add? elapsed = some later) : now.nanos ≤ later.nanos := by
  simp only [Instant.add?, Option.ite_none_right_eq_some, Option.some.injEq] at h
  rw [← h.2]
  exact Nat.le_add_right _ _

/-- An event is a step of at most one operation and leaves all others where and what they are. -/
theorem step_cases {m n : Machine layout} {event : Event} (h : m.step event = some n) :
    m.Move n event := by
  cases event with
  | call number request => exact move_of_call h
  | provide number outcome => exact move_of_provide h
  | run worker =>
    cases worker with
    | client number => exact move_of_runClient h
    | sweeper generation => exact move_of_runSweeper h
  | tick elapsed =>
    obtain ⟨clock, hclock, rfl⟩ := Option.map_eq_some_iff.mp h
    exact .aside (frameAt_congr rfl rfl) ⟨clock_le_of_add? hclock, rfl, rfl, fun _ => rfl, rfl, rfl⟩
      rfl
  | attach =>
    simp only [step, Option.ite_none_right_eq_some, Option.some.injEq] at h
    obtain ⟨-, rfl⟩ := h
    exact .aside (frameAt_congr rfl rfl) ⟨Nat.le_refl _, rfl, rfl, fun _ => rfl, rfl, rfl⟩ rfl
  | detach =>
    simp only [step, Option.ite_none_right_eq_some] at h
    obtain ⟨cache, hcache, rfl⟩ := Option.map_eq_some_iff.mp h.2
    exact .aside (frameAt_congr rfl rfl) (detach_alike hcache) rfl
  | reorder shard rows =>
    obtain ⟨store, hstore, rfl⟩ := Option.map_eq_some_iff.mp h
    exact .aside (frameAt_congr rfl rfl)
      ⟨Nat.le_refl _, rfl, rfl, Store.get?_reorder? hstore, rfl, rfl⟩ rfl

/-- How the operation at a place after an event came to be what it is. -/
inductive Came (m n : Machine layout) (place : Place) : Frame -> Prop where
  | stood {frame : Frame} (was : m.frameAt place = some frame) : Came m n place frame
  | began {frame : Frame} (fresh : frame.Fresh) : Came m n place frame
  | provided {access next : Access} {outcome : Outcome}
      (was : m.frameAt place = some (.access access))
      (after : access.afterProvider m.cache.clock outcome = some next) :
      Came m n place (.access next)
  | stepped {before frame : Frame} (was : m.frameAt place = some before)
      (step : before.step place.worker m.cache = some (n.cache, .more frame)) :
      Came m n place frame

theorem came_of_step {m n : Machine layout} {event : Event} (h : m.step event = some n)
    {other : Place} {frame : Frame} (hframe : n.frameAt other = some frame) :
    m.Came n other frame := by
  cases step_cases h with
  | aside frames alike acting => exact .stood (frames other ▸ hframe)
  | opened place first fresh free now others alike acting =>
    by_cases hother : other = place
    · subst hother
      cases now.symm.trans hframe
      exact .began fresh
    · exact .stood (others other hother ▸ hframe)
  | ended place access next outcome was after now others same acting event =>
    by_cases hother : other = place
    · subst hother
      cases now.symm.trans hframe
      exact .provided was after
    · exact .stood (others other hother ▸ hframe)
  | stepped place before cache progress was step now others alike acting event kept =>
    by_cases hother : other = place
    · subst hother
      rw [now] at hframe
      cases progress with
      | more next =>
        cases hframe
        exact .stepped was (kept _ rfl ▸ step)
      | done answer => cases hframe
    · exact .stood (others other hother ▸ hframe)

end Machine

end TtlCache
