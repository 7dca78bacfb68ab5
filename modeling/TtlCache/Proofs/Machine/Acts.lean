import TtlCache.Proofs.Machine.SingleFlight
import TtlCache.Proofs.Machine.Stacks

/-!
# What an operation does

Between the steps of an operation others take theirs.  `Machine.Acts` tells the two apart: it lists
what one operation does of itself in a run, and lets everybody else do what they like.  What an
operation on a key does of itself after its lookup depends on nothing but the point that it has come
to and on what its provider comes to; `Access.Course` says how the two go together with the answer.
-/

namespace TtlCache

variable {layout : Layout}

/-- What an operation does of itself: it has an effect, or hears what its provider comes to. -/
inductive Act where
  | effect (effect : Effect)
  | provided (outcome : Outcome)
  deriving DecidableEq, Repr

/-- The second cache differs from the first one in nothing but locks and turns. -/
def Cache.Unaltered (c d : Cache layout) : Prop :=
  d = { c with locks := d.locks, passLock := d.passLock, passQueue := d.passQueue }

namespace Machine

/-- What the operation at a place does of itself in a run, whatever others do in between. -/
inductive Acts (place : Place) :
    Machine layout → List Event → List Act → Machine layout → Prop where
  | refl (m : Machine layout) : Acts place m [] [] m
  | others {m next n : Machine layout} {event : Event} {events : List Event} {acts : List Act}
      (apart : m.acting event ≠ some place) (stepped : m.step event = some next)
      (rest : Acts place next events acts n) : Acts place m (event :: events) acts n
  | idle {m next n : Machine layout} {events : List Event} {acts : List Act}
      (own : m.acting (.run place.worker) = some place)
      (ran : m.step (.run place.worker) = some next) (unaltered : m.cache.Unaltered next.cache)
      (rest : Acts place next events acts n) : Acts place m (.run place.worker :: events) acts n
  | effect {m next n : Machine layout} {events : List Event} {acts : List Act} {effect : Effect}
      (own : m.acting (.run place.worker) = some place)
      (ran : m.step (.run place.worker) = some next)
      (applied : effect.apply m.cache = some next.cache) (rest : Acts place next events acts n) :
      Acts place m (.run place.worker :: events) (.effect effect :: acts) n
  | provided {m next n : Machine layout} {events : List Event} {acts : List Act} {number : Nat}
      {outcome : Outcome} (own : m.acting (.provide number outcome) = some place)
      (ended : m.step (.provide number outcome) = some next) (same : next.cache = m.cache)
      (rest : Acts place next events acts n) :
      Acts place m (.provide number outcome :: events) (.provided outcome :: acts) n

variable {m n : Machine layout} {place : Place} {frame : Frame} {event : Event}
  {events more : List Event}

theorem Acts.split {effect : Effect} {before after : List Act}
    (h : m.Acts place events (before ++ .effect effect :: after) n) :
    ∃ first second reached applied, events = first ++ .run place.worker :: second ∧
      m.Acts place first before reached ∧ reached.acting (.run place.worker) = some place ∧
        effect.apply reached.cache = some applied.cache ∧
          reached.step (.run place.worker) = some applied ∧ applied.Acts place second after n := by
  generalize hacts : before ++ .effect effect :: after = acts at h
  induction h generalizing before with
  | refl => exact absurd hacts (by simp)
  | others apart stepped _ ih =>
    obtain ⟨first, second, reached, applied, rfl, hfirst, hrest⟩ := ih hacts
    exact ⟨_ :: first, second, reached, applied, rfl, .others apart stepped hfirst, hrest⟩
  | idle own ran unaltered _ ih =>
    obtain ⟨first, second, reached, applied, rfl, hfirst, hrest⟩ := ih hacts
    exact ⟨_ :: first, second, reached, applied, rfl, .idle own ran unaltered hfirst, hrest⟩
  | effect own ran applied rest ih =>
    cases before with
    | nil =>
      cases hacts
      exact ⟨[], _, _, _, rfl, .refl _, own, applied, ran, rest⟩
    | cons act before =>
      obtain ⟨rfl, hlater⟩ := List.cons.inj hacts
      obtain ⟨first, second, reached, last, rfl, hfirst, hrest⟩ := ih hlater
      exact ⟨_ :: first, second, reached, last, rfl, .effect own ran applied hfirst, hrest⟩
  | provided own ended same _ ih =>
    cases before with
    | nil => cases hacts
    | cons act before =>
      obtain ⟨rfl, hlater⟩ := List.cons.inj hacts
      obtain ⟨first, second, reached, applied, rfl, hfirst, hrest⟩ := ih hlater
      exact ⟨_ :: first, second, reached, applied, rfl, .provided own ended same hfirst, hrest⟩

theorem Acts.runAll {acts : List Act} (h : m.Acts place events acts n) :
    m.runAll events = some n := by
  induction h with
  | refl => rfl
  | others _ stepped _ ih =>
    rw [runAll_cons, stepped]
    exact ih
  | idle _ ran _ _ ih | effect _ ran _ _ ih =>
    rw [runAll_cons, ran]
    exact ih
  | provided _ ended _ _ ih =>
    rw [runAll_cons, ended]
    exact ih

/-! ## Own steps -/

/-- What is seen when an operation has ended: the answer, or where the thread of a pass goes. -/
def Returns (n : Machine layout) (cache : Cache layout) (answer : Answer) : Place -> Prop
  | .client number _ => n.cache = cache ∧ (n.client number).answer = some answer
  | .sweeper generation =>
      ∃ detached sweeper, cache.detach = some detached ∧
        detached.sweeper.endPass generation (decide (answer = .flag false)) = some sweeper ∧
          n.cache = { detached with sweeper := sweeper }

/-- What an operation can do in an event in which it takes part. -/
inductive Own (m n : Machine layout) (place : Place) (frame : Frame) : Event -> Prop where
  | provided {number : Nat} {outcome : Outcome} {access next : Access}
      (was : frame = .access access)
      (after : access.afterProvider m.cache.clock outcome = some next)
      (now : n.frameAt place = some (.access next)) (same : n.cache = m.cache) :
      Own m n place frame (.provide number outcome)
  | more {next : Frame} (step : frame.step place.worker m.cache = some (n.cache, .more next))
      (now : n.frameAt place = some next) : Own m n place frame (.run place.worker)
  | done {cache : Cache layout} {answer : Answer}
      (step : frame.step place.worker m.cache = some (cache, .done answer))
      (gone : n.frameAt place = none) (returns : n.Returns cache answer place) :
      Own m n place frame (.run place.worker)

theorem worker_of_acting {worker : Worker} (h : m.acting (.run worker) = some place) :
    place.worker = worker := by
  cases worker with
  | client number =>
    simp only [acting, innermost] at h
    split at h <;> cases h
    rfl
  | sweeper generation =>
    simp only [acting] at h
    split at h <;> cases h
    rfl

theorem returns_of_runClient {number depth : Nat} {cache : Cache layout} {answer : Answer}
    (h : m.runClient number = some n) (hplace : m.innermost number = some (.client number depth))
    (hframe : m.frameAt (.client number depth) = some frame)
    (hstep : frame.step (.client number) m.cache = some (cache, .done answer)) :
    n.cache = cache ∧ (n.client number).answer = some answer := by
  cases hstack : (m.client number).stack with
  | nil => simp [innermost, hstack] at hplace
  | cons top outer =>
    have hdepth := (innermost_eq hstack).symm.trans hplace
    cases hdepth
    cases (frameAt_innermost hstack).symm.trans hframe
    simp only [runClient, hstack, hstep, Option.map_some, Option.some.injEq] at h
    subst h
    exact ⟨rfl, by rw [client_setClient, if_pos rfl]⟩

theorem returns_of_runSweeper {generation : Nat} {cache : Cache layout} {answer : Answer}
    (h : m.runSweeper generation = some n)
    (hacting : m.acting (.run (.sweeper generation)) = some (.sweeper generation))
    (hframe : m.frameAt (.sweeper generation) = some frame)
    (hstep : frame.step (.sweeper generation) m.cache = some (cache, .done answer)) :
    n.Returns cache answer (.sweeper generation) := by
  obtain ⟨pass, hpass, rfl⟩ := Option.map_eq_some_iff.mp hframe
  have hpassing : m.cache.sweeper.threads.get? generation = some .passing := by
    simp only [acting, Option.ite_none_right_eq_some, Bool.and_eq_true,
      decide_eq_true_eq] at hacting
    exact hacting.1.1
  obtain ⟨⟨after, progress⟩, hpassstep, hsome⟩ := Option.map_eq_some_iff.mp hstep
  cases progress with
  | more next => cases hsome
  | done other =>
    cases hsome
    simp only [runSweeper, hpassing, runPass, hpass, hpassstep, Option.bind_some, endPass,
      Option.bind_eq_bind, Option.bind_eq_some_iff, Option.some.injEq] at h
    obtain ⟨detached, hdetached, sweeper, hend, rfl⟩ := h
    exact ⟨detached, sweeper, hdetached, hend, rfl⟩

theorem own_of_step (hstep : m.step event = some n) (hacting : m.acting event = some place)
    (hframe : m.frameAt place = some frame) : m.Own n place frame event := by
  cases step_cases hstep with
  | aside frames alike acting => cases acting.symm.trans hacting
  | opened other fresh hfresh free now others alike acting => cases acting.symm.trans hacting
  | ended other access next outcome was after now others same acting event =>
    cases acting.symm.trans hacting
    cases was.symm.trans hframe
    obtain ⟨number, rfl⟩ := event
    exact .provided rfl after now same
  | stepped other own cache progress was step now others alike acting event kept =>
    cases acting.symm.trans hacting
    cases was.symm.trans hframe
    obtain ⟨worker, rfl⟩ := event
    cases worker_of_acting hacting
    cases progress with
    | more next =>
      rw [← kept next rfl] at step
      exact .more step now
    | done answer =>
      refine .done step now ?_
      cases place with
      | client number depth => exact returns_of_runClient hstep hacting hframe step
      | sweeper generation => exact returns_of_runSweeper hstep hacting hframe step

/-! ## From beginning to end -/

/-- An operation goes on for a run, and no longer. -/
structure Completes (m : Machine layout) (place : Place) (events : List Event)
    (n : Machine layout) : Prop where
  lasts : m.Heeds (fun m _ => (m.frameAt place).isSome = true) events
  run : m.runAll events = some n
  gone : n.frameAt place = none

namespace Completes

theorem cons (h : m.Completes place events n) (hframe : m.frameAt place = some frame) :
    ∃ event rest next, events = event :: rest ∧ m.step event = some next ∧
      next.Completes place rest n := by
  cases events with
  | nil =>
    cases h.run
    cases hframe.symm.trans h.gone
  | cons event rest =>
    obtain ⟨next, hstep, hrest⟩ := Option.bind_eq_some_iff.mp h.run
    exact ⟨event, rest, next, rfl, hstep, h.lasts.2 next hstep, hrest, h.gone⟩

theorem nil (h : m.Completes place events n) (hframe : m.frameAt place = none) :
    events = [] ∧ n = m := by
  cases events with
  | nil =>
    cases h.run
    exact ⟨rfl, rfl⟩
  | cons event rest =>
    have hthere : (m.frameAt place).isSome = true := h.lasts.1
    rw [hframe] at hthere
    cases hthere

end Completes

end Machine

/-! ## Operations on a key -/

namespace Access

variable {a next : Access} {c d : Cache layout} {acts : List Act} {answer : Answer}

/-- What is left to do for an operation that has looked its key up, and what it will answer. -/
inductive Course (key : Key) : AccessPoint -> List Act -> Answer -> Prop where
  | release {ticket : Nat} {answer : Answer} : Course key (.release ticket answer) [] answer
  | perform {ticket : Nat} {todo : List Effect} {answer : Answer} :
      Course key (.perform ticket todo answer) (todo.map .effect) answer
  | value {ticket : Nat} {stale : Bool} {value : Value} {deadline : Instant} :
      Course key (.provide ticket stale)
        [.provided (.value value), .effect (.put key value deadline), .effect .wake,
          .effect (.use key)] (.value value)
  | failed {ticket : Nat} {stale : Bool} {text : String} :
      Course key (.provide ticket stale)
        (.provided (.failure text) ::
          (if stale then [Effect.erase key, .untrack key] else []).map .effect) (.failed text)
  | raised {ticket : Nat} {stale : Bool} {text : String} :
      Course key (.provide ticket stale) [.provided (.panic text)] (.panicked (.raised text))
  | missed {ticket : Nat} {stale : Bool} {acts : List Act} {answer : Answer}
      (rest : Course key (.provide ticket stale) acts answer) :
      Course key (.missed ticket stale) (.effect (.count .miss) :: acts) answer

theorem course_perform {key : Key} {ticket : Nat} {todo : List Effect} {given : Answer}
    (h : Course key (.perform ticket todo given) acts answer) :
    acts = todo.map .effect ∧ answer = given := by
  cases h
  exact ⟨rfl, rfl⟩

def hasLooked (a : Access) : Bool :=
  match a.point with
  | .register | .acquire _ | .look _ => false
  | .missed _ _ | .provide _ _ | .perform _ _ _ | .release _ _ => true

theorem hasLooked_step (h : a.step c = some (d, .more next)) (hlooked : a.hasLooked = true) :
    next.key = a.key ∧ next.hasLooked = true := by
  generalize hprogress : Progress.more next = progress at h
  cases stride_of_step h with
  | register => cases hlooked
  | acquire => cases hlooked
  | look => cases hlooked
  | release => cases hprogress
  | _ =>
    cases hprogress
    exact ⟨rfl, rfl⟩

theorem hasLooked_afterProvider {now : Instant} {outcome : Outcome}
    (h : a.afterProvider now outcome = some next) : next.hasLooked = true := by
  unfold afterProvider at h
  split at h
  · split at h
    · split at h <;> cases h
      rfl
    · cases h
      rfl
    · cases h
      rfl
  · cases h

/-- A step of an operation is the next thing that it has to do, or changes nothing but locks. -/
theorem course_step (h : a.step c = some (d, .more next)) (hlooked : a.hasLooked = true)
    (hcalm : ∀ ticket key, ⟨ticket, key, .holding⟩ ∈ a.claims →
      (c.locks.unregister ticket).1 = none)
    (hcourse : Course a.key next.point acts answer) :
    Course a.key a.point acts answer ∧ c.Unaltered d ∨
      ∃ effect, Course a.key a.point (.effect effect :: acts) answer ∧
        effect.apply c = some d := by
  generalize hprogress : Progress.more next = progress at h
  cases stride_of_step h with
  | register => cases hlooked
  | acquire => cases hlooked
  | look => cases hlooked
  | missed =>
    cases hprogress
    exact .inr ⟨_, .missed hcourse, rfl⟩
  | @effect key request ticket effect todo result after applied =>
    cases hprogress
    obtain ⟨rfl, rfl⟩ := course_perform hcourse
    exact .inr ⟨effect, .perform, applied⟩
  | unregister =>
    cases hprogress
    cases hcourse
    exact .inl ⟨.perform, rfl⟩
  | panic unregistered =>
    -- who holds its key can give it back
    have hnone := hcalm _ _ List.mem_cons_self
    rw [unregistered] at hnone
    cases hnone
  | release => cases hprogress

theorem course_done (h : a.step c = some (d, .done answer)) :
    Course a.key a.point [] answer ∧ c.Unaltered d := by
  generalize hprogress : Progress.done answer = progress at h
  cases stride_of_step h with
  | release =>
    cases hprogress
    exact ⟨.release, rfl⟩
  | _ => cases hprogress

theorem course_afterProvider {now : Instant} {outcome : Outcome}
    (h : a.afterProvider now outcome = some next) (hcourse : Course a.key next.point acts answer) :
    Course a.key a.point (.provided outcome :: acts) answer := by
  unfold afterProvider at h
  split at h
  · next hpoint hrequest =>
    rw [hpoint]
    split at h
    · split at h
      · cases h
        obtain ⟨rfl, rfl⟩ := course_perform hcourse
        exact .value
      · cases h
    · cases h
      obtain ⟨rfl, rfl⟩ := course_perform hcourse
      exact .failed
    · cases h
      obtain ⟨rfl, rfl⟩ := course_perform hcourse
      exact .raised
  · cases h

end Access

namespace Frame

variable {a : Access} {who : Worker} {c d : Cache layout}

theorem access_of_access {next : Frame} (h : (Frame.access a).step who c = some (d, .more next)) :
    ∃ b, next = .access b ∧ a.step c = some (d, .more b) := by
  obtain ⟨⟨after, progress⟩, hstep, hsome⟩ := Option.map_eq_some_iff.mp h
  cases progress <;> cases hsome
  exact ⟨_, rfl, hstep⟩

theorem access_done {answer : Answer}
    (h : (Frame.access a).step who c = some (d, .done answer)) :
    a.step c = some (d, .done answer) := by
  obtain ⟨⟨after, progress⟩, hstep, hsome⟩ := Option.map_eq_some_iff.mp h
  cases progress <;> cases hsome
  exact hstep

end Frame

namespace Machine

variable {m n : Machine layout} {number depth : Nat} {a : Access} {events : List Event}

/-- An operation that has looked its key up does what is left to do, and answers accordingly. -/
theorem Completes.course (h : m.Completes (.client number depth) events n) (howned : m.Owned)
    (hframe : m.frameAt (.client number depth) = some (.access a)) (hlooked : a.hasLooked = true) :
    ∃ acts answer, m.Acts (.client number depth) events acts n ∧
      Access.Course a.key a.point acts answer ∧ (n.client number).answer = some answer := by
  induction events generalizing m a with
  | nil =>
    cases h.run
    cases hframe.symm.trans h.gone
  | cons event events ih =>
    obtain ⟨_, _, next, heq, hstep, hrest⟩ := h.cons hframe
    cases heq
    by_cases hacting : m.acting event = some (.client number depth)
    · cases own_of_step hstep hacting hframe with
      | provided was after now same =>
        cases was
        obtain ⟨acts, answer, hacts, hcourse, hanswer⟩ :=
          ih hrest (howned.step hstep) now (Access.hasLooked_afterProvider after)
        rw [Access.key_afterProvider after] at hcourse
        exact ⟨_, answer, .provided hacting hstep same hacts,
          Access.course_afterProvider after hcourse, hanswer⟩
      | more step now =>
        obtain ⟨next, rfl, hnext⟩ := Frame.access_of_access step
        obtain ⟨hkey, hlater⟩ := Access.hasLooked_step hnext hlooked
        obtain ⟨acts, answer, hacts, hcourse, hanswer⟩ := ih hrest (howned.step hstep) now hlater
        rw [hkey] at hcourse
        have hcalm : ∀ ticket key, ⟨ticket, key, .holding⟩ ∈ a.claims →
            (m.cache.locks.unregister ticket).1 = none := fun ticket key hclaim =>
          howned.unregister_eq_none hframe hclaim
        rcases Access.course_step hnext hlooked hcalm hcourse with
          ⟨hfirst, hsame⟩ | ⟨effect, hfirst, happlied⟩
        · exact ⟨acts, answer, .idle hacting hstep hsame hacts, hfirst, hanswer⟩
        · exact ⟨_, answer, .effect hacting hstep happlied hacts, hfirst, hanswer⟩
      | @done cache answer step gone returns =>
        obtain ⟨rfl, hanswer⟩ := returns
        obtain ⟨rfl, rfl⟩ := hrest.nil gone
        obtain ⟨hcourse, hsame⟩ := Access.course_done (Frame.access_done step)
        exact ⟨[], answer, .idle hacting hstep hsame (.refl _), hcourse, hanswer⟩
    · obtain ⟨acts, answer, hacts, hcourse, hanswer⟩ :=
        ih hrest (howned.step hstep) (frameAt_step hstep hacting hframe) hlooked
      exact ⟨acts, answer, .others hacting hstep hacts, hcourse, hanswer⟩

end Machine

end TtlCache
