import TtlCache.Proofs.Machine.Candidates
import TtlCache.Proofs.Machine.Outlooks
import TtlCache.Proofs.Machine.Watch

/-!
# Passes that panic

If the evictor panics when it is asked for its excess, a pass that has met a live entry comes to
nothing.  It gives up all that it holds and changes nothing else, so that others can go on as if it
had not been; on a thread of the sweeper the thread comes to its end, and the sweeper does not run
until a value is stored again.  A pass that meets no live entry does not ask, and removes all that
was stored when it began.
-/

namespace TtlCache

variable {layout : Layout}

namespace Machine

variable {m n : Machine layout} {place : Place} {panic : Panic}

/-! ## What others find -/

/--
No lock is left but those of operations in progress: whoever comes for another key has it, whoever
comes for a pass has a turn, and whoever has to wait waits for an operation in progress.
-/
structure Freed (n : Machine layout) : Prop where
  turn : n.cache.passLock = none
  verdict : n.cache.sweeper.deciding = false
  guards : ∀ {ticket}, ticket ∈ n.cache.locks.guards.keys →
    ∃ place frame, n.frameAt place = some frame ∧ ticket ∈ frame.claims.map Claim.ticket
  records : ∀ {key}, n.Vacant key → n.cache.locks.records.get? key = none
  comers : ∀ {caller key request frame following}, n.Vacant key →
    opening (.access key request) = .more frame →
    n.step (.call caller (.access key request)) = some following →
      ∃ ticket last, following.runAll [.run (.client caller), .run (.client caller)] = some last ∧
        (last.client caller).stack = .access ⟨key, request, .look ticket⟩ :: (n.client caller).stack
  passes : ∀ {caller following}, n.step (.call caller .purge) = some following →
    ∃ last, following.runAll [.run (.client caller), .run (.client caller)] = some last ∧
      last.frameAt (.client caller (n.client caller).stack.length) =
        some (.pass (.collect n.cache.clock 0 []))
  queued : ∀ {place}, n.frameAt place = some (.pass .queue) →
    ∃ next, n.step (.run place.worker) = some next ∧
      next.frameAt place = some (.pass (.collect n.cache.clock 0 []))
  waits : ∀ {worker}, n.Blocked worker → ∃ other, n.WaitsFor worker other

theorem Coherent.begins (h : n.Coherent) (hturn : n.cache.passLock = none)
    (hframe : n.frameAt place = some (.pass .queue)) :
    ∃ next, n.step (.run place.worker) = some next ∧
      next.frameAt place = some (.pass (.collect n.cache.clock 0 [])) := by
  have hqueue : Pass.queue.step place.worker n.cache =
      some ({ n.cache with
        passLock := some place.worker
        passQueue := n.cache.passQueue.erase place.worker },
        .more (.collect n.cache.clock 0 [])) := by
    simp only [Pass.step, hturn]
  obtain ⟨next, hrun, -, hnext⟩ := (h.alone hframe).advance hqueue
  exact ⟨next, hrun, hnext.frame⟩

theorem Coherent.freed (h : n.Coherent) (hturn : n.cache.passLock = none) : n.Freed where
  turn := hturn
  verdict := by
    refine Bool.eq_false_iff.mpr fun hdeciding => ?_
    obtain ⟨place, hplace⟩ := (h.sole .verdict).had hdeciding
    obtain ⟨p, hframe, hhas⟩ := has_iff.mp hplace
    obtain ⟨shard, total, rfl⟩ := eq_sum_of_has hhas
    have htaken := (h.sole .turn).taken (has_iff.mpr ⟨_, hframe, rfl⟩)
    rw [Cache.isTaken, hturn] at htaken
    cases htaken
  guards := h.attended.claimed
  records := h.records_eq_none
  comers hvacant hopening hcall := h.takes_at_once hvacant hopening hcall
  passes := by
    intro caller following hcall
    obtain ⟨hcache, hstack⟩ := spec_of_call rfl hcall
    have hframe := frameAt_innermost hstack
    obtain ⟨queued, hrun, hqueued, halone⟩ := ((h.step hcall).alone hframe).advance
      (show Pass.enter.step _ following.cache = some (_, .more .queue) from rfl)
    have hfree : queued.cache.passLock = none := by rw [hqueued, ← hturn, ← hcache]
    have hclock : queued.cache.clock = n.cache.clock := by rw [hqueued, ← hcache]
    obtain ⟨last, hlast, hbegun⟩ := halone.coherent.begins hfree halone.frame
    refine ⟨last, ?_, hclock ▸ hbegun⟩
    have hfirst : following.step (.run (.client caller)) = some queued := hrun
    have hsecond : queued.step (.run (.client caller)) = some last := hlast
    rw [runAll_cons, hfirst, Option.bind_some, runAll_cons, hsecond]
    rfl
  queued := h.begins hturn
  waits := by
    rintro worker ⟨htop, hblocked⟩
    obtain ⟨frame, htop⟩ := Option.isSome_iff_exists.mp htop
    cases h.progress htop hblocked with
    | passing waits => exact ⟨_, waits⟩
    | key _ _ _ waits => exact ⟨_, waits⟩
    | turn _ _ _ waits => exact ⟨_, waits⟩

theorem Concludes.freed {answer : Answer} (h : m.Concludes place answer n) : n.Freed := by
  refine (h.coherent.step h.ran).freed ?_
  cases place with
  | client number depth => rw [h.returns.1]
  | sweeper generation =>
    obtain ⟨detached, sweeper, hdetached, -, hcache⟩ := h.returns
    rw [hcache]
    exact (detach_alike hdetached).passLock_eq

/-! ## Passes that need nobody else -/

theorem Toils.completes (h : m.Toils place n) (hgone : n.frameAt place = none) :
    ∃ steps, m.Completes place (List.replicate steps (.run place.worker)) n := by
  induction h with
  | refl m => exact ⟨0, trivial, rfl, hgone⟩
  | step busy ran rest ih =>
    obtain ⟨steps, hrest⟩ := ih hgone
    have hstep : Machine.step _ (.run place.worker) = some _ := ran
    refine ⟨steps + 1, ⟨?_, fun next hnext => ?_⟩, ?_, hgone⟩
    · obtain ⟨frame, hframe, -⟩ := Option.any_eq_true _ _ |>.mp busy
      exact Option.isSome_of_eq_some hframe
    · cases hstep.symm.trans hnext
      exact hrest.lasts
    · rw [List.replicate_succ, runAll_cons, hstep]
      exact hrest.run

theorem Alone.collapses {survey : Survey} (h : m.Alone place n (.weigh survey))
    (hraises : n.cache.Raises panic) :
    ∃ last, n.Toils place last ∧ last.frameAt place = none := by
  obtain ⟨evictor, hevictor, hexcess⟩ := hraises
  have hweigh : (Pass.weigh survey).step place.worker n.cache =
      some (n.cache, .more (.unwind survey.marks panic)) := by
    simp only [Pass.step, Pass.weighExcess, hevictor, hexcess]
  obtain ⟨unwinding, hrun, -, halone⟩ := h.advance hweigh
  obtain ⟨leaving, htoils, hleaves, -⟩ := halone.unwinds
  obtain ⟨last, hlast, hended, -⟩ := hleaves.leaves
  exact ⟨last, .step h.busy hrun (htoils.trans (.step hleaves.busy hlast (.refl last))),
    hended.frame⟩

/-! ## Stopping and starting again -/

theorem notices {generation : Nat}
    (hending : m.cache.sweeper.threads.get? generation = some .ending)
    (hidle : m.cache.sweeper.deciding = false) :
    ∃ next, m.step (.run (.sweeper generation)) = some next ∧
      next.cache.sweeper.running =
        (m.cache.sweeper.running && !decide (m.cache.sweeper.generation = generation)) := by
  simp only [step, run, runSweeper, hending, Sweeper.step, Sweeper.exit, hidle, Bool.false_eq_true,
    if_false, Option.map_some]
  exact ⟨_, rfl, rfl⟩

/-- A value is stored before the sweeper is started, and counts as used only then. -/
theorem point_of_value {a next : Access} {now : Instant} {value : Value}
    (h : a.afterProvider now (.value value) = some next) :
    ∃ ticket deadline, next.point =
      .perform ticket [.put a.key value deadline, .wake, .use a.key] (.value value) := by
  unfold Access.afterProvider at h
  split at h
  · simp only [Option.ite_none_right_eq_some, Option.some.injEq] at h
    obtain ⟨-, rfl⟩ := h
    exact ⟨_, _, rfl⟩
  · cases h

/-- Whoever stores a value makes the sweeper run on the way, whatever others do in between. -/
theorem Coherent.restarts (h : m.Coherent) {number : Nat} {a : Access} {outer : List Frame}
    {value : Value} {ended : Machine layout} {events : List Event}
    (hstack : (m.client number).stack = .access a :: outer)
    (hended : m.step (.provide number (.value value)) = some ended)
    (hcompletes : ended.Completes (.client number outer.length) events n) :
    ∃ before after woken, events = before ++ after ∧ ended.runAll before = some woken ∧
      woken.cache.sweeper.running = true := by
  have hacting : m.acting (.provide number (.value value)) = some (.client number outer.length) :=
    innermost_eq hstack
  cases own_of_step hended hacting (frameAt_innermost hstack) with
  | provided was after now same =>
    cases was
    have hcoherent := h.step hended
    obtain ⟨ticket, deadline, hpoint⟩ := point_of_value after
    obtain ⟨acts, answer, hacts, hcourse, -⟩ :=
      hcompletes.course hcoherent.owned now (Access.hasLooked_afterProvider after)
    rw [hpoint] at hcourse
    obtain ⟨rfl, -⟩ := Access.course_perform hcourse
    obtain ⟨first, second, reached, woken, rfl, hfirst, hown, hwakes, hstep, -⟩ :=
      Acts.split (show ended.Acts _ events ([.effect (.put a.key value deadline)] ++
        .effect .wake :: [.effect (.use a.key)]) n from hacts)
    have hreached := hcoherent.later hfirst.runAll
    obtain ⟨sweeper, hstart, hcache⟩ := Option.map_eq_some_iff.mp hwakes
    refine ⟨first ++ [.run (.client number)], second, woken, by simp [Place.worker], ?_, ?_⟩
    · rw [runAll_append, hfirst.runAll, Option.bind_some, runAll_cons,
        show reached.step (.run (.client number)) = some woken from hstep]
      rfl
    · have hbusy : (reached.client number).stack ≠ [] := by
        intro hnil
        simp [Place.worker, acting, innermost, hnil] at hown
      rw [← hcache]
      exact (Sweeper.running_of_start hstart (hreached.staffed.open_of_stack hbusy)).2

/-! ## Runs -/

/--
Passes of a cache whose evictor panics when it is asked for its excess, with others doing what they
like in between.  A pass that meets a live entry does nothing of itself up to its last step, and
that step touches no entry, no count and no ranking; after it no lock is left but those of
operations in progress.  On a thread of the sweeper the thread comes to its end, and when that is
noticed the sweeper does not run unless it has been started anew; whoever stores a value makes it
run.  A pass that meets no live entry does not ask the evictor.  No key is left but those under
which others have stored something new during the pass, and if there are none it tells to stop.  A
pass that nobody disturbs comes to its end by itself, and so does one that is about to ask.
-/
theorem panicking_passes_change_nothing {config : Config} {policy : Policy} {capacity : Nat}
    {preload : List Key} {text : String} {first : Evictor} {clock : Instant}
    {earlier : List Event} (hmade : Evictor.made policy capacity preload (.raises text) = .ok first)
    (hconfig : config.evictor = some first)
    (hrun : (ofConfig layout config clock).runAll earlier = some m) :
    (∀ place events n, m.frameAt place = some (.pass .enter) → m.Completes place events n →
      (¬m.Overlooks place events →
        ∃ before last, events = before ++ [.run place.worker] ∧
          m.GivesUp place before (.raised text) last n ∧
          last.cache.Left n.cache (.panicked (.raised text)) place.worker ∧ n.Freed ∧
          (∀ number, place.worker = .client number → n.cache.sweeper = last.cache.sweeper) ∧
          ∀ generation, place.worker = .sweeper generation →
            ∃ next, n.step (.run (.sweeper generation)) = some next ∧
              next.cache.sweeper.running =
                (n.cache.sweeper.running && !decide (n.cache.sweeper.generation = generation))) ∧
      (m.Overlooks place events →
        m.Heeds (fun m event => ¬m.Asks place event) events ∧
        (∀ key, m.Heeds (Refuses key) events → n.cache.contains key = false) ∧
        ∃ stopped, n.Reports place stopped ∧
          ((∀ key, m.Heeds (Refuses key) events) → stopped = true))) ∧
    (∀ place, (m.frameAt place = some (.pass .enter) ∧ m.Undisturbed place ∨
        ∃ survey, m.frameAt place = some (.pass (.weigh survey))) →
      ∃ steps n, m.Completes place (List.replicate steps (.run place.worker)) n) ∧
    (∀ generation, m.cache.sweeper.threads.get? generation = some .ending →
      m.cache.sweeper.deciding = false →
        ∃ next, m.step (.run (.sweeper generation)) = some next ∧
          next.cache.sweeper.running =
            (m.cache.sweeper.running && !decide (m.cache.sweeper.generation = generation))) ∧
    ∀ number a outer value ended events n, (m.client number).stack = .access a :: outer →
      m.step (.provide number (.value value)) = some ended →
      ended.Completes (.client number outer.length) events n →
        ∃ before after woken, events = before ++ after ∧ ended.runAll before = some woken ∧
          woken.cache.sweeper.running = true := by
  have hcoherent := coherent_of_origin (.made hmade) hconfig hrun
  have hterms : m.cache.terms = some (some (.raises text), capacity) := by
    rw [terms_of_run hrun, hconfig, Option.map_some, Evictor.terms_made hmade]
  refine ⟨fun place events n hframe hcompletes => ⟨fun hsees => ?_, fun hoverlooks => ?_⟩, ?_,
    fun generation => notices, fun _ _ _ _ _ _ _ => hcoherent.restarts⟩
  · obtain ⟨before, last, hevents, hgives⟩ :=
      hcompletes.gives_up hcoherent hframe hterms (.inr ⟨trivial, hsees⟩)
    have hconcludes := hgives.concludes
    refine ⟨before, last, hevents, hgives, hconcludes.left, hconcludes.freed, ?_, ?_⟩
    · intro number hworker
      cases place with
      | client other depth => rw [hconcludes.returns.1]
      | sweeper generation => cases hworker
    · intro generation hworker
      exact notices (hconcludes.left.thread generation hworker) hconcludes.freed.verdict
  · have hblind := Pass.blind_enter (fun key => m.Heeds (Refuses key) events) m.cache
    exact hcompletes.overlooking hcoherent hframe hblind hoverlooks fun _ => id
  · rintro place (⟨hframe, hcalm⟩ | ⟨survey, hframe⟩)
    · obtain ⟨n, _, htoils, hended, -⟩ := (hcoherent.alone hframe).ends hcalm
      obtain ⟨steps, hcompletes⟩ := htoils.completes hended.frame
      exact ⟨steps, n, hcompletes⟩
    · obtain ⟨n, htoils, hgone⟩ := (hcoherent.alone hframe).collapses (raises_of_terms hterms)
      obtain ⟨steps, hcompletes⟩ := htoils.completes hgone
      exact ⟨steps, n, hcompletes⟩

def broken : Evictor := ⟨.recency ⟨1, .empty, .empty⟩, some (.raises "broken")⟩

def brittle : Config := ⟨some broken, defaultInterval⟩

theorem made_broken : Evictor.made .recency 1 [] (.raises "broken") = .ok broken := rfl

/-- One entry has expired and another one is live when the thread of the sweeper begins its pass. -/
def midday : List Event :=
  creation 0 "x" leastTtl .unit ++ [.run (.sweeper 1), .tick defaultInterval] ++
    creation 0 "l" leastTtl .unit ++ [.run (.sweeper 1), .run (.sweeper 1)]

def intrusion : List Event :=
  List.replicate 7 (.run (.sweeper 1)) ++
    [.call 1 (.access "x" (.get .unit)), .run (.client 1)] ++
    List.replicate 11 (.run (.sweeper 1))

/-- One entry has expired when a client begins a pass. -/
def sunset : List Event :=
  creation 0 "x" leastTtl .unit ++ [.tick leastTtl, .call 1 .purge]

/--
A pass of the sweeper leaves the expired entry that it has marked, and the client that waits for the
key can go on; when the end of the thread is noticed the sweeper does not run.  A pass without live
entries removes the expired one.
-/
theorem panicking_passes_change_nothing_intrusion :
    (∃ m before last n, runAll (ofConfig .flat brittle ⟨0⟩) midday = some m ∧
      m.frameAt (.sweeper 1) = some (.pass .enter) ∧ ¬m.Overlooks (.sweeper 1) intrusion ∧
      intrusion = before ++ [.run (.sweeper 1)] ∧
      m.GivesUp (.sweeper 1) before (.raised "broken") last n ∧ n.Freed ∧
      n.cache.contains "x" = true ∧ (n.run (.client 1)).isSome = true ∧
      ∃ next, n.step (.run (.sweeper 1)) = some next ∧ next.cache.sweeper.running = false) ∧
    ∃ m n, runAll (ofConfig .flat brittle ⟨0⟩) sunset = some m ∧
      m.Completes (.client 1 0) (List.replicate 17 (.run (.client 1))) n ∧
      m.Overlooks (.client 1 0) (List.replicate 17 (.run (.client 1))) ∧
      n.cache.contains "x" = false ∧ (n.client 1).answer = some (.flag true) := by
  constructor
  · have hpass : (runAll (ofConfig .flat brittle ⟨0⟩) midday).any fun m =>
        decide (m.frameAt (.sweeper 1) = some (.pass .enter)) &&
        decide (m.Heeds (fun m _ => (m.frameAt (.sweeper 1)).isSome = true) intrusion) &&
        !decide (m.Overlooks (.sweeper 1) intrusion) &&
        (m.runAll intrusion).any fun n =>
          (n.frameAt (.sweeper 1)).isNone && n.cache.contains "x" &&
          (n.run (.client 1)).isSome && decide (n.cache.sweeper.generation = 1) := by
      decide +kernel
    simp only [Option.any_eq_true, Bool.and_eq_true, decide_eq_true_eq, Option.isNone_iff_eq_none,
      Bool.not_eq_true', decide_eq_false_iff_not] at hpass
    obtain ⟨m, hm, ⟨⟨hframe, hlasts⟩, hsees⟩, n, hn, ⟨⟨hgone, hkept⟩, hgoes⟩, hcurrent⟩ := hpass
    obtain ⟨hpasses, -⟩ := panicking_passes_change_nothing made_broken rfl hm
    obtain ⟨before, last, hevents, hgives, -, hfreed, -, hnoticed⟩ :=
      (hpasses (.sweeper 1) intrusion n hframe ⟨hlasts, hn, hgone⟩).1 hsees
    obtain ⟨next, hnext, hrunning⟩ := hnoticed 1 rfl
    refine ⟨m, before, last, n, hm, hframe, hsees, hevents, hgives, hfreed, hkept, hgoes, next,
      hnext, ?_⟩
    rw [hrunning, hcurrent]
    exact Bool.and_false _
  · have hpass : (runAll (ofConfig .flat brittle ⟨0⟩) sunset).any fun m =>
        decide (m.frameAt (.client 1 0) = some (.pass .enter)) &&
        decide (m.Heeds (fun m _ => (m.frameAt (.client 1 0)).isSome = true)
          (List.replicate 17 (.run (.client 1)))) &&
        decide (m.Overlooks (.client 1 0) (List.replicate 17 (.run (.client 1)))) &&
        decide (m.Heeds (Refuses "x") (List.replicate 17 (.run (.client 1)))) &&
        (m.runAll (List.replicate 17 (.run (.client 1)))).any fun n =>
          (n.frameAt (.client 1 0)).isNone && decide ((n.client 1).answer = some (.flag true)) := by
      decide +kernel
    simp only [Option.any_eq_true, Bool.and_eq_true, decide_eq_true_eq,
      Option.isNone_iff_eq_none] at hpass
    obtain ⟨m, hm, ⟨⟨⟨hframe, hlasts⟩, hoverlooks⟩, hrefuses⟩, n, hn, hgone, hanswer⟩ := hpass
    obtain ⟨hpasses, -⟩ := panicking_passes_change_nothing made_broken rfl hm
    have hcompletes : m.Completes (.client 1 0) (List.replicate 17 (.run (.client 1))) n :=
      ⟨hlasts, hn, hgone⟩
    obtain ⟨-, hcleared, -⟩ := (hpasses _ _ n hframe hcompletes).2 hoverlooks
    exact ⟨m, n, hm, hcompletes, hoverlooks, hcleared "x" hrefuses, hanswer⟩

/-- The only entry has expired and is being made anew when a client begins a pass. -/
def replacement : List Event :=
  creation 0 "x" leastTtl .unit ++
    [.tick leastTtl, .call 1 (.access "x" (.create .unit leastTtl))] ++
    List.replicate 4 (.run (.client 1)) ++ [.call 2 .purge]

/-- The pass waits for the key, and in the meantime another entry is stored. -/
def latecomer : List Event :=
  List.replicate 5 (.run (.client 2)) ++ creation 0 "k" leastTtl .unit ++
    [.provide 1 (.failure "down")] ++ List.replicate 4 (.run (.client 1)) ++
    List.replicate 9 (.run (.client 2))

/-- A pass that meets no live entry leaves the one that was stored meanwhile, and says so. -/
theorem pass_overlooks_latecomer :
    Evictor.made .recency 1 [] (.raises "broken") = .ok broken ∧
    ∃ m n, runAll (ofConfig .flat brittle ⟨0⟩) replacement = some m ∧
      m.frameAt (.client 2 0) = some (.pass .enter) ∧ m.Completes (.client 2 0) latecomer n ∧
      m.Overlooks (.client 2 0) latecomer ∧ n.cache.contains "k" = true ∧
      (n.client 2).answer = some (.flag false) := by
  have hpass : (runAll (ofConfig .flat brittle ⟨0⟩) replacement).any fun m =>
      decide (m.frameAt (.client 2 0) = some (.pass .enter)) &&
      decide (m.Heeds (fun m _ => (m.frameAt (.client 2 0)).isSome = true) latecomer) &&
      decide (m.Overlooks (.client 2 0) latecomer) &&
      (m.runAll latecomer).any fun n =>
        (n.frameAt (.client 2 0)).isNone && n.cache.contains "k" &&
        decide ((n.client 2).answer = some (.flag false)) := by
    decide +kernel
  simp only [Option.any_eq_true, Bool.and_eq_true, decide_eq_true_eq,
    Option.isNone_iff_eq_none] at hpass
  obtain ⟨m, hm, ⟨⟨hframe, hlasts⟩, hoverlooks⟩, n, hn, ⟨hgone, hlate⟩, hanswer⟩ := hpass
  exact ⟨made_broken, m, n, hm, hframe, ⟨hlasts, hn, hgone⟩, hoverlooks, hlate, hanswer⟩

end Machine

end TtlCache
