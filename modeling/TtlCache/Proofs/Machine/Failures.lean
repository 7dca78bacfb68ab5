import TtlCache.Proofs.Machine.Acts
import TtlCache.Proofs.Machine.Findings
import TtlCache.Proofs.Machine.Vacancies

/-!
# Failures

An operation on a key can fail in four ways: it is refused for a time to live that is too short, it
finds a live entry of another kind, or its provider fails or panics.  Each time it does of itself
only what is asked of a failure: nothing, or a miss to be counted, and for a provider that fails the
removal of the expired entry that was there before.  Its lock is given back in any case, so that
nobody has to wait for it afterwards.
-/

namespace TtlCache

variable {layout : Layout}

/-! ## Up to the lookup -/

namespace Access

variable {a : Access} {c d : Cache layout} {acts : List Act} {answer : Answer}

theorem unlooked_step {progress : Progress Access} (h : a.step c = some (d, progress))
    (hlooked : a.hasLooked = false) :
    (∃ point, progress = .more { a with point := point } ∧
        ({ a with point := point } : Access).hasLooked = false ∧ c.Unaltered d) ∨
      ∃ ticket, a = { a with point := .look ticket } ∧ d = (a.look c ticket).1 ∧
        progress = .more { a with point := (a.look c ticket).2 } := by
  cases stride_of_step h with
  | register => exact .inl ⟨_, rfl, rfl, rfl⟩
  | acquire acquired => exact .inl ⟨_, rfl, rfl, rfl⟩
  | look => exact .inr ⟨_, rfl, rfl, rfl⟩
  | _ => cases hlooked

theorem hasLooked_look (a : Access) (c : Cache layout) (ticket : Nat) :
    ({ a with point := (a.look c ticket).2 } : Access).hasLooked = true := by
  have hsight := sight_look a c ticket
  generalize (a.look c ticket).2 = point at hsight
  cases hsight <;> rfl

theorem hasLooked_of_afterProvider {next : Access} {now : Instant} {outcome : Outcome}
    (h : a.afterProvider now outcome = some next) : a.hasLooked = true := by
  unfold afterProvider at h
  split at h
  · next hpoint hrequest => rw [hasLooked, hpoint]
  · cases h

end Access

/-- Whether an answer tells that an operation has failed after its lookup. -/
def Answer.fails : Answer -> Bool
  | .failed _ | .panicked _ => true
  | .found _ | .value _ | .refused _ | .flag _ | .statistics _ => false

/-- What is answered if a provider fails or panics. -/
def Outcome.failure? : Outcome -> Option Answer
  | .value _ => none
  | .failure text => some (.failed text)
  | .panic text => some (.panicked (.raised text))

namespace Access

variable {c d : Cache layout} {acts : List Act} {answer : Answer}

/-- What an operation that fails has found, and what it does of itself. -/
inductive Fails (key : Key) (request : Request) (c : Cache layout) :
    List Act -> Answer -> Prop where
  | mistaken {kind : Kind} {entry : Entry} (asks : request.kind? = some kind)
      (live : liveAt c.clock (c.store.get? key) = some entry) (differs : entry.value.kind ≠ kind) :
      Fails key request c [] (.panicked (.wrongKind key kind))
  | raised {text : String} (dead : liveAt c.clock (c.store.get? key) = none) :
      Fails key request c [.effect (.count .miss), .provided (.panic text)]
        (.panicked (.raised text))
  | failed {text : String} (dead : liveAt c.clock (c.store.get? key) = none) :
      Fails key request c
        (.effect (.count .miss) :: .provided (.failure text) ::
          (if c.contains key then [Effect.erase key, .untrack key] else []).map .effect)
        (.failed text)

theorem fails_of_missed {key : Key} {ticket : Nat} {request : Request}
    (dead : liveAt c.clock (c.store.get? key) = none)
    (hcourse : Course key (.missed ticket (c.contains key)) acts answer)
    (hanswer : answer.fails = true) : Fails key request c acts answer := by
  cases hcourse with
  | missed rest =>
    cases rest with
    | value => cases hanswer
    | failed => exact .failed dead
    | raised => exact .raised dead

/-- Nothing else than what `Fails` says leads to a failure. -/
theorem fails_of_course {key : Key} {ticket : Nat} {request : Request} {point : AccessPoint}
    (h : Finding key ticket c request d point) (hcourse : Course key point acts answer)
    (hanswer : answer.fails = true) : Fails key request c acts answer ∧ d = c := by
  cases h with
  | vacant absent =>
    cases request with
    | create kind ttl =>
      have hcontains : c.contains key = false := by rw [Cache.contains, absent]; rfl
      have hmissed : Course key (.missed ticket (c.contains key)) acts answer := by
        rwa [hcontains]
      exact ⟨fails_of_missed (by rw [absent]; rfl) hmissed hanswer, rfl⟩
    | _ =>
      obtain ⟨-, rfl⟩ := course_perform hcourse
      cases hanswer
  | stale present dead =>
    have hcontains : c.contains key = true := by rw [Cache.contains, present]; rfl
    have hmissed : Course key (.missed ticket (c.contains key)) acts answer := by
      rwa [hcontains]
    exact ⟨fails_of_missed (by rw [present, liveAt_of_expired dead]) hmissed hanswer, rfl⟩
  | mistaken present live asks differs =>
    obtain ⟨rfl, rfl⟩ := course_perform hcourse
    exact ⟨.mistaken asks (by rw [present, liveAt_of_live live]) differs, rfl⟩
  | _ =>
    obtain ⟨-, rfl⟩ := course_perform hcourse
    cases hanswer

end Access

namespace Machine

variable {m n : Machine layout} {number depth : Nat} {a : Access} {events : List Event}

/-- An operation that comes to its end has looked its key up before.  If nothing changed with that,
what it does of itself is what is left to do after its lookup. -/
theorem Completes.story (h : m.Completes (.client number depth) events n) (howned : m.Owned)
    (hframe : m.frameAt (.client number depth) = some (.access a))
    (hlooked : a.hasLooked = false) :
    ∃ before after looked ticket acts answer, events = before ++ after ∧
      m.runAll before = some looked ∧
      looked.frameAt (.client number depth) = some (.access { a with point := .look ticket }) ∧
      (n.client number).answer = some answer ∧
      Access.Course a.key (a.look looked.cache ticket).2 acts answer ∧
      ((a.look looked.cache ticket).1 = looked.cache →
        m.Acts (.client number depth) events acts n) := by
  induction events generalizing m a with
  | nil =>
    cases h.run
    cases hframe.symm.trans h.gone
  | cons event events ih =>
    obtain ⟨_, _, next, heq, hstep, hrest⟩ := h.cons hframe
    cases heq
    have howned' := howned.step hstep
    -- an event before the lookup, which changes nothing if it is a step of the operation
    have before : ∀ {b : Access}, b = { a with point := b.point } →
        next.frameAt (.client number depth) = some (.access b) → b.hasLooked = false →
        (∀ acts, next.Acts (.client number depth) events acts n →
          m.Acts (.client number depth) (event :: events) acts n) →
        ∃ before after looked ticket acts answer, event :: events = before ++ after ∧
          m.runAll before = some looked ∧
          looked.frameAt (.client number depth) = some (.access { a with point := .look ticket }) ∧
          (n.client number).answer = some answer ∧
          Access.Course a.key (a.look looked.cache ticket).2 acts answer ∧
          ((a.look looked.cache ticket).1 = looked.cache →
            m.Acts (.client number depth) (event :: events) acts n) := by
      intro b hb hnow hunlooked hacts
      obtain ⟨before, after, looked, ticket, acts, answer, hsplit, hrun, hthere, hanswer, hcourse,
        hsame⟩ := ih hrest howned' hnow hunlooked
      rw [hb] at hthere hcourse hsame
      refine ⟨event :: before, after, looked, ticket, acts, answer, by rw [hsplit]; rfl, ?_, hthere,
        hanswer, hcourse, fun hkept => hacts acts (hsame hkept)⟩
      rw [runAll_cons, hstep]
      exact hrun
    by_cases hacting : m.acting event = some (.client number depth)
    · cases own_of_step hstep hacting hframe with
      | provided was after now same =>
        cases was
        rw [Access.hasLooked_of_afterProvider after] at hlooked
        cases hlooked
      | more step now =>
        obtain ⟨_, rfl, hnext⟩ := Frame.access_of_access step
        rcases Access.unlooked_step hnext hlooked with
          ⟨point, heq, hunlooked, hsame⟩ | ⟨ticket, ha, hcache, heq⟩
        · cases heq
          exact before rfl now hunlooked fun acts hacts => .idle hacting hstep hsame hacts
        · cases heq
          obtain ⟨acts, answer, hacts, hcourse, hanswer⟩ :=
            hrest.course howned' now (Access.hasLooked_look a m.cache ticket)
          refine ⟨[], _, m, ticket, acts, answer, rfl, rfl, ha ▸ hframe, hanswer, hcourse,
            fun hkept => .idle hacting hstep ?_ hacts⟩
          rw [hcache, hkept]
          rfl
      | done step gone returns =>
        rcases Access.unlooked_step (Frame.access_done step) hlooked with
          ⟨point, heq, -⟩ | ⟨ticket, -, -, heq⟩ <;> cases heq
    · exact before rfl (frameAt_step hstep hacting hframe) hlooked fun acts hacts =>
        .others hacting hstep hacts

theorem Completes.fails {key : Key} {request : Request} {answer : Answer}
    (h : m.Completes (.client number depth) events n) (howned : m.Owned)
    (hframe : m.frameAt (.client number depth) = some (.access (.begin key request)))
    (hanswer : (n.client number).answer = some answer) (hfails : answer.fails = true) :
    ∃ before after looked ticket acts, events = before ++ after ∧
      m.runAll before = some looked ∧
      looked.frameAt (.client number depth) = some (.access ⟨key, request, .look ticket⟩) ∧
      Access.Fails key request looked.cache acts answer ∧
      m.Acts (.client number depth) events acts n := by
  obtain ⟨before, after, looked, ticket, acts, given, hsplit, hrun, hlooked, hgiven, hcourse,
    hacts⟩ := h.story howned hframe rfl
  cases hgiven.symm.trans hanswer
  have hfinding := Access.finding_look key request .register ticket looked.cache
  obtain ⟨hfailing, hsame⟩ := Access.fails_of_course hfinding hcourse hfails
  exact ⟨before, after, looked, ticket, acts, hsplit, hrun, hlooked, hfailing, hacts hsame⟩

/-! ## Failures by themselves -/

theorem call_refused {key : Key} {kind : Kind} {ttl : Duration}
    (hshort : ttl.nanos < leastTtl.nanos) (hcall : (m.client number).mayCall = true)
    (hhandles : 0 < m.clientHandles) :
    m.step (.call number (.access key (.create kind ttl))) =
      some (m.setClient number
        { m.client number with answer := some (.refused ⟨ttl, leastTtl⟩) }) := by
  simp [step, call, opening, hshort, hcall, hhandles]

theorem ends_after_failure {outer : List Frame} {outcome : Outcome} {answer : Answer}
    (howned : m.Owned) (hstack : (m.client number).stack = .access a :: outer)
    (hended : m.step (.provide number outcome) = some n)
    (hanswer : outcome.failure? = some answer) :
    ∃ steps last, n.runAll (List.replicate steps (.run (.client number))) = some last ∧
      last.client number = { stack := outer, answer := some answer } := by
  have howned' := howned.step hended
  simp only [step, provide, hstack, Option.map_eq_some_iff] at hended
  obtain ⟨next, hafter, rfl⟩ := hended
  have hnext : ((m.setClient number { m.client number with
      stack := .access next :: outer }).client number).stack = .access next :: outer := by
    rw [client_setClient, if_pos rfl]
  obtain ⟨ticket, todo, hpoint, hquiet⟩ : ∃ ticket todo, next.point = .perform ticket todo answer ∧
      Effect.wake ∉ todo := by
    unfold Access.afterProvider at hafter
    split at hafter
    · next ticket stale kind ttl _ _ =>
      cases outcome with
      | value value => cases hanswer
      | failure text =>
        cases hafter
        cases hanswer
        exact ⟨ticket, _, rfl, by split <;> simp⟩
      | panic text =>
        cases hafter
        cases hanswer
        exact ⟨ticket, _, rfl, by simp⟩
    · cases hafter
  obtain ⟨d, heffects⟩ := Effect.exists_applyAll hquiet _
  obtain ⟨last, hlast, hclient, -⟩ := finishes howned' hnext hpoint heffects
  exact ⟨_, last, hlast, hclient⟩

theorem panics_on_kind {outer : List Frame} {ticket : Nat} {kind : Kind} {entry : Entry}
    (howned : m.Owned) (hstack : (m.client number).stack = .access a :: outer)
    (hpoint : a.point = .look ticket) (hasks : a.request.kind? = some kind)
    (hlive : liveAt m.cache.clock (m.cache.store.get? a.key) = some entry)
    (hdiffers : entry.value.kind ≠ kind) :
    ∃ steps last, m.runAll (List.replicate steps (.run (.client number))) = some last ∧
      last.client number =
        { stack := outer, answer := some (.panicked (.wrongKind a.key kind)) } := by
  obtain ⟨steps, last, hrun, hreaches⟩ := reaches howned hstack hpoint
  have hverdict : a.request.verdict a.key m.cache.clock (m.cache.store.get? a.key) =
      some (.panicked (.wrongKind a.key kind)) := by
    cases hrequest : a.request with
    | get asked | create asked ttl =>
      rw [hrequest] at hasks
      cases hasks
      simp [Request.verdict, hlive, Entry.read, hdiffers]
    | extend deadline | forget =>
      rw [hrequest] at hasks
      cases hasks
  rw [hverdict] at hreaches
  exact ⟨steps, last, hrun, hreaches⟩

theorem spec_of_refusal {request : Call} {answer : Answer}
    (hopening : opening request = .done answer)
    (h : m.step (.call number request) = some n) :
    n.frameAt (.client number (m.client number).stack.length) = none ∧
      (n.client number).answer = some answer := by
  simp only [step, call, hopening, Option.ite_none_right_eq_some, Option.some.injEq] at h
  obtain ⟨-, rfl⟩ := h
  refine ⟨frameAt_outside ?_, ?_⟩ <;> rw [client_setClient, if_pos rfl]

theorem fails_of_opening {request : Call} {answer : Answer}
    (h : opening request = .done answer) : answer.fails = false := by
  unfold opening at h
  split at h
  · split at h <;> cases h
    rfl
  all_goals cases h

/--
In every state, whoever asks for a value with a time to live that is too short is refused at once
and nothing changes but the answer.  An operation that fails after its lookup, by finding a live
entry of another kind or because its provider fails or panics, does of itself what `Access.Fails`
says and nothing else, whatever others do in the meantime, the provider included; when it has ended,
records are kept for keys of operations in progress only, and a key that none of these is about is
there for whoever comes next.  To fail it needs nobody else, once it has its key.
-/
theorem failures_change_what_they_should {config : Config} {clock : Instant}
    {earlier : List Event} (hevictor : ∀ evictor, config.evictor = some evictor → evictor.Origin)
    (hrun : (ofConfig layout config clock).runAll earlier = some m) :
    (∀ number key kind ttl, ttl.nanos < leastTtl.nanos → (m.client number).mayCall = true →
      0 < m.clientHandles →
        m.step (.call number (.access key (.create kind ttl))) =
          some (m.setClient number
            { m.client number with answer := some (.refused ⟨ttl, leastTtl⟩) })) ∧
    (∀ number key request started place events n answer,
      m.step (.call number (.access key request)) = some started →
      place = .client number (m.client number).stack.length →
      started.Completes place events n → (n.client number).answer = some answer →
      answer.fails = true →
        (∃ before after looked ticket acts, events = before ++ after ∧
          started.runAll before = some looked ∧
          looked.frameAt place = some (.access ⟨key, request, .look ticket⟩) ∧
          Access.Fails key request looked.cache acts answer ∧
          started.Acts place events acts n) ∧
        ∀ other, n.Vacant other → n.cache.locks.records.get? other = none ∧
          ∀ caller next following frame, opening (.access other next) = .more frame →
            n.step (.call caller (.access other next)) = some following →
              ∃ own last, following.runAll [.run (.client caller), .run (.client caller)] =
                  some last ∧
                (last.client caller).stack =
                  .access ⟨other, next, .look own⟩ :: (n.client caller).stack) ∧
    (∀ number a outer ticket kind entry, (m.client number).stack = .access a :: outer →
      a.point = .look ticket → a.request.kind? = some kind →
      liveAt m.cache.clock (m.cache.store.get? a.key) = some entry → entry.value.kind ≠ kind →
        ∃ steps last, m.runAll (List.replicate steps (.run (.client number))) = some last ∧
          last.client number =
            { stack := outer, answer := some (.panicked (.wrongKind a.key kind)) }) ∧
    ∀ number a outer outcome answer ended, (m.client number).stack = .access a :: outer →
      m.step (.provide number outcome) = some ended → outcome.failure? = some answer →
        ∃ steps last, ended.runAll (List.replicate steps (.run (.client number))) = some last ∧
          last.client number = { stack := outer, answer := some answer } := by
  have hcoherent := coherent_of_run hevictor hrun
  refine ⟨fun _ _ _ _ => call_refused, ?_, fun _ _ _ _ _ _ => panics_on_kind hcoherent.owned,
    fun _ _ _ _ _ _ => ends_after_failure hcoherent.owned⟩
  rintro number key request started place events n answer hcall rfl hcompletes hanswer hfails
  have hstarted := hcoherent.step hcall
  have hn : n.Coherent := run_induction (P := Coherent) (fun h hstep => h.step hstep) hstarted
    hcompletes.run
  refine ⟨?_, fun other hvacant => ⟨hn.records_eq_none hvacant, fun caller next following frame
    hopening hnext => hn.takes_at_once hvacant hopening hnext⟩⟩
  cases hopening : opening (.access key request) with
  | more frame =>
    obtain ⟨-, hstack⟩ := spec_of_call hopening hcall
    rw [eq_begin_of_opening hopening] at hstack
    exact hcompletes.fails hstarted.owned (frameAt_innermost hstack) hanswer hfails
  | done refusal =>
    -- nothing has begun, so what is answered is a refusal
    obtain ⟨hframe, hrefused⟩ := spec_of_refusal hopening hcall
    obtain ⟨-, rfl⟩ := hcompletes.nil hframe
    cases hrefused.symm.trans hanswer
    rw [fails_of_opening hopening] at hfails
    cases hfails

/-- The rest of a creation of which the provider fails after an expired entry was found. -/
def mishap : List Event :=
  List.replicate 4 (.run (.client 0)) ++ [.provide 0 (.failure "down")] ++
    List.replicate 4 (.run (.client 0))

/-- The expired entry is gone after the failure and no longer ranked, and one more miss has been
counted. -/
theorem failures_change_what_they_should_stale :
    ∃ (m started n : Machine .flat) (looked : Cache .flat) (acts : List Act),
      runAll (ofConfig .flat keepLast ⟨0⟩) (creation 0 "a" leastTtl (.u32 7) ++ [.tick leastTtl]) =
        some m ∧
      m.step (.call 0 (.access "a" (.create .u32 leastTtl))) = some started ∧
      started.Completes (.client 0 0) mishap n ∧
      Access.Fails "a" (.create .u32 leastTtl) looked acts (.failed "down") ∧
      started.Acts (.client 0 0) mishap acts n ∧
      m.cache.contains "a" = true ∧ n.cache.contains "a" = false ∧
      m.cache.evictor.map Evictor.worst = some ["a"] ∧
      n.cache.evictor.map Evictor.worst = some [] ∧
      m.cache.tally.get .miss = 1 ∧ n.cache.tally.get .miss = 2 ∧
      n.cache.locks.records.get? "a" = none := by
  have hmishap : (runAll (ofConfig .flat keepLast ⟨0⟩)
      (creation 0 "a" leastTtl (.u32 7) ++ [.tick leastTtl])).any fun m =>
        m.cache.contains "a" && decide (m.cache.evictor.map Evictor.worst = some ["a"]) &&
        decide (m.cache.tally.get .miss = 1) &&
        decide ((m.client 0).stack = []) &&
        (m.step (.call 0 (.access "a" (.create .u32 leastTtl)))).any fun started =>
          decide (started.Heeds (fun m _ => (m.frameAt (.client 0 0)).isSome = true) mishap) &&
          (started.runAll mishap).any fun n =>
            (n.frameAt (.client 0 0)).isNone && !n.cache.contains "a" &&
            decide (n.cache.evictor.map Evictor.worst = some []) &&
            decide (n.cache.tally.get .miss = 2) && decide ("a" ∉ n.cache.locks.records.keys) &&
            decide ((n.client 0).answer = some (.failed "down")) := by
    decide +kernel
  simp only [Option.any_eq_true, Bool.and_eq_true, decide_eq_true_eq, Option.isNone_iff_eq_none,
    Bool.not_eq_true', Table.get?_eq_none_iff.symm] at hmishap
  obtain ⟨m, hm, ⟨⟨⟨hstale, hranked⟩, hbefore⟩, hstack⟩, started, hstarted, hlasts, n, hn,
    ⟨⟨⟨⟨hgone, herased⟩, huntracked⟩, hafter⟩, hfree⟩, hanswer⟩ := hmishap
  obtain ⟨-, hfails, -⟩ := failures_change_what_they_should origin_keepLast hm
  have hcompletes : started.Completes (.client 0 0) mishap n := ⟨hlasts, hn, hgone⟩
  have hplace : Place.client 0 0 = .client 0 (m.client 0).stack.length := by rw [hstack]; rfl
  obtain ⟨⟨_, _, looked, ticket, acts, -, -, -, hfailing, hacts⟩, -⟩ :=
    hfails 0 "a" (.create .u32 leastTtl) started _ mishap n (.failed "down") hstarted hplace
      hcompletes hanswer rfl
  exact ⟨m, started, n, looked.cache, acts, hm, hstarted, hcompletes, hfailing, hacts, hstale,
    herased, hranked, huntracked, hbefore, hafter, hfree⟩

end Machine

end TtlCache
