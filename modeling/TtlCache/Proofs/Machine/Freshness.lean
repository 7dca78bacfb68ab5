import TtlCache.Proofs.Machine.Vacancies
import TtlCache.Proofs.Time.Deadlines

/-!
# Values that have just been stored

A value is stored with a deadline that counts from the end of its provider.  Times to live that are
too short never get past the opening of an operation, and one that leads past the end of time is cut
down, but never to nothing.  So a value is live when it is stored, and it is found as long as its
deadline is still to come.
-/

namespace TtlCache

variable {layout : Layout}

/-- Whether a request is not refused: what it makes has to live long enough. -/
def Request.Accepted : Request -> Prop
  | .create _ ttl => leastTtl.nanos ≤ ttl.nanos
  | _ => True

section Notes

variable {key : Key} {ticket : Nat} {value : Value} {ttl : Duration}

theorem Access.request_of_returned {a : Access} {outcome : Outcome}
    (h : a.returned? outcome = some (.returned key ticket value ttl)) :
    ∃ kind, a.request = .create kind ttl := by
  unfold returned? at h
  split at h
  · next hrequest =>
    cases h
    exact ⟨_, hrequest⟩
  · cases h

theorem Frame.note?_ne_returned (frame : Frame) (c : Cache layout) :
    frame.note? c ≠ some (.returned key ticket value ttl) := by
  intro h
  cases frame with
  | access a =>
    simp only [note?, Access.note?] at h
    split at h <;> cases h
  | pass p =>
    simp only [note?, Pass.note?] at h
    split at h
    · cases h
    · split at h <;> cases h
    · cases h
  | clock => cases h
  | taking taking => cases h

end Notes

namespace Machine

variable {m n : Machine layout} {event : Event}

/-! ## Accepted requests -/

theorem accepted_of_opening {call : Call} {frame : Frame} {request : Request}
    (h : opening call = .more frame) (hrequest : frame.request? = some request) :
    request.Accepted := by
  unfold opening at h
  split at h
  · split at h
    · cases h
    · next haccepted =>
      cases h
      cases hrequest
      exact Nat.le_of_not_lt haccepted
  · next key asked hother =>
    cases h
    cases hrequest
    cases asked with
    | create kind ttl => exact (hother kind ttl rfl).elim
    | _ => trivial
  · cases h
    cases hrequest
  · cases h
    cases hrequest

def Accepting (m : Machine layout) : Prop :=
  ∀ number, ∀ frame ∈ (m.client number).stack, ∀ request, frame.request? = some request →
    request.Accepted

namespace Accepting

theorem accepted (h : m.Accepting) {place : Place} {a : Access}
    (hframe : m.frameAt place = some (.access a)) : a.request.Accepted := by
  cases place with
  | client number depth => exact h number _ (mem_stack_of_frameAt hframe) _ rfl
  | sweeper generation =>
    obtain ⟨pass, -, hpass⟩ := Option.map_eq_some_iff.mp hframe
    cases hpass

theorem step (h : m.Accepting) (hstep : m.step event = some n) : n.Accepting := by
  intro number frame hframe request hrequest
  cases restack_of_step hstep number with
  | same stack_eq => exact h number frame (stack_eq ▸ hframe) request hrequest
  | pushed event_eq opened mayCall handles stack_eq =>
    rw [stack_eq] at hframe
    rcases List.mem_cons.mp hframe with rfl | hbelow
    · exact accepted_of_opening opened hrequest
    · exact h number frame hbelow request hrequest
  | @replaced was next outer hwas kin stack_eq =>
    rw [stack_eq] at hframe
    rcases List.mem_cons.mp hframe with rfl | hbelow
    · exact h number was (hwas ▸ List.mem_cons_self) request (kin.request?_eq.symm.trans hrequest)
    · exact h number frame (hwas ▸ List.mem_cons_of_mem _ hbelow) request hrequest
  | popped was stack_eq =>
    exact h number frame (was ▸ List.mem_cons_of_mem _ (stack_eq ▸ hframe)) request hrequest

end Accepting

theorem Accepting.accepted_of_note (h : m.Accepting) (hstep : m.step event = some n) {key : Key}
    {ticket : Nat} {value : Value} {ttl : Duration}
    (hnote : m.note? event = some (.returned key ticket value ttl)) :
    leastTtl.nanos ≤ ttl.nanos := by
  cases step_cases hstep with
  | aside frames alike acting =>
    rw [note?_of_aside acting] at hnote
    cases hnote
  | opened place frame fresh free now others alike acting =>
    rw [note?_of_aside acting] at hnote
    cases hnote
  | ended place access next outcome was after now others same acting event =>
    rw [note?_of_provide acting was event] at hnote
    have haccepted := h.accepted was
    obtain ⟨kind, hrequest⟩ := Access.request_of_returned hnote
    rwa [hrequest] at haccepted
  | stepped place frame cache progress was step now others alike acting event =>
    rw [note?_of_run acting was event] at hnote
    exact absurd hnote (frame.note?_ne_returned m.cache)

/-- Neither in progress nor in the record of a run is anything that should have been refused. -/
theorem accepting_of_run {config : Config} {clock : Instant} {events : List Event}
    (hrun : (ofConfig layout config clock).runAll events = some m) :
    m.Accepting ∧ ∀ {ended key ticket value ttl},
      ⟨ended, .returned key ticket value ttl⟩ ∈ (ofConfig layout config clock).record events →
        leastTtl.nanos ≤ ttl.nanos := by
  refine record_induction (P := fun log m => m.Accepting ∧ ∀ {ended key ticket value ttl},
    ⟨ended, .returned key ticket value ttl⟩ ∈ log → leastTtl.nanos ≤ ttl.nanos)
    (fun {log m n event} h hstep => ⟨h.1.step hstep, fun hline => ?_⟩) ⟨?_, ?_⟩ hrun
  · rcases mem_write hline with hold | ⟨hnote, -⟩
    · exact h.2 hold
    · exact h.1.accepted_of_note hstep hnote
  · intro number frame hframe
    cases hframe
  · intro ended key ticket value ttl hline
    cases hline

/-! ## Finding what was stored -/

/-- By its own steps a client comes to find a value, with some time left to it but no more than
`ttl`, and goes on with its outer operations. -/
def Finds (m : Machine layout) (number : Nat) (outer : List Frame) (value : Value)
    (ttl : Duration) : Prop :=
  ∃ steps n remaining, m.runAll (List.replicate steps (.run (.client number))) = some n ∧
    n.client number = { stack := outer, answer := some (.found (some (value, remaining))) } ∧
    0 < remaining.nanos ∧ remaining.nanos ≤ ttl.nanos

variable {number : Nat} {outer : List Frame} {key : Key} {ticket : Nat} {ttl : Duration}

theorem finds_live {entry : Entry} (howned : m.Owned) (hstack : (m.client number).stack =
      .access ⟨key, .get entry.value.kind, .look ticket⟩ :: outer)
    (hlive : liveAt m.cache.clock (m.cache.store.get? key) = some entry)
    (hdeadline : entry.deadline.nanos ≤ m.cache.clock.nanos + ttl.nanos) :
    m.Finds number outer entry.value ttl := by
  obtain ⟨steps, n, hn, hreaches⟩ := reaches howned hstack rfl
  have hverdict : Request.verdict key m.cache.clock (m.cache.store.get? key)
      (.get entry.value.kind) =
        some (.found (some (entry.value, entry.remaining m.cache.clock))) := by
    simp only [Request.verdict, hlive, Entry.read, if_true]
  rw [hverdict] at hreaches
  have hlater : m.cache.clock.nanos < entry.deadline.nanos := by
    simpa [Entry.isExpired] using (liveAt_eq_some_iff.mp hlive).2
  refine ⟨steps, n, _, hn, hreaches, ?_, ?_⟩
  · exact Nat.sub_pos_of_lt hlater
  · exact Nat.sub_le_of_le_add (Nat.add_comm _ _ ▸ hdeadline)

theorem Coherent.finds_vacant {entry : Entry} (h : m.Coherent) (hvacant : m.Vacant key)
    (hlive : liveAt m.cache.clock (m.cache.store.get? key) = some entry)
    (hdeadline : entry.deadline.nanos ≤ m.cache.clock.nanos + ttl.nanos)
    (hmay : (m.client number).mayCall = true) (hhandles : 0 < m.clientHandles) :
    ∃ started, m.step (.call number (.access key (.get entry.value.kind))) = some started ∧
      started.Finds number (m.client number).stack entry.value ttl := by
  have hcall := call_of_mayCall
    (show opening (.access key (.get entry.value.kind)) = .more _ from rfl) hmay hhandles
  obtain ⟨own, last, hlast, hlooking, hcache⟩ := h.comes_to_look hvacant rfl hcall
  have hsame : last.cache.clock = m.cache.clock ∧ last.cache.store = m.cache.store := by
    rw [hcache]
    exact ⟨rfl, rfl⟩
  obtain ⟨steps, n, remaining, hn, hfound⟩ := finds_live ((h.step hcall).later hlast).owned hlooking
    (by rw [hsame.1, hsame.2]; exact hlive) (by rw [hsame.1]; exact hdeadline)
  refine ⟨_, hcall, 2 + steps, n, remaining, ?_, hfound⟩
  rw [List.replicate_add, runAll_append]
  exact (congrArg (Option.bind · _) hlast).trans hn

/-- A time to live that is accepted is not cut down to nothing, unless there is no time left. -/
theorem lt_deadlineAfter_of_accepted {now : Instant} (hnow : now.nanos < Instant.last.nanos)
    (haccepted : leastTtl.nanos ≤ ttl.nanos) : now.nanos < (now.deadlineAfter ttl).nanos :=
  (Instant.lt_deadlineAfter_iff (Nat.le_of_lt hnow)).mpr
    ⟨Nat.lt_of_lt_of_le (by decide) haccepted, hnow⟩

theorem liveAt_insert {now : Instant} (store : Store layout) (key : Key) (value : Value)
    (hnow : now.nanos < Instant.last.nanos) (haccepted : leastTtl.nanos ≤ ttl.nanos) :
    liveAt now ((store.insert key ⟨value, now.deadlineAfter ttl⟩).get? key) =
      some ⟨value, now.deadlineAfter ttl⟩ := by
  have hlater := lt_deadlineAfter_of_accepted hnow haccepted
  rw [Store.get?_insert, if_pos rfl]
  exact liveAt_of_live (decide_eq_false (Nat.not_le_of_lt hlater))

/--
A deadline is reached after no more than 94 halvings, however long the duration.  It is the sum of
instant and duration if that is an instant, and else leaves at least half of the time that there is;
so it lies ahead unless the duration is zero or time is at its end.

In every run, whatever a provider comes to is therefore live when it is stored, unless time is at
its end; and if nobody is deciding about the sweeper, the creation ends without waiting for anybody,
and whoever then asks for the key finds the value, with some of its time to live left and no more
than that.  If others come in between, so does whoever looks before the deadline, as long as the
entry has not been replaced and its deadline is the same.
-/
theorem fresh_values_are_found {config : Config} {clock : Instant} {events : List Event}
    (hevictor : ∀ evictor, config.evictor = some evictor → evictor.Origin)
    (hrun : (ofConfig layout config clock).runAll events = some m) :
    (∀ now : Instant, now.nanos ≤ Instant.last.nanos → ∀ ttl : Duration,
      ttl.nanos ≤ Duration.longest.nanos →
        (∃ halvings ≤ 94, now.FitsAfter ttl halvings (now.deadlineAfter ttl)) ∧
        (now.nanos + ttl.nanos ≤ Instant.last.nanos →
          now.deadlineAfter ttl = ⟨now.nanos + ttl.nanos⟩) ∧
        (Instant.last.nanos < now.nanos + ttl.nanos →
          now.nanos + (Instant.last.nanos - now.nanos + 1) / 2 ≤ (now.deadlineAfter ttl).nanos ∧
            (now.deadlineAfter ttl).nanos ≤ Instant.last.nanos) ∧
        (now.nanos < (now.deadlineAfter ttl).nanos ↔
          0 < ttl.nanos ∧ now.nanos < Instant.last.nanos)) ∧
    (∀ number outer key kind ttl ticket stale value, (m.client number).stack =
        .access ⟨key, .create kind ttl, .provide ticket stale⟩ :: outer →
      value.kind = kind → m.cache.clock.nanos < Instant.last.nanos →
        leastTtl.nanos ≤ ttl.nanos ∧
        (∃ n, m.runAll [.provide number (.value value), .run (.client number)] = some n ∧
          n.cache.clock = m.cache.clock ∧
          liveAt n.cache.clock (n.cache.store.get? key) =
            some ⟨value, m.cache.clock.deadlineAfter ttl⟩) ∧
        (m.cache.sweeper.deciding = false → ∃ n,
          m.runAll (.provide number (.value value) :: List.replicate 5 (.run (.client number))) =
            some n ∧ n.client number = { stack := outer, answer := some (.value value) } ∧
          n.cache.clock = m.cache.clock ∧
          (n.Vacant key → ∀ caller, (n.client caller).mayCall = true → 0 < n.clientHandles →
            ∃ started, n.step (.call caller (.access key (.get kind))) = some started ∧
              started.Finds caller (n.client caller).stack value ttl))) ∧
    ∀ before stored key ticket entry since, (ofConfig layout config clock).record events =
        before ++ ⟨stored, .stored key ticket entry⟩ :: since →
      ∃ ended ttl, ⟨ended, .returned key ticket entry.value ttl⟩ ∈ before ∧
        leastTtl.nanos ≤ ttl.nanos ∧ entry.deadline = ended.deadlineAfter ttl ∧
        (ended.nanos < Instant.last.nanos → ended.nanos < entry.deadline.nanos) ∧
        ((∀ line ∈ since, line.note.replaces key = false) → entry.after key since = entry →
          m.cache.clock.nanos < entry.deadline.nanos →
            liveAt m.cache.clock (m.cache.store.get? key) = some entry ∧
            ∀ number outer own, (m.client number).stack =
                .access ⟨key, .get entry.value.kind, .look own⟩ :: outer →
              m.Finds number outer entry.value ttl) := by
  have hcoherent := coherent_of_run hevictor hrun
  have hchronicle := chronicle_of_run hrun fun evictor hsome => (hevictor evictor hsome).sound
  obtain ⟨haccepting, hreturned⟩ := accepting_of_run hrun
  refine ⟨fun now hnow ttl hlongest => ?_, ?_, ?_⟩
  · obtain ⟨halvings, hfits, hbits⟩ := Instant.fitsAfter_deadlineAfter hnow ttl
    have hlt := Nat.lt_of_le_of_lt hlongest Duration.longest_lt
    exact ⟨⟨halvings, hbits 94 hlt, hfits⟩, Instant.deadlineAfter_of_fits,
      fun hexceeds => ⟨Instant.half_le_deadlineAfter hnow hexceeds,
        Instant.deadlineAfter_le_last hnow ttl⟩, Instant.lt_deadlineAfter_iff hnow⟩
  · intro number outer key kind ttl ticket stale value hstack hkind hnow
    have haccepted : leastTtl.nanos ≤ ttl.nanos := haccepting.accepted (frameAt_innermost hstack)
    have hlive := liveAt_insert m.cache.store key value hnow haccepted
    refine ⟨haccepted, ?_, fun hidle => ?_⟩
    · obtain ⟨n, hn, hcache, -⟩ := stores_at_once hstack hkind
      exact ⟨n, hn, by rw [hcache], by rw [hcache]; exact hlive⟩
    · -- with the sweeper's state free to be taken, nothing is left to wait for
      obtain ⟨n, hn, hclient, hstore, hclock⟩ := creates hcoherent.owned hidle hstack hkind
      refine ⟨n, hn, hclient, hclock, fun hvacant caller hmay hhandles => ?_⟩
      subst hkind
      exact (hcoherent.later hn).finds_vacant hvacant (by rw [hclock, hstore]; exact hlive)
        (by rw [hclock]; exact Instant.deadlineAfter_le_add _ ttl) hmay hhandles
  · intro before stored key ticket entry since hsplit
    obtain ⟨-, -, ended, ttl, -, hended, hdeadline⟩ := hchronicle.provenance hsplit
    have hline := hsplit ▸ List.mem_append_left _ hended
    have haccepted := hreturned hline
    refine ⟨ended, ttl, hended, haccepted, hdeadline, fun hnow => ?_, fun hkept hsame hlater => ?_⟩
    · rw [hdeadline]
      exact lt_deadlineAfter_of_accepted hnow haccepted
    · -- store and record agree on what is live, and in the record the entry stands
      have hlive : liveAt m.cache.clock (m.cache.store.get? key) = some entry := by
        rw [hchronicle.balanced.liveAt_eq, liveAt_ledger_iff]
        exact ⟨⟨before, stored, ticket, entry, since, hsplit, hkept, hsame.symm⟩, hlater⟩
      refine ⟨hlive, fun number outer own hstack => ?_⟩
      refine finds_live hcoherent.owned hstack hlive ?_
      calc entry.deadline.nanos
          = (ended.deadlineAfter ttl).nanos := by rw [hdeadline]
        _ ≤ ended.nanos + ttl.nanos := Instant.deadlineAfter_le_add ended ttl
        _ ≤ m.cache.clock.nanos + ttl.nanos :=
            Nat.add_le_add_right (hchronicle.past _ hline) _

def nearTheEnd : Instant := ⟨Instant.last.nanos - 1⟩

/-- Even the shortest time to live is too long then, and its value is found all the same. -/
theorem fresh_values_are_found_near_the_end :
    ∃ m, runAll (ofConfig .flat keepLast nearTheEnd)
        (creation 0 "a" leastTtl (.u32 7) ++ [.call 1 (.access "a" (.get .u32))] ++
          List.replicate 2 (.run (.client 1))) = some m ∧
      m.cache.clock = nearTheEnd ∧ m.Finds 1 [] (.u32 7) leastTtl := by
  have hrun : runAll (ofConfig .flat keepLast nearTheEnd)
      (creation 0 "a" leastTtl (.u32 7) ++ [.call 1 (.access "a" (.get .u32))] ++
        List.replicate 2 (.run (.client 1))) = some _ := rfl
  obtain ⟨-, -, hstored⟩ := fresh_values_are_found origin_keepLast hrun
  obtain ⟨ended, ttl, hended, -, -, hahead, hfinds⟩ := hstored
    [⟨nearTheEnd, .granted "a" 0⟩, ⟨nearTheEnd, .looked "a" 0 (.create .u32 leastTtl) none⟩,
      ⟨nearTheEnd, .provided "a" 0 (.create .u32 leastTtl)⟩,
      ⟨nearTheEnd, .returned "a" 0 (.u32 7) leastTtl⟩]
    nearTheEnd "a" 0 ⟨.u32 7, nearTheEnd.deadlineAfter leastTtl⟩
    [⟨nearTheEnd, .answered "a" 0 (.value (.u32 7))⟩, ⟨nearTheEnd, .granted "a" 1⟩] rfl
  obtain ⟨rfl, rfl⟩ : ended = nearTheEnd ∧ ttl = leastTtl := by
    simpa using hended
  exact ⟨_, hrun, rfl, (hfinds (by decide) rfl (hahead (by decide))).2 1 [] 1 rfl⟩

end Machine

end TtlCache
