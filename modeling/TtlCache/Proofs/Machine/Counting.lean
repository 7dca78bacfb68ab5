import TtlCache.Proofs.Machine.Threads
import TtlCache.Proofs.Machine.Tokens
import TtlCache.Proofs.Machine.Custody

/-!
# Storing and counting

What the steps of operations on keys and of passes do to the number of entries and to the sweeper.
An operation that stores a value starts the sweeper right after.  A pass stores nothing; it stops
the sweeper only after a count of all shards that comes to zero.
-/

namespace TtlCache

variable {layout : Layout}

/-! ## Operations that store -/

def Effect.isPut : Effect -> Bool
  | .put _ _ _ => true
  | _ => false

namespace Access

/-- An operation stores nothing but a value of its own key, and starts the sweeper right after. -/
def Follows : Access -> Prop
  | ⟨key, _, .perform _ todo _⟩ =>
      (∀ effect ∈ todo, effect.isPut = false) ∨
        ∃ value deadline, todo = [.put key value deadline, .wake, .use key]
  | _ => True

variable {a next : Access} {c d : Cache layout}

theorem follows_of_sight {key : Key} {ticket : Nat} {now : Instant} {request : Request}
    {seen : Option Entry} {point : AccessPoint} (h : Sight key ticket now request seen point) :
    Follows ⟨key, request, point⟩ := by
  cases h with
  | answered verdict plan =>
    refine Or.inl ?_
    cases plan <;> simp [hit, expire, Effect.isPut]
  | missed verdict create dead => trivial

theorem follows_step (h : a.step c = some (d, .more next)) (hfollows : a.Follows) :
    next.Follows := by
  generalize hprogress : Progress.more next = progress at h
  cases stride_of_step h with
  | @look own request ticket =>
    cases hprogress
    exact follows_of_sight (sight_look ⟨own, request, .look ticket⟩ c ticket)
  | effect applied =>
    cases hprogress
    refine Or.inl ?_
    rcases hfollows with hplain | ⟨value, deadline, heq⟩
    · exact fun other hother => hplain other (List.mem_cons_of_mem _ hother)
    · cases heq
      simp [Effect.isPut]
  | release => cases hprogress
  | _ => cases hprogress; trivial

theorem follows_afterProvider {now : Instant} {outcome : Outcome}
    (h : a.afterProvider now outcome = some next) : next.Follows := by
  unfold afterProvider at h
  split at h
  · split at h
    · split at h <;> cases h
      exact Or.inr ⟨_, _, rfl⟩
    · cases h
      refine Or.inl ?_
      split <;> simp [Effect.isPut]
    · cases h
      exact Or.inl (List.forall_mem_nil _)
  · cases h

/-- Who makes a key stored is about to start the sweeper. -/
theorem waking_of_step {progress : Progress Access} (h : a.step c = some (d, progress))
    (hfollows : a.Follows) {key : Key} (hbefore : c.contains key = false)
    (hafter : d.contains key = true) :
    ∃ next, progress = .more next ∧ next.key = key ∧ next.isWaking = true := by
  have unchanged : ∀ {e : Cache layout}, d = e → e.store = c.store → False := by
    intro e heq hstore
    subst heq
    rw [Cache.contains, hstore] at hafter
    rw [Cache.contains, hafter] at hbefore
    cases hbefore
  cases stride_of_step h with
  | @look own request ticket =>
    rw [Cache.contains, get?_look] at hafter
    split at hafter
    · next heq =>
      have hnone : c.store.get? own = none := by
        rw [← show key = own from heq]
        simpa [Cache.contains] using hbefore
      rw [hnone] at hafter
      cases request <;> cases hafter
    · rw [Cache.contains, hafter] at hbefore
      cases hbefore
  | @effect own request ticket effect todo answer after applied =>
    cases effect with
    | put other value deadline =>
      rcases hfollows with hplain | ⟨value', deadline', heq⟩
      · exact absurd (hplain _ List.mem_cons_self) (by simp [Effect.isPut])
      · cases heq
        cases applied
        refine ⟨_, rfl, ?_, rfl⟩
        by_contra hne
        rw [Cache.contains, Store.get?_insert, if_neg (Ne.symm hne)] at hafter
        rw [Cache.contains, hafter] at hbefore
        cases hbefore
    | erase other =>
      cases applied
      rw [Cache.contains, Store.get?_erase] at hafter
      split at hafter
      · cases hafter
      · rw [Cache.contains, hafter] at hbefore
        cases hbefore
    | wake =>
      obtain ⟨sweeper, -, rfl⟩ := Option.map_eq_some_iff.mp applied
      exact (unchanged rfl rfl).elim
    | _ =>
      cases applied
      exact (unchanged rfl rfl).elim
  | _ => exact (unchanged rfl rfl).elim

end Access

theorem Sweeper.running_of_start {s t : Sweeper} (h : s.start = some t)
    (hopen : s.shutdown = false) : s.deciding = false ∧ t.running = true := by
  unfold start at h
  split at h
  · cases h
  · next hdeciding =>
    refine ⟨by simpa using hdeciding, ?_⟩
    split at h
    · next hidle =>
      cases h
      simpa [hopen] using hidle
    · cases h
      rfl

theorem Access.running_of_waking {a : Access} {c d : Cache layout} {progress : Progress Access}
    (h : a.step c = some (d, progress)) (hwaking : a.isWaking = true)
    (hopen : c.sweeper.shutdown = false) :
    c.sweeper.deciding = false ∧ d.sweeper.running = true ∧ ∃ next, progress = .more next := by
  cases stride_of_step h with
  | @effect key request ticket effect todo answer after applied =>
    cases effect with
    | wake =>
      obtain ⟨sweeper, hstart, rfl⟩ := Option.map_eq_some_iff.mp applied
      obtain ⟨hdeciding, hrunning⟩ := Sweeper.running_of_start hstart hopen
      exact ⟨hdeciding, hrunning, _, rfl⟩
    | _ => cases hwaking
  | _ => cases hwaking

theorem Sweeper.start_of_running {s t : Sweeper} (h : s.start = some t)
    (hrunning : s.running = true) : t = s := by
  unfold start at h
  split at h
  · cases h
  · rw [hrunning, Bool.true_or, if_pos rfl] at h
    exact (Option.some.inj h).symm

theorem Effect.running_of_apply {effect : Effect} {c d : Cache layout} (h : effect.apply c = some d)
    (hrunning : c.sweeper.running = true) : d.sweeper.running = true := by
  cases effect with
  | wake =>
    obtain ⟨sweeper, hstart, rfl⟩ := Option.map_eq_some_iff.mp h
    rw [Sweeper.start_of_running hstart hrunning]
    exact hrunning
  | _ =>
    cases h
    exact hrunning

theorem Access.running_of_step {a : Access} {c d : Cache layout} {progress : Progress Access}
    (h : a.step c = some (d, progress)) (hrunning : c.sweeper.running = true) :
    d.sweeper.running = true := by
  cases stride_of_step h with
  | @look key request ticket =>
    unfold look
    split <;> exact hrunning
  | effect applied => exact Effect.running_of_apply applied hrunning
  | _ => exact hrunning

/-! ## Passes that count -/

namespace Pass

variable {p next : Pass} {who : Worker} {c d : Cache layout}

theorem contains_of_step {progress : Progress Pass} (h : p.step who c = some (d, progress))
    (hsheds : p.Sheds) {key : Key} (hafter : d.contains key = true) : c.contains key = true := by
  have givenUp : ∀ ticket own marks next, d = (giveUp c ticket own marks next).1 →
      c.contains key = true := by
    rintro ticket own marks next rfl
    rw [Cache.contains, (giveUp_spec c ticket own marks next).1] at hafter
    exact hafter
  cases stride_of_step h with
  | dismiss => exact givenUp _ _ _ _ rfl
  | @effect effect todo mark marks after applied =>
    cases hsheds.next with
    | erase =>
      cases applied
      rw [Cache.contains, Store.get?_erase] at hafter
      split at hafter
      · cases hafter
      · exact hafter
    | untrack => cases applied; exact hafter
    | count => cases applied; exact hafter
  | removed => exact givenUp _ _ _ _ rfl
  | unwind => exact givenUp _ _ _ _ rfl
  | _ => exact hafter

theorem sum_of_step {shard total : Nat} (h : p.step who c = some (d, .more (.sum shard total))) :
    p = .decide ∧ shard = 0 ∨
      ∃ last before rows, p = .sum last before ∧ c.store.shard? last = some rows ∧
        shard = last + 1 ∧ total = before + rows.size ∧ d = c := by
  generalize hprogress : Progress.more (Pass.sum shard total) = progress at h
  cases leg_of_step h with
  | onward before after same =>
    cases hprogress
    cases after.verdict
  | decide begun =>
    cases hprogress
    exact Or.inl ⟨rfl, rfl⟩
  | sum listed =>
    cases hprogress
    exact Or.inr ⟨_, _, _, rfl, listed, rfl, rfl, rfl⟩
  | _ => cases hprogress

theorem leave_of_step {answer : Answer} (h : p.step who c = some (d, .more (.leave answer))) :
    (∃ shard total, p = .sum shard total ∧ c.store.shard? shard = none ∧
      d = { c with sweeper := c.sweeper.endStop (total == 0) } ∧ answer = .flag (total == 0)) ∨
      ∃ panic, answer = .panicked panic := by
  generalize hprogress : Progress.more (Pass.leave answer) = progress at h
  cases leg_of_step h with
  | onward before after same =>
    cases hprogress
    cases after.leaving
  | summed behind =>
    cases hprogress
    exact Or.inl ⟨_, _, rfl, behind, rfl, rfl⟩
  | unwound =>
    cases hprogress
    exact Or.inr ⟨_, rfl⟩
  | _ => cases hprogress

/-- Only a pass that has counted all shards and found nothing stops the sweeper. -/
theorem running_of_step {progress : Progress Pass} (h : p.step who c = some (d, progress))
    (hrunning : c.sweeper.running = true) :
    d.sweeper.running = true ∨ ∃ shard, p = .sum shard 0 ∧ c.store.shard? shard = none := by
  have givenUp : ∀ ticket own marks next,
      (giveUp c ticket own marks next).1.sweeper.running = true := by
    intro ticket own marks next
    unfold giveUp
    split <;> exact hrunning
  cases stride_of_step h with
  | dismiss => exact Or.inl (givenUp _ _ _ _)
  | effect applied => exact Or.inl (Effect.running_of_apply applied hrunning)
  | removed => exact Or.inl (givenUp _ _ _ _)
  | unwind => exact Or.inl (givenUp _ _ _ _)
  | decide begun =>
    obtain ⟨-, rfl⟩ := Sweeper.beginStop_eq_some_iff.mp begun
    exact Or.inl hrunning
  | @summed shard total behind =>
    cases total with
    | zero => exact Or.inr ⟨shard, rfl, behind⟩
    | succ total => exact Or.inl (by simp [Sweeper.endStop, hrunning])
  | _ => exact Or.inl hrunning

def panics : Pass -> Bool
  | .unwind _ _ | .drop _ _ _ _ | .leave (.panicked _) => true
  | _ => false

end Pass

theorem Frame.running_of_step {frame : Frame} {who : Worker} {c d : Cache layout}
    {progress : Progress Frame} (h : frame.step who c = some (d, progress))
    (hrunning : c.sweeper.running = true) :
    d.sweeper.running = true ∨
      ∃ shard, frame = .pass (.sum shard 0) ∧ c.store.shard? shard = none := by
  cases stride_of_step h with
  | access step => exact Or.inl (Access.running_of_step step hrunning)
  | pass step =>
    refine (Pass.running_of_step step hrunning).imp_right ?_
    rintro ⟨shard, rfl, hbehind⟩
    exact ⟨shard, rfl, hbehind⟩
  | _ => exact Or.inl hrunning

end TtlCache
