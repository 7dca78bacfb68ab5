import TtlCache.Proofs.LockTable.Mutexes
import TtlCache.Proofs.Machine.Stacks
import TtlCache.Proofs.Machine.Tokens
import TtlCache.Proofs.Machine.Visits

/-!
# Whose guards are whose

No guard is left behind: every guard in the lock table is claimed by some operation.  With what is
known of stacks, tokens, threads and visits this makes up `Machine.Coherent`, which holds of every
run and tells everything that matters when somebody has to wait.
-/

namespace TtlCache

variable {layout : Layout}

/-! ## Guards and claims -/

theorem Handling.unshared {t u : LockTable Key} {claims after : List Claim}
    (h : Handling t claims u after) (hsound : t.Sound) (hunshared : t.Unshared) : u.Unshared := by
  cases h with
  | keep perm => exact hunshared
  | join key => exact hunshared.join hsound key .waiting
  | acquire was acquired =>
    obtain ⟨guard, -, -, -, rfl⟩ := LockTable.acquire?_eq_some_iff.mp acquired
    exact hunshared
  | unregister was => exact hunshared.unregister _
  | release was => exact hunshared

theorem Handling.claimed {t u : LockTable Key} {claims after : List Claim}
    (h : Handling t claims u after) {ticket : Nat} (hmem : ticket ∈ u.guards.keys) :
    ticket ∈ after.map Claim.ticket ∨
      ticket ∈ t.guards.keys ∧ ticket ∉ claims.map Claim.ticket := by
  by_cases hmine : ticket ∈ claims.map Claim.ticket
  · refine Or.inl ?_
    cases h with
    | keep perm => exact (perm.map Claim.ticket).mem_iff.mpr hmine
    | join key => exact List.mem_cons_of_mem _ hmine
    | acquire was acquired =>
      subst was
      exact hmine
    | unregister was =>
      subst was
      exact hmine
    | release was =>
      subst was
      rcases List.mem_cons.mp hmine with rfl | hrest
      · exact absurd rfl (Table.mem_keys_erase.mp hmem).1
      · exact hrest
  · cases h with
    | keep perm => exact Or.inr ⟨hmem, hmine⟩
    | join key =>
      rw [LockTable.guards_join, Table.mem_keys_insert] at hmem
      rcases hmem with rfl | hold
      · exact Or.inl List.mem_cons_self
      · exact Or.inr ⟨hold, hmine⟩
    | acquire was acquired =>
      obtain ⟨guard, -, -, -, rfl⟩ := LockTable.acquire?_eq_some_iff.mp acquired
      exact Or.inr ⟨LockTable.mem_keys_advance.mp hmem, hmine⟩
    | unregister was =>
      rw [LockTable.guards_unregister] at hmem
      exact Or.inr ⟨LockTable.mem_keys_advance.mp hmem, hmine⟩
    | release was => exact Or.inr ⟨(Table.mem_keys_erase.mp hmem).2, hmine⟩

namespace Machine

variable {m n : Machine layout} {event : Event}

/-- Records have mutexes of their own, and every guard is claimed by an operation. -/
structure Attended (m : Machine layout) : Prop where
  unshared : m.cache.locks.Unshared
  claimed : ∀ {ticket}, ticket ∈ m.cache.locks.guards.keys →
    ∃ place frame, m.frameAt place = some frame ∧ ticket ∈ frame.claims.map Claim.ticket

theorem attended_ofConfig (config : Config) (clock : Instant) :
    (ofConfig layout config clock).Attended where
  unshared := LockTable.unshared_empty
  claimed := by
    intro ticket hmem
    cases hmem

namespace Attended

theorem update (h : m.Attended) (howned : m.Owned) {place : Place} {frame : Frame}
    {after : List Claim} (hothers : m.SameBut n place) (hwas : m.frameAt place = some frame)
    (hhandling : Handling m.cache.locks frame.claims n.cache.locks after)
    (hnow : after ≠ [] → ∃ next, n.frameAt place = some next ∧ next.claims = after) :
    n.Attended where
  unshared := hhandling.unshared howned.sound h.unshared
  claimed := by
    intro ticket hmem
    rcases hhandling.claimed hmem with hmine | ⟨hold, hnot⟩
    · obtain ⟨next, hnext, heq⟩ := hnow (by rintro rfl; cases hmine)
      exact ⟨place, next, hnext, heq ▸ hmine⟩
    · obtain ⟨other, held, hheld, hticket⟩ := h.claimed hold
      have hother : other ≠ place := by
        rintro rfl
        cases hwas.symm.trans hheld
        exact hnot hticket
      exact ⟨other, held, (hothers other hother).trans hheld, hticket⟩

theorem step (h : m.Attended) (howned : m.Owned) (hstep : m.step event = some n) :
    n.Attended := by
  cases step_cases hstep with
  | aside frames alike acting =>
    refine ⟨alike.locks_eq ▸ h.unshared, fun {ticket} hmem => ?_⟩
    rw [alike.locks_eq] at hmem
    obtain ⟨place, frame, hframe, hticket⟩ := h.claimed hmem
    exact ⟨place, frame, (frames place).trans hframe, hticket⟩
  | opened place frame fresh free now others alike acting =>
    refine ⟨alike.locks_eq ▸ h.unshared, fun {ticket} hmem => ?_⟩
    rw [alike.locks_eq] at hmem
    obtain ⟨other, held, hheld, hticket⟩ := h.claimed hmem
    have hother : other ≠ place := by
      rintro rfl
      rw [free] at hheld
      cases hheld
    exact ⟨other, held, (others other hother).trans hheld, hticket⟩
  | ended place access next outcome was after now others same acting event =>
    have hclaims : (Frame.access next).claims = (Frame.access access).claims :=
      Access.claims_afterProvider after
    have hkept : Handling m.cache.locks (Frame.access access).claims n.cache.locks
        (Frame.access access).claims := by
      rw [same]
      exact .keep (.refl _)
    exact h.update howned others was hkept fun _ => ⟨_, now, hclaims⟩
  | stepped place frame cache progress was step now others alike acting event =>
    refine h.update howned others was (alike.locks_eq ▸ Frame.handling_step step) fun hsome => ?_
    cases progress with
    | more next => exact ⟨next, now, rfl⟩
    | done answer => exact absurd rfl hsome

end Attended

/-! ## Runs -/

/-- What holds of a machine between any two events and matters to those who wait. -/
structure Coherent (m : Machine layout) : Prop where
  owned : m.Owned
  tidy : m.Tidy fun _ => True
  staffed : m.Staffed
  nested : m.Nested
  sole : ∀ token, m.Sole token
  placed : m.cache.store.Placed
  orderly : m.Orderly
  attended : m.Attended

theorem coherent_ofConfig {config : Config}
    (hevictor : ∀ evictor, config.evictor = some evictor → evictor.Origin) (clock : Instant) :
    (ofConfig layout config clock).Coherent where
  owned := owned_ofConfig config clock
  tidy := .ofConfig (fun evictor hsome => (hevictor evictor hsome).sound) fun _ _ _ _ => trivial
  staffed := staffed_ofConfig config clock
  nested := nested_ofConfig config clock
  sole := sole_ofConfig config clock
  placed := Store.placed_empty
  orderly := by
    intro place p hframe
    rw [frameAt_ofConfig] at hframe
    cases hframe
  attended := attended_ofConfig config clock

theorem Coherent.step (h : m.Coherent) (hstep : m.step event = some n) : n.Coherent where
  owned := h.owned.step hstep
  tidy := (h.tidy.step h.owned hstep).mono fun _ _ => trivial
  staffed := h.staffed.step hstep
  nested := h.nested.step hstep
  sole := fun token => (h.sole token).step hstep
  placed := placed_step h.placed hstep
  orderly := h.orderly.step h.placed h.tidy.ranked hstep
  attended := h.attended.step h.owned hstep

theorem Coherent.later (h : m.Coherent) {events : List Event} (hrun : m.runAll events = some n) :
    n.Coherent :=
  run_induction (P := Coherent) (fun h hstep => h.step hstep) h hrun

theorem coherent_of_run {config : Config} {clock : Instant} {events : List Event}
    (hevictor : ∀ evictor, config.evictor = some evictor → evictor.Origin)
    (hrun : (ofConfig layout config clock).runAll events = some m) : m.Coherent :=
  (coherent_ofConfig hevictor clock).later hrun

theorem coherent_of_origin {config : Config} {evictor : Evictor} {clock : Instant}
    {events : List Event} (horigin : evictor.Origin) (hconfig : config.evictor = some evictor)
    (hrun : (ofConfig layout config clock).runAll events = some m) : m.Coherent :=
  coherent_of_run (fun _ hother => Option.some.inj (hother.symm.trans hconfig) ▸ horigin) hrun

end Machine

end TtlCache
