import Mathlib.Logic.Relation
import TtlCache.Proofs.Machine.Attendance

/-!
# Who waits for whom

A thread that cannot take its next step waits for a mutex or for a token that another thread has.
`Machine.Coherent.progress` finds that other thread and tells what it is about.
-/

namespace TtlCache

variable {layout : Layout}

/-! ## Steps that cannot be taken -/

namespace Frame

def Wants (frame : Frame) (key : Key) : Prop :=
  ∃ ticket, frame.wish? = some (.mutex ticket) ∧ ⟨ticket, key, .waiting⟩ ∈ frame.claims

/-- Why an operation cannot take its next step. -/
inductive Stopped (c : Cache layout) (frame : Frame) : Prop where
  | provider (providing : frame.isProviding = true)
  | mutex (ticket : Nat) (key : Key) (wish : frame.wish? = some (.mutex ticket))
      (claim : ⟨ticket, key, .waiting⟩ ∈ frame.claims)
      (refused : c.locks.acquire? ticket = none)
  | token (token : Token) (needs : frame.needs token = true) (taken : c.isTaken token = true)

end Frame

theorem Effect.wake_of_apply {effect : Effect} {c : Cache layout} (h : effect.apply c = none) :
    effect = .wake ∧ c.isTaken .verdict = true := by
  cases effect with
  | wake =>
    refine ⟨rfl, ?_⟩
    have hstart := Option.map_eq_none_iff.mp h
    unfold Sweeper.start at hstart
    split at hstart
    · next hdeciding => exact hdeciding
    · split at hstart <;> cases hstart
  | _ => cases h

theorem Access.stopped_of_step {a : Access} {c : Cache layout} (h : a.step c = none) :
    (Frame.access a).Stopped c := by
  obtain ⟨key, request, point⟩ := a
  cases point with
  | acquire ticket =>
    exact .mutex ticket key rfl List.mem_cons_self (Option.map_eq_none_iff.mp h)
  | provide ticket stale => exact .provider rfl
  | perform ticket todo answer =>
    cases todo with
    | nil =>
      simp only [step] at h
      split at h <;> cases h
    | cons effect todo =>
      obtain ⟨rfl, htaken⟩ := Effect.wake_of_apply (Option.map_eq_none_iff.mp h)
      exact .token .verdict rfl htaken
  | _ => cases h

theorem Pass.stopped_of_step {p : Pass} {who : Worker} {c : Cache layout}
    (h : p.step who c = none) (hsheds : p.Sheds) : (Frame.pass p).Stopped c := by
  cases p with
  | queue =>
    simp only [step] at h
    split at h
    · cases h
    · next holder htaken => exact .token .turn rfl (by simp [Cache.isTaken, htaken])
  | collect now shard keys =>
    simp only [step] at h
    split at h <;> cases h
  | visit round keys survey => cases keys <;> cases h
  | acquire round ticket key keys survey =>
    exact .mutex ticket key rfl List.mem_cons_self (Option.map_eq_none_iff.mp h)
  | judge round ticket key keys survey => cases round <;> cases h
  | remove todo mark marks =>
    cases todo with
    | nil => cases h
    | cons effect todo =>
      -- the removal of a mark does not wake the sweeper
      obtain ⟨rfl, -⟩ := Effect.wake_of_apply (Option.map_eq_none_iff.mp h)
      cases hsheds.next
  | decide =>
    have hbegin := Option.map_eq_none_iff.mp h
    unfold Sweeper.beginStop at hbegin
    split at hbegin
    · next hdeciding => exact .token .verdict rfl hdeciding
    · cases hbegin
  | sum shard total =>
    simp only [step] at h
    split at h <;> cases h
  | unwind marks panic => cases marks <;> cases h
  | _ => cases h

theorem Frame.stopped_of_step {frame : Frame} {who : Worker} {c : Cache layout}
    (h : frame.step who c = none) (hsheds : frame.Sheds) : frame.Stopped c := by
  cases frame with
  | access a => exact Access.stopped_of_step (Option.map_eq_none_iff.mp h)
  | pass p => exact Pass.stopped_of_step (Option.map_eq_none_iff.mp h) hsheds
  | clock => cases h
  | taking taking =>
    obtain ⟨elapsed, todo, taken⟩ := taking
    cases todo <;> cases h

theorem Frame.step_of_leaving {frame : Frame} {claim : Claim} (hclaim : claim ∈ frame.claims)
    (hstage : claim.stage = .leaving) (who : Worker) (c : Cache layout) :
    frame.isProviding = false ∧ frame.step who c ≠ none := by
  -- marks are held, and a guard that waits does not leave
  have nobody : ∀ marks : List Mark, claim ∉ marks.map Mark.claim := by
    intro marks hmem
    obtain ⟨mark, -, rfl⟩ := List.mem_map.mp hmem
    cases hstage
  have only : ∀ {first : Claim} {marks : List Mark}, claim ∈ first :: marks.map Mark.claim →
      first.stage = .leaving := by
    intro first marks hmem
    rcases List.mem_cons.mp hmem with rfl | hmark
    · exact hstage
    · exact absurd hmark (nobody marks)
  cases frame with
  | access a =>
    obtain ⟨key, request, point⟩ := a
    cases point with
    | register => cases hclaim
    | release ticket answer => exact ⟨rfl, by simp [Frame.step, Access.step]⟩
    | _ => cases List.mem_singleton.mp hclaim; cases hstage
  | pass p =>
    cases p with
    | release round ticket key keys survey => exact ⟨rfl, by simp [Frame.step, Pass.step]⟩
    | free ticket key marks => exact ⟨rfl, by simp [Frame.step, Pass.step]⟩
    | drop ticket key marks panic => exact ⟨rfl, by simp [Frame.step, Pass.step]⟩
    | visit round keys survey => exact absurd hclaim (nobody _)
    | weigh survey => exact absurd hclaim (nobody _)
    | choose count survey => exact absurd hclaim (nobody _)
    | unwind marks panic => exact absurd hclaim (nobody _)
    | acquire round ticket key keys survey => cases only hclaim
    | judge round ticket key keys survey => cases only hclaim
    | untrack ticket key keys survey => cases only hclaim
    | dismiss round ticket key keys survey => cases only hclaim
    | remove todo mark marks => cases only hclaim
    | _ => cases hclaim
  | clock => cases hclaim
  | taking taking => cases hclaim

namespace Machine

variable {m : Machine layout} {worker : Worker} {frame : Frame}

/-- One thread waits for what another one has: a mutex or a token. -/
inductive WaitsFor (m : Machine layout) (worker other : Worker) : Prop where
  | mutex {frame held : Frame} {place : Place} {ticket possessor : Nat} {guard holder : Guard Key}
      (top : m.top? worker = some frame) (wish : frame.wish? = some (.mutex ticket))
      (waiting : m.cache.locks.guards.get? ticket = some guard)
      (possessed : m.cache.locks.guards.get? possessor = some holder)
      (same : holder.mutex = guard.mutex) (stage : holder.stage ≠ .waiting)
      (claimed : m.frameAt place = some held ∧ possessor ∈ held.claims.map Claim.ticket)
      (worker_eq : place.worker = other)
  | token {frame : Frame} {token : Token} {place : Place} (top : m.top? worker = some frame)
      (needs : frame.needs token = true) (had : m.has token place = true)
      (worker_eq : place.worker = other)

/-- A thread that can take a step, or is in a provider. -/
def Lively (m : Machine layout) (worker : Worker) : Prop :=
  (m.run worker).isSome = true ∨ (m.top? worker).any Frame.isProviding = true

instance (m : Machine layout) (worker : Worker) : Decidable (m.Lively worker) :=
  inferInstanceAs (Decidable (_ ∨ _))

/-- A thread with an operation in progress that neither can take a step nor is in its provider. -/
def Blocked (m : Machine layout) (worker : Worker) : Prop :=
  (m.top? worker).isSome = true ∧ ¬m.Lively worker

instance (m : Machine layout) (worker : Worker) : Decidable (m.Blocked worker) :=
  inferInstanceAs (Decidable (_ ∧ _))

theorem not_lively_of_known
    (hclients : ∀ number ∈ m.clients.keys, ¬m.Lively (.client number))
    (hthreads : ∀ generation ∈ m.cache.sweeper.threads.keys, ¬m.Lively (.sweeper generation))
    (worker : Worker) : ¬m.Lively worker := by
  cases worker with
  | client number =>
    by_cases hknown : number ∈ m.clients.keys
    · exact hclients number hknown
    · have hnone := Table.get?_eq_none_iff.mpr hknown
      simp [Lively, run, runClient, top?, Machine.client, hnone, Client.idle]
  | sweeper generation =>
    by_cases hknown : generation ∈ m.cache.sweeper.threads.keys
    · exact hthreads generation hknown
    · have hnone := Table.get?_eq_none_iff.mpr hknown
      rintro (hrun | hproviding)
      · simp [run, runSweeper, Sweeper.step, hnone] at hrun
      · obtain ⟨frame, hframe, hprovides⟩ := (Option.any_eq_true _ _).mp hproviding
        obtain ⟨p, -, rfl⟩ := Option.map_eq_some_iff.mp hframe
        cases hprovides

namespace Coherent

theorem deciding_of_leave (h : m.Coherent) {place : Place} {answer : Answer}
    (hframe : m.frameAt place = some (.pass (.leave answer))) :
    m.cache.sweeper.deciding = false := by
  refine Bool.eq_false_iff.mpr fun hdeciding => ?_
  obtain ⟨other, hother⟩ := (h.sole .verdict).had hdeciding
  obtain ⟨p, hp, hverdict⟩ := has_iff.mp hother
  obtain ⟨shard, total, rfl⟩ := eq_sum_of_has hverdict
  have hplace := (h.sole .turn).unique (has_iff.mpr ⟨_, hp, rfl⟩) (has_iff.mpr ⟨_, hframe, rfl⟩)
  rw [hplace, hframe] at hp
  cases hp

theorem isSome_endPass (h : m.Coherent) {generation : Nat} {pass : Pass} {cache : Cache layout}
    {answer : Answer} (hpass : m.passes.get? generation = some pass)
    (hstep : pass.step (.sweeper generation) m.cache = some (cache, .done answer)) :
    (m.endPass cache generation answer).isSome = true := by
  have hstage := h.staffed.posted hpass
  have hframe := frameAt_of_pass hpass
  have hhandles : 0 < m.cache.handles := by
    have hsize := Staffed.size_erase_of_some hpass
    have hborne := h.staffed.borne
    omega
  obtain ⟨rfl, rfl⟩ := Pass.eq_leave_of_done hstep
  have hdeciding := h.deciding_of_leave hframe
  simp only [endPass, Cache.detach]
  split
  · next hnone => exact absurd hnone (Nat.ne_of_gt hhandles)
  · simp [Sweeper.close, hdeciding, Sweeper.endPass, hstage]
  · simp [Sweeper.endPass, hstage]

theorem isSome_run (h : m.Coherent) (htop : m.top? worker = some frame)
    (hstep : frame.step worker m.cache ≠ none) : (m.run worker).isSome = true := by
  obtain ⟨⟨cache, progress⟩, hstep⟩ := Option.ne_none_iff_exists'.mp hstep
  cases worker with
  | client number =>
    simp only [top?] at htop
    cases hstack : (m.client number).stack with
    | nil =>
      rw [hstack] at htop
      cases htop
    | cons first outer =>
      rw [hstack] at htop
      cases htop
      simp [run, runClient, hstack, hstep]
  | sweeper generation =>
    obtain ⟨pass, hpass, rfl⟩ := Option.map_eq_some_iff.mp htop
    obtain ⟨⟨after, next⟩, htaken, hnext⟩ := Option.map_eq_some_iff.mp hstep
    simp only [run, runSweeper, h.staffed.posted hpass, runPass, hpass, htaken, Option.bind_some]
    cases next with
    | more next => rfl
    | done answer => exact h.isSome_endPass hpass htaken

theorem lively_of_step (h : m.Coherent) {place : Place} (hframe : m.frameAt place = some frame)
    (hproviding : frame.isProviding = false)
    (hstep : frame.step place.worker m.cache ≠ none) : m.Lively place.worker :=
  Or.inl (h.isSome_run (h.nested.top?_eq hframe hproviding) hstep)

theorem lively_of_verdict (h : m.Coherent) {place : Place} (hhas : m.has .verdict place = true) :
    m.Lively place.worker := by
  obtain ⟨p, hframe, hverdict⟩ := has_iff.mp hhas
  obtain ⟨shard, total, rfl⟩ := eq_sum_of_has hverdict
  refine h.lively_of_step hframe rfl fun hnone => ?_
  have hnone := Option.map_eq_none_iff.mp hnone
  simp only [Pass.step] at hnone
  split at hnone <;> cases hnone

/-- What keeps a blocked thread from its next step. -/
inductive Obstacle (m : Machine layout) (worker : Worker) (frame : Frame) : Prop where
  | passing {other : Worker} (waits : m.WaitsFor worker other) (lively : m.Lively other)
  | key {key : Key} {place : Place} {held : Frame} (wants : frame.Wants key)
      (held_at : m.frameAt place = some held) (keeps : held.Keeps key)
      (waits : m.WaitsFor worker place.worker)
  | turn {place : Place} {p : Pass} (queue : frame = .pass .queue)
      (held_at : m.frameAt place = some (.pass p)) (inside : p.has .turn = true)
      (waits : m.WaitsFor worker place.worker)

theorem progress (h : m.Coherent) (htop : m.top? worker = some frame)
    (hblocked : ¬m.Lively worker) : Obstacle m worker frame := by
  obtain ⟨own, rfl, hframe⟩ := frameAt_of_top? htop
  have hstep : frame.step own.worker m.cache = none := by
    by_contra hsome
    exact hblocked (Or.inl (h.isSome_run htop hsome))
  cases Frame.stopped_of_step hstep (h.tidy.sheds hframe) with
  | provider providing => exact absurd (Or.inr (by rw [htop]; exact providing)) hblocked
  | mutex ticket key wish claim refused =>
    obtain ⟨guard, hguard, hkey, hstage⟩ := (h.owned.bears hframe).granted claim
    obtain ⟨possessor, holder, hholder, hmutex, hpossess⟩ :=
      LockTable.possessor_of_acquire?_eq_none hguard hstage refused
    have hmem := Table.mem_keys_iff.mpr (Option.isSome_of_eq_some hholder)
    obtain ⟨place, held, hheld, hticket⟩ := h.attended.claimed hmem
    have hwaits : m.WaitsFor own.worker place.worker :=
      .mutex htop wish hguard hholder hmutex hpossess ⟨hheld, hticket⟩ rfl
    obtain ⟨theirs, htheirs, heq⟩ := List.mem_map.mp hticket
    obtain ⟨known, hknown, hkey', hstage'⟩ := (h.owned.bears hheld).granted htheirs
    rw [heq, hholder] at hknown
    cases hknown
    cases hpossessed : holder.stage with
    | waiting => exact absurd hpossessed hpossess
    | leaving =>
      obtain ⟨hproviding, hsome⟩ := Frame.step_of_leaving htheirs
        (hstage'.symm.trans hpossessed) place.worker m.cache
      exact .passing hwaits (h.lively_of_step hheld hproviding hsome)
    | holding =>
      have hsame : holder.key = guard.key := h.attended.unshared.key_eq h.owned.sound hholder hguard
        (by simp [hpossessed]) (by simp [hstage]) hmutex
      obtain ⟨same, theirKey, stage⟩ := theirs
      cases hkey'.symm.trans (hsame.trans hkey)
      cases hstage'.symm.trans hpossessed
      exact .key ⟨ticket, wish, claim⟩ hheld ⟨same, htheirs⟩ hwaits
  | token token needs taken =>
    obtain ⟨place, hhas⟩ := (h.sole token).had taken
    have hwaits : m.WaitsFor own.worker place.worker := .token htop needs hhas rfl
    cases token with
    | verdict => exact .passing hwaits (h.lively_of_verdict hhas)
    | turn =>
      obtain ⟨p, hp, hinside⟩ := has_iff.mp hhas
      refine .turn ?_ hp hinside hwaits
      cases frame with
      | pass p => cases p <;> first | rfl | cases needs
      | _ => cases needs

end Coherent

end Machine

end TtlCache
