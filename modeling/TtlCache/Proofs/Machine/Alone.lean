import TtlCache.Proofs.Machine.Losses
import TtlCache.Proofs.Machine.Roster
import TtlCache.Proofs.Machine.Vacancies
import TtlCache.Proofs.Machine.Waiting

/-!
# A pass alone

A pass whose thread is the only one to run gets from point to point by itself, provided that nobody
else has a turn, or the mutex of a key that the pass is about to visit.  `Machine.Arrives` says
where it gets, what it makes of the cache apart from the locks, and how many guards it uses up on
the way.
-/

namespace TtlCache

variable {layout : Layout}

namespace LockTable

/-- What the visits of a pass make of a lock table: new guards and, if `fresh`, new records. -/
structure Visited (fresh : Prop) (t u : LockTable Key) (visits : Nat) : Prop where
  tickets : u.nextTicket = t.nextTicket + visits
  mutexes : fresh → u.nextMutex = t.nextMutex + visits

variable {fresh : Prop} {t u v : LockTable Key}

theorem Visited.refl (fresh : Prop) (t : LockTable Key) : Visited fresh t t 0 := ⟨rfl, fun _ => rfl⟩

theorem Visited.of_eq (h : u = t) : Visited fresh t u 0 := by
  rw [h]
  exact .refl _ _

theorem Visited.trans {first second : Nat} (h : Visited fresh t u first)
    (hlater : Visited fresh u v second) : Visited fresh t v (first + second) where
  tickets := by rw [hlater.tickets, h.tickets, Nat.add_assoc]
  mutexes hfresh := by rw [hlater.mutexes hfresh, h.mutexes hfresh, Nat.add_assoc]

theorem visited_join {key : Key} (hfresh : fresh → t.records.get? key = none) :
    Visited fresh t (t.join key .waiting) 1 where
  tickets := t.nextTicket_join key .waiting
  mutexes h := by rw [nextMutex_join, recordFor_of_none (hfresh h)]

theorem visited_acquire {ticket : Nat} (h : t.acquire? ticket = some u) : Visited fresh t u 0 := by
  obtain ⟨guard, -, -, -, rfl⟩ := acquire?_eq_some_iff.mp h
  exact ⟨rfl, fun _ => rfl⟩

theorem visited_unregister (t : LockTable Key) (ticket : Nat) :
    Visited fresh t (t.unregister ticket).2 0 := by
  unfold unregister
  split
  · exact .refl _ _
  · split
    · exact ⟨rfl, fun _ => rfl⟩
    · split <;> exact ⟨rfl, fun _ => rfl⟩

theorem visited_release (t : LockTable Key) (ticket : Nat) :
    Visited fresh t (t.release ticket) 0 := ⟨rfl, fun _ => rfl⟩

end LockTable

namespace Machine

variable {m n : Machine layout} {place : Place}

/-! ## Running by itself -/

/-- The thread of an operation runs, and nobody else does, for as long as the operation goes on. -/
inductive Toils (place : Place) : Machine layout → Machine layout → Prop where
  | refl (m : Machine layout) : Toils place m m
  | step {m next n : Machine layout} (busy : m.isActive place = true)
      (ran : m.run place.worker = some next) (rest : Toils place next n) : Toils place m n

namespace Toils

theorem trans {n o : Machine layout} (h : Toils place m n) (hlater : Toils place n o) :
    Toils place m o := by
  induction h with
  | refl => exact hlater
  | step busy ran rest ih => exact .step busy ran (ih hlater)

theorem runAll (h : Toils place m n) :
    ∃ steps, m.runAll (List.replicate steps (.run place.worker)) = some n ∧
      ∀ fewer < steps, ∃ middle,
        m.runAll (List.replicate fewer (.run place.worker)) = some middle ∧
          middle.isActive place = true := by
  have first : ∀ {m next : Machine layout} (steps : Nat), m.run place.worker = some next →
      m.runAll (List.replicate (steps + 1) (.run place.worker)) =
        next.runAll (List.replicate steps (.run place.worker)) := by
    intro m next steps hrun
    rw [List.replicate_succ, runAll_cons, show m.step (.run place.worker) = some next from hrun]
    rfl
  induction h with
  | refl m => exact ⟨0, rfl, fun fewer hfewer => absurd hfewer (Nat.not_lt_zero fewer)⟩
  | step busy ran rest ih =>
    obtain ⟨steps, hsteps, hbusy⟩ := ih
    refine ⟨steps + 1, (first steps ran).trans hsteps, fun fewer hfewer => ?_⟩
    cases fewer with
    | zero => exact ⟨_, rfl, busy⟩
    | succ fewer =>
      obtain ⟨middle, hmiddle, hactive⟩ := hbusy fewer (Nat.lt_of_succ_lt_succ hfewer)
      exact ⟨middle, (first fewer ran).trans hmiddle, hactive⟩

end Toils

/-- A pass stands at a point, and all else is as it was on the first machine. -/
structure Alone (m : Machine layout) (place : Place) (n : Machine layout) (p : Pass) : Prop where
  coherent : n.Coherent
  frame : n.frameAt place = some (.pass p)
  others : m.SameBut n place
  answers : ∀ number, (n.client number).answer = (m.client number).answer

/-- Nobody but a pass has a turn, or a mutex that the pass could come to wait for. -/
structure Undisturbed (m : Machine layout) (place : Place) : Prop where
  turn : ∀ {other frame}, other ≠ place → m.frameAt other = some frame →
    frame.has .turn = false
  claims : ∀ {other frame}, other ≠ place → m.frameAt other = some frame →
    ∀ claim ∈ frame.claims, claim.stage = .waiting ∨ claim.stage = .holding ∧
      m.cache.contains claim.key = false ∧ ¬m.cache.Tracks claim.key

/-- Nobody but a pass has a turn, or the mutex of one of some keys. -/
structure Unhindered (m : Machine layout) (place : Place) (keys : List Key) : Prop where
  turn : ∀ {other frame}, other ≠ place → m.frameAt other = some frame →
    frame.has .turn = false
  claims : ∀ {other frame}, other ≠ place → m.frameAt other = some frame →
    ∀ claim ∈ frame.claims, claim.stage = .waiting ∨ claim.stage = .holding ∧ claim.key ∉ keys

theorem Undisturbed.unhindered (h : m.Undisturbed place) {keys : List Key}
    (hkeys : ∀ key ∈ keys, m.cache.contains key = true ∨ m.cache.Tracks key) :
    m.Unhindered place keys where
  turn := h.turn
  claims := by
    intro other frame hother hframe claim hclaim
    refine (h.claims hother hframe claim hclaim).imp_right (And.imp_right ?_)
    rintro ⟨habsent, huntracked⟩ hmem
    rcases hkeys claim.key hmem with hstored | htracked
    · rw [hstored] at habsent
      cases habsent
    · exact huntracked htracked

def Lonely (m : Machine layout) (place : Place) : Prop :=
  ∀ other, other ≠ place → m.frameAt other = none

theorem lonely_of_places (h : ∀ other ∈ m.places, other = place) : m.Lonely place := by
  intro other hother
  by_contra hne
  exact hother (h other (mem_places.mpr (Option.ne_none_iff_isSome.mp hne)))

theorem Lonely.undisturbed (h : m.Lonely place) : m.Undisturbed place where
  turn := by
    intro other frame hother hframe
    rw [h other hother] at hframe
    cases hframe
  claims := by
    intro other frame hother hframe
    rw [h other hother] at hframe
    cases hframe

theorem Nested.stack_eq (h : m.Nested) {number depth : Nat} {frame : Frame}
    (hframe : m.frameAt (.client number depth) = some frame) (hactive : frame.isProviding = false) :
    ∃ outer, (m.client number).stack = frame :: outer ∧ depth = outer.length := by
  have htop := h.top?_eq hframe hactive
  cases hstack : (m.client number).stack with
  | nil => simp [top?, Place.worker, hstack] at htop
  | cons inner outer =>
    simp only [top?, Place.worker, hstack, List.head?_cons, Option.some.injEq] at htop
    subst htop
    refine ⟨outer, rfl, ?_⟩
    by_contra hdepth
    rw [frameAt, hstack, getElem?_reverse_cons, if_neg hdepth] at hframe
    have houter : inner ∈ (m.client number).stack.tail := by
      rw [hstack]
      exact List.mem_reverse.mp (List.mem_of_getElem? hframe)
    rw [h number inner houter] at hactive
    cases hactive

theorem Coherent.alone (h : m.Coherent) {p : Pass} (hframe : m.frameAt place = some (.pass p)) :
    m.Alone place m p :=
  ⟨h, hframe, fun _ _ => rfl, fun _ => rfl⟩

namespace Alone

variable {p q : Pass} {d : Cache layout}

theorem busy (h : m.Alone place n p) : n.isActive place = true := isActive_of_frameAt h.frame rfl

theorem advance (h : m.Alone place n p)
    (hstep : p.step place.worker n.cache = some (d, .more q)) :
    ∃ next, n.run place.worker = some next ∧ next.cache = d ∧ m.Alone place next q := by
  have hframe : (Frame.pass p).step place.worker n.cache = some (d, .more (.pass q)) := by
    rw [Frame.step, hstep]
    rfl
  -- what is left to be seen once the next machine is known
  have finish : ∀ next, n.run place.worker = some next → next.cache = d →
      next.frameAt place = some (.pass q) → n.SameBut next place →
      (∀ number, (next.client number).answer = (n.client number).answer) →
        ∃ next, n.run place.worker = some next ∧ next.cache = d ∧ m.Alone place next q := by
    intro next hrun hcache hnow hothers hanswers
    have hstep : n.step (.run place.worker) = some next := hrun
    refine ⟨next, hrun, hcache, h.coherent.step hstep, hnow, ?_, ?_⟩
    · exact fun other hother => (hothers other hother).trans (h.others other hother)
    · exact fun number => (hanswers number).trans (h.answers number)
  cases place with
  | client number depth =>
    obtain ⟨outer, hstack, rfl⟩ := h.coherent.nested.stack_eq h.frame rfl
    let next : Machine layout :=
      { n with cache := d }.setClient number { n.client number with stack := .pass q :: outer }
    have hclient : (next.client number).stack = .pass q :: outer := by
      simp only [next, client_setClient, if_true]
    refine finish next ?_ rfl (frameAt_innermost hclient)
      (sameBut_setClient (m := { n with cache := d }) rfl (Or.inr ⟨_, hstack⟩) (Or.inr ⟨_, rfl⟩)) ?_
    · simp only [Place.worker] at hframe
      simp only [Place.worker, run, runClient, hstack, hframe, Option.map_some]
      rfl
    · intro other
      simp only [next, client_setClient]
      split
      · next hother => rw [hother]
      · rfl
  | sweeper generation =>
    have hpass : n.passes.get? generation = some p := by
      obtain ⟨pass, hpass, heq⟩ := Option.map_eq_some_iff.mp h.frame
      cases heq
      exact hpass
    let next : Machine layout := { n with cache := d, passes := n.passes.insert generation q }
    refine finish next ?_ rfl (frameAt_of_pass ?_) (frameAt_sweeper rfl fun other hother => ?_)
      fun _ => rfl
    · simp only [Place.worker] at hstep
      simp only [Place.worker, run, runSweeper, h.coherent.staffed.posted hpass, runPass, hpass,
        hstep, Option.bind_some]
      rfl
    · exact (Table.get?_insert n.passes generation generation q).trans (if_pos rfl)
    · exact (Table.get?_insert n.passes generation other q).trans (if_neg hother)

theorem records_eq_none (h : m.Alone place n p) (hlonely : m.Lonely place) {key : Key}
    (hkey : ∀ claim ∈ p.claims, claim.key = key → claim.stage = .leaving) :
    n.cache.locks.records.get? key = none := by
  refine h.coherent.records_eq_none fun other frame hframe claim hclaim hclaimkey => ?_
  by_cases hother : other = place
  · subst hother
    cases h.frame.symm.trans hframe
    exact hkey claim hclaim hclaimkey
  · rw [h.others other hother, hlonely other hother] at hframe
    cases hframe

/-- The mutex of a key that nobody else is about is free. -/
theorem acquires {round : Round} {ticket : Nat} {key : Key} {keys visits : List Key}
    {survey : Survey} (h : m.Alone place n (.acquire round ticket key keys survey))
    (hcalm : m.Unhindered place visits) (hkey : key ∈ visits) :
    ∃ locks, n.cache.locks.acquire? ticket = some locks := by
  rw [← Option.isSome_iff_exists, ← Option.ne_none_iff_isSome]
  intro hnone
  have howned := h.coherent.owned
  have hown : (⟨ticket, key, .waiting⟩ : Claim) ∈
      (Frame.pass (.acquire round ticket key keys survey)).claims := List.mem_cons_self
  obtain ⟨guard, hguard, hguardkey, hstage⟩ := (howned.bears h.frame).granted hown
  obtain ⟨possessor, holder, hholder, hmutex, hpossess⟩ :=
    LockTable.possessor_of_acquire?_eq_none hguard hstage hnone
  obtain ⟨other, held, hheld, hticket⟩ := h.coherent.attended.claimed
    (Table.mem_keys_iff.mpr (Option.isSome_of_eq_some hholder))
  obtain ⟨claim, hclaim, rfl⟩ := List.mem_map.mp hticket
  obtain ⟨same, hsame, hsamekey, hsamestage⟩ := (howned.bears hheld).granted hclaim
  cases hholder.symm.trans hsame
  -- whoever has the mutex holds the key
  have hsamekeys : holder.stage = .holding → claim.key = key := by
    intro hholding
    have heq := h.coherent.attended.unshared.key_eq howned.sound hholder hguard
      (by simp [hholding]) (by simp [hstage]) hmutex
    exact hsamekey.symm.trans (heq.trans hguardkey)
  by_cases hother : other = place
  · subst hother
    cases h.frame.symm.trans hheld
    rcases List.mem_cons.mp hclaim with rfl | hmark
    · exact hpossess hsamestage
    · obtain ⟨mark, hmem, rfl⟩ := List.mem_map.mp hmark
      have heq := hsamekeys hsamestage
      refine (h.coherent.orderly _ _ h.frame).unkept ⟨mark.ticket, ?_⟩
      exact List.mem_cons_of_mem _ (heq ▸ List.mem_map_of_mem hmem)
  · rw [h.others other hother] at hheld
    rcases hcalm.claims hother hheld claim hclaim with hwaiting | ⟨hholding, hapart⟩
    · exact hpossess (hsamestage.trans hwaiting)
    · rw [hsamekeys (hsamestage.trans hholding)] at hapart
      exact hapart hkey

end Alone

/-! ## From point to point -/

/--
The thread of a pass takes it by itself to another point, with so many new guards on the way; there
the cache is the given one but for its locks.
-/
def Arrives (m : Machine layout) (place : Place) (n : Machine layout) (q : Pass) (c : Cache layout)
    (visits : Nat) : Prop :=
  ∃ next, n.Toils place next ∧ m.Alone place next q ∧
    next.cache = c.relock next.cache.locks ∧
      LockTable.Visited (m.Lonely place) n.cache.locks next.cache.locks visits

namespace Arrives

variable {p q r : Pass} {c d : Cache layout} {i j visits : Nat}

theorem refl (h : m.Alone place n p) : m.Arrives place n p n.cache 0 :=
  ⟨n, .refl n, h, rfl, .refl _ _⟩

theorem of_relock {locks : LockTable Key} (h : m.Arrives place n q (c.relock locks) visits) :
    m.Arrives place n q c visits := h

theorem after {middle : Machine layout} (hmiddle : n.Toils place middle)
    (hvisited : LockTable.Visited (m.Lonely place) n.cache.locks middle.cache.locks i)
    (hlater : m.Arrives place middle r d j) : m.Arrives place n r d (i + j) := by
  obtain ⟨last, hlast, hthere, hend, hmore⟩ := hlater
  exact ⟨last, hmiddle.trans hlast, hthere, hend, hvisited.trans hmore⟩

theorem bind (h : m.Arrives place n q c i)
    (hlater : ∀ next, m.Alone place next q → next.cache = c.relock next.cache.locks →
      m.Arrives place next r d j) : m.Arrives place n r d (i + j) := by
  obtain ⟨middle, hmiddle, halone, hcache, hvisited⟩ := h
  exact .after hmiddle hvisited (hlater middle halone hcache)

theorem of_step (h : m.Alone place n p) (hstep : p.step place.worker n.cache = some (d, .more q))
    (hvisited : LockTable.Visited (m.Lonely place) n.cache.locks d.locks visits) :
    m.Arrives place n q d visits := by
  obtain ⟨next, hrun, rfl, halone⟩ := h.advance hstep
  exact ⟨next, .step h.busy hrun (.refl _), halone, rfl, hvisited⟩

theorem cons (h : m.Alone place n p) (hstep : p.step place.worker n.cache = some (d, .more q))
    (hlocks : d.locks = n.cache.locks)
    (hlater : ∀ next, m.Alone place next q → next.cache = d →
      m.Arrives place next r c visits) : m.Arrives place n r c visits := by
  obtain ⟨next, hrun, rfl, halone⟩ := h.advance hstep
  obtain ⟨last, hlast, hthere, hend, hmore⟩ := hlater next halone rfl
  refine ⟨last, .step h.busy hrun hlast, hthere, hend, ?_⟩
  rwa [← hlocks]

end Arrives

end Machine

end TtlCache
