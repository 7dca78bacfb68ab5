import TtlCache.Proofs.Machine.Agreement
import TtlCache.Proofs.Machine.Answers
import TtlCache.Proofs.Machine.Findings
import TtlCache.Proofs.Machine.Roster
import TtlCache.Proofs.Ranking.Uses

/-!
# Uses of a cache

A key is used when a live entry of it is found and when a value is stored under it.  The evictor is
told a few steps later, so in between the ranking lags behind by one use; as long as only one
operation is at work nobody can tell.  Whenever only providers run, the ranking lists the stored
keys in the order that the uses so far ask for, and what is not a use moves no key.
-/

namespace TtlCache

variable {layout : Layout}

/-! ## What is seen of uses -/

/-- The use of its key that the next step of an operation is. -/
def Access.use? (a : Access) (c : Cache layout) : Option Use :=
  match a.point with
  | .look _ =>
      match a.request.verdict a.key c.clock (c.store.get? a.key) with
      | some (.found (some _)) | some (.value _) => some (.found a.key)
      | _ => none
  | .perform _ (.put key _ _ :: _) _ => some (.stored key (!c.contains key))
  | _ => none

def Frame.use? (c : Cache layout) : Frame -> Option Use
  | .access a => a.use? c
  | _ => none

namespace Machine

def use? (m : Machine layout) : Event -> Option Use
  | .run worker => ((m.acting (.run worker)).bind m.frameAt).bind (Frame.use? m.cache)
  | _ => none

def uses (m : Machine layout) : List Event -> List Use := m.observe use?

end Machine

/-! ## What the evictor has not been told yet -/

def Effect.used? : Effect -> Option Key
  | .use key => some key
  | _ => none

namespace Access

/-- The keys of which a use has been seen that the evictor has still to be told of. -/
def due (a : Access) : List Key :=
  match a.point with
  | .perform _ (.put _ _ _ :: _) _ => []
  | .perform _ todo _ => todo.filterMap Effect.used?
  | _ => []

/-- A key that is going to be untracked has not been used, and one that is stored is used next. -/
def Prompt (a : Access) : Prop :=
  ∀ ticket todo answer, a.point = .perform ticket todo answer →
    (∀ key, .untrack key ∈ todo → todo.filterMap Effect.used? = []) ∧
      ∀ key value deadline rest, todo = .put key value deadline :: rest →
        rest.filterMap Effect.used? = [key]

end Access

namespace Frame

def due : Frame -> List Key
  | .access a => a.due
  | _ => []

def Prompt : Frame -> Prop
  | .access a => a.Prompt
  | _ => True

def storing? : Frame -> Option Key
  | .access ⟨_, _, .perform _ (.put key _ _ :: _) _⟩ => some key
  | _ => none

end Frame

/-- What a step does to the evictor, and what it makes of the uses that are due. -/
inductive Ranks (c : Cache layout) (due : List Key) (use : Option Use) (d : Cache layout)
    (after : List Key) : Prop where
  | kept (evictor_eq : d.evictor = c.evictor) (same : after = due) (unseen : use = none)
  | removed (key : Key) (evictor_eq : d.evictor = c.evictor.map fun evictor => evictor.remove key)
      (before : due = []) (same : after = []) (unseen : use = none)
  | seen (now : Use) (evictor_eq : d.evictor = c.evictor) (before : due = [])
      (owed : after = [now.key]) (saw : use = some now)
      (fresh : now.isFresh = true ↔ ¬c.Tracks now.key)
  | told (key : Key) (evictor_eq : d.evictor = c.evictor.map fun evictor => evictor.used key)
      (before : due = key :: after) (unseen : use = none)

variable {c d : Cache layout}

namespace Access

theorem ranks_finding {key : Key} {ticket : Nat} {request : Request} {point : AccessPoint}
    (h : Finding key ticket c request d point)
    (htracked : c.contains key = true → c.Tracks key) :
    Ranks c [] (use? ⟨key, request, .look ticket⟩ c) d (due ⟨key, request, point⟩) := by
  have tracks : ∀ {entry}, c.store.get? key = some entry → c.Tracks key := by
    intro entry hentry
    refine htracked ?_
    rw [Cache.contains, hentry]
    rfl
  cases h with
  | vacant absent =>
    cases request <;>
      exact .kept rfl rfl (by simp [use?, Request.verdict, absent, liveAt])
  | expired present dead =>
    exact .kept rfl rfl (by simp [use?, Request.verdict, present, liveAt_of_expired dead])
  | stale present dead =>
    exact .kept rfl rfl (by simp [use?, Request.verdict, present, liveAt_of_expired dead])
  | found present live fits =>
    refine .seen (.found key) rfl rfl rfl ?_ ?_
    · simp [use?, Request.verdict, present, liveAt_of_live live, Entry.read, fits]
    · simp [Use.isFresh, Use.key, tracks present]
  | reused present live fits =>
    refine .seen (.found key) rfl rfl rfl ?_ ?_
    · simp [use?, Request.verdict, present, liveAt_of_live live, Entry.read, fits]
    · simp [Use.isFresh, Use.key, tracks present]
  | mistaken present live asks differs =>
    refine .kept rfl rfl ?_
    cases request <;> simp [Request.kind?] at asks <;>
      simp [use?, Request.verdict, present, liveAt_of_live live, Entry.read, asks, differs]
  | extended present => exact .kept rfl rfl (by simp [use?, Request.verdict])
  | forgotten present => exact .kept rfl rfl (by simp [use?, Request.verdict])

theorem prompt_finding {key : Key} {ticket : Nat} {request : Request} {point : AccessPoint}
    (h : Finding key ticket c request d point) : Prompt ⟨key, request, point⟩ := by
  intro own todo answer hpoint
  cases h with
  | vacant absent => cases request <;> cases hpoint <;> simp
  | stale present dead => cases hpoint
  | _ =>
    cases hpoint
    simp [hit, expire, Effect.used?]

theorem due_perform {key : Key} {request : Request} {ticket : Nat} {todo : List Effect}
    {answer : Answer} (h : ∀ effect ∈ todo, effect.overwrites = false) :
    due ⟨key, request, .perform ticket todo answer⟩ = todo.filterMap Effect.used? := by
  cases todo with
  | nil => rfl
  | cons effect todo =>
    have hkeeps := h effect List.mem_cons_self
    cases effect with
    | put other value deadline => cases hkeeps
    | _ => rfl

theorem ranks_step {a : Access} {progress : Progress Access} (h : a.step c = some (d, progress))
    (hprompt : a.Prompt)
    (hkept : ∀ hold ∈ a.holds, hold.Kept c fun _ => False) (hevictor : c.evictor.isSome = true)
    (hstoring : ∀ key, (Frame.access a).storing? = some key →
      (c.contains key = true ↔ c.Tracks key)) :
    Ranks c a.due (a.use? c) d ((progress.point?.map due).getD []) := by
  cases stride_of_step h with
  | @look key request ticket =>
    have hagree := (hkept _ (List.mem_singleton_self _)).settled hevictor
    exact ranks_finding (finding_look key request (.look ticket) ticket c) hagree.1
  | @effect key request ticket effect todo answer after applied =>
    obtain ⟨huntrack, hput⟩ := hprompt ticket _ answer rfl
    -- after the first effect nothing is stored any more
    have hdue : due ⟨key, request, .perform ticket todo answer⟩ = todo.filterMap Effect.used? :=
      due_perform (hkept _ (List.mem_singleton_self _)).first
    simp only [Progress.point?, Option.map_some, Option.getD_some, hdue]
    cases effect with
    | erase other => cases applied; exact .kept rfl rfl rfl
    | count counter => cases applied; exact .kept rfl rfl rfl
    | wake =>
      obtain ⟨sweeper, -, rfl⟩ := Option.map_eq_some_iff.mp applied
      exact .kept rfl rfl rfl
    | use other => cases applied; exact .told other rfl rfl rfl
    | untrack other =>
      cases applied
      have hnone := huntrack other List.mem_cons_self
      exact .removed other rfl hnone hnone rfl
    | put other value deadline =>
      cases applied
      refine .seen (.stored other (!c.contains other)) rfl rfl (hput _ _ _ _ rfl) rfl ?_
      simp [Use.isFresh, Use.key, ← hstoring other rfl]
  | _ => exact .kept rfl rfl rfl

theorem prompt_step {a next : Access} (h : a.step c = some (d, .more next)) (hprompt : a.Prompt)
    (hkept : ∀ hold ∈ a.holds, ∀ effect ∈ hold.pending.tail, effect.overwrites = false) :
    next.Prompt := by
  generalize hprogress : Progress.more next = progress at h
  cases stride_of_step h with
  | @look key request ticket =>
    cases hprogress
    exact prompt_finding (finding_look key request (.look ticket) ticket c)
  | @effect key request ticket effect todo answer after applied =>
    cases hprogress
    obtain ⟨huntrack, -⟩ := hprompt ticket _ answer rfl
    intro own rest told hpoint
    cases hpoint
    constructor
    · intro other hother
      have hnone := List.filterMap_eq_nil_iff.mp (huntrack other (List.mem_cons_of_mem _ hother))
      exact List.filterMap_eq_nil_iff.mpr
        fun later hmem => hnone later (List.mem_cons_of_mem _ hmem)
    · rintro other value deadline rest rfl
      have hsecond := hkept _ (List.mem_singleton_self _) _ List.mem_cons_self
      cases hsecond
  | release => cases hprogress
  | _ =>
    cases hprogress
    intro own todo told hpoint
    cases hpoint

theorem storing?_afterProvider {a next : Access} {now : Instant} {outcome : Outcome} {key : Key}
    (h : a.afterProvider now outcome = some next)
    (hkey : (Frame.access next).storing? = some key) :
    ∃ hold ∈ a.holds, hold.key = key ∧ hold.pending = [] := by
  obtain ⟨own, request, point⟩ := a
  unfold afterProvider at h
  split at h
  · next ticket stale kind ttl hpoint hrequest =>
    cases hpoint
    split at h
    · split at h <;> cases h
      cases hkey
      exact ⟨_, List.mem_singleton_self _, rfl, rfl⟩
    · cases h
      cases stale <;> cases hkey
    · cases h
      cases hkey
  · cases h

theorem prompt_afterProvider {a next : Access} {now : Instant} {outcome : Outcome}
    (h : a.afterProvider now outcome = some next) : next.Prompt ∧ next.due = [] ∧ a.due = [] := by
  obtain ⟨own, request, point⟩ := a
  unfold afterProvider at h
  split at h
  · next ticket stale kind ttl hpoint hrequest =>
    cases hpoint
    split at h
    · split at h <;> cases h
      refine ⟨?_, rfl, rfl⟩
      intro same todo answer hperform
      cases hperform
      refine ⟨by simp, ?_⟩
      intro key stored deadline rest hput
      cases hput
      rfl
    · cases h
      refine ⟨?_, by cases stale <;> rfl, rfl⟩
      intro same todo answer hperform
      cases hperform
      cases stale <;> simp [Effect.used?]
    · cases h
      refine ⟨?_, rfl, rfl⟩
      intro same todo answer hperform
      cases hperform
      simp
  · cases h

end Access

theorem Pass.ranks_step {p : Pass} {who : Worker} {progress : Progress Pass}
    (h : p.step who c = some (d, progress)) (hsheds : p.Sheds) : Ranks c [] none d [] := by
  cases stride_of_step h with
  | @untrack ticket key keys survey => exact .removed key rfl rfl rfl rfl
  | @effect effect todo mark marks after applied =>
    cases hsheds.next with
    | erase => cases applied; exact .kept rfl rfl rfl
    | untrack => cases applied; exact .removed mark.key rfl rfl rfl rfl
    | count => cases applied; exact .kept rfl rfl rfl
  | dismiss => exact .kept (giveUp_spec c _ _ _ _).2.1 rfl rfl
  | removed => exact .kept (giveUp_spec c _ _ _ _).2.1 rfl rfl
  | unwind => exact .kept (giveUp_spec c _ _ _ _).2.1 rfl rfl
  | _ => exact .kept rfl rfl rfl

namespace Frame

theorem ranks_step {frame : Frame} {who : Worker} {progress : Progress Frame}
    (h : frame.step who c = some (d, progress)) (hprompt : frame.Prompt) (hsheds : frame.Sheds)
    (hkept : ∀ hold ∈ frame.holds, hold.Kept c fun _ => False)
    (hevictor : c.evictor.isSome = true)
    (hstoring : ∀ key, frame.storing? = some key → (c.contains key = true ↔ c.Tracks key)) :
    Ranks c frame.due (frame.use? c) d ((progress.point?.map due).getD []) := by
  cases stride_of_step h with
  | access step =>
    rw [Progress.point?_map, Option.map_map]
    exact Access.ranks_step step hprompt hkept hevictor hstoring
  | @pass p d progress step =>
    have hnone : ((progress.map Frame.pass).point?.map due).getD [] = [] := by
      cases progress <;> rfl
    rw [hnone]
    exact Pass.ranks_step step hsheds
  | _ => exact .kept rfl rfl rfl

theorem prompt_step {frame next : Frame} {who : Worker}
    (h : frame.step who c = some (d, .more next)) (hprompt : frame.Prompt)
    (hkept : ∀ hold ∈ frame.holds, ∀ effect ∈ hold.pending.tail, effect.overwrites = false) :
    next.Prompt := by
  cases next with
  | access next =>
    obtain ⟨a, rfl, hstep⟩ := access_of_step h
    exact Access.prompt_step hstep hprompt hkept
  | _ => trivial

theorem storing?_step {frame next : Frame} {who : Worker}
    (h : frame.step who c = some (d, .more next))
    (hkept : ∀ hold ∈ frame.holds, ∀ effect ∈ hold.pending.tail, effect.overwrites = false) :
    next.storing? = none := by
  cases next with
  | access next =>
    obtain ⟨a, rfl, hstep⟩ := access_of_step h
    generalize hprogress : Progress.more next = progress at hstep
    cases Access.stride_of_step hstep with
    | @look key request ticket =>
      cases hprogress
      have hfinding := Access.finding_look key request (.look ticket) ticket c
      generalize (Access.look ⟨key, request, .look ticket⟩ c ticket).1 = after at hfinding
      generalize (Access.look ⟨key, request, .look ticket⟩ c ticket).2 = point at hfinding ⊢
      cases hfinding with
      | vacant absent => cases request <;> rfl
      | _ => rfl
    | @effect key request ticket effect todo answer after applied =>
      cases hprogress
      cases todo with
      | nil => rfl
      | cons second todo =>
        have hsecond := hkept _ (List.mem_singleton_self _) second List.mem_cons_self
        cases second with
        | put other value deadline => cases hsecond
        | _ => rfl
    | release => cases hprogress
    | _ => cases hprogress; rfl
  | _ => rfl

theorem Fresh.due_eq {frame : Frame} (h : frame.Fresh) : frame.due = [] := by
  cases h <;> rfl

theorem Fresh.storing?_eq {frame : Frame} (h : frame.Fresh) : frame.storing? = none := by
  cases h <;> rfl

theorem Fresh.prompt {frame : Frame} (h : frame.Fresh) : frame.Prompt := by
  cases h with
  | access key request =>
    intro ticket todo answer hpoint
    cases hpoint
  | _ => trivial

theorem due_of_isProviding {frame : Frame} (h : frame.isProviding = true) : frame.due = [] := by
  cases frame with
  | access a =>
    obtain ⟨key, request, point⟩ := a
    cases point with
    | provide ticket stale => rfl
    | _ => cases h
  | _ => rfl

theorem pending_of_isProviding {frame : Frame} (h : frame.isProviding = true) :
    ∀ hold ∈ frame.holds, hold.pending = [] := by
  cases frame with
  | access a =>
    obtain ⟨key, request, point⟩ := a
    cases point with
    | provide ticket stale => exact List.forall_mem_singleton.mpr rfl
    | _ => cases h
  | _ => cases h

theorem isProviding_of_step {frame : Frame} {who : Worker} {progress : Progress Frame}
    (h : frame.step who c = some (d, progress)) : frame.isProviding = false := by
  cases frame with
  | access a =>
    obtain ⟨key, request, point⟩ := a
    cases point with
    | provide ticket stale => cases h
    | _ => rfl
  | _ => rfl

theorem isProviding_of_storing? {frame : Frame} {key : Key} (h : frame.storing? = some key) :
    frame.isProviding = false := by
  cases hproviding : frame.isProviding with
  | false => rfl
  | true =>
    cases frame with
    | access a =>
      obtain ⟨own, request, point⟩ := a
      cases point with
      | provide ticket stale => cases h
      | _ => cases hproviding
    | _ => cases hproviding

end Frame

/-! ## What is told follows what is seen -/

namespace Ranks

variable {due after : List Key} {use : Option Use} {uses : List Use} {evictor : Evictor}

theorem congr {e : Cache layout} (h : Ranks c due use d after) (hevictor : e.evictor = d.evictor) :
    Ranks c due use e after := by
  cases h with
  | kept evictor_eq same unseen => exact .kept (hevictor.trans evictor_eq) same unseen
  | removed key evictor_eq before same unseen =>
    exact .removed key (hevictor.trans evictor_eq) before same unseen
  | seen now evictor_eq before owed saw fresh =>
    exact .seen now (hevictor.trans evictor_eq) before owed saw fresh
  | told key evictor_eq before unseen => exact .told key (hevictor.trans evictor_eq) before unseen

/-- The ranking follows the uses as soon as it has been told of what is due. -/
theorem follows (h : Ranks c due use d after) (hevictor : c.evictor = some evictor)
    (hsound : evictor.ranking.Sound)
    (hfollows : (due.foldl Ranking.used evictor.ranking).Follows uses) :
    ∃ now, d.evictor = some now ∧ now.ranking.policy = evictor.ranking.policy ∧
      (after.foldl Ranking.used now.ranking).Follows (uses ++ use.toList) := by
  cases h with
  | kept evictor_eq same unseen =>
    subst same unseen
    rw [hevictor] at evictor_eq
    exact ⟨evictor, evictor_eq, rfl, by rwa [Option.toList_none, List.append_nil]⟩
  | removed key evictor_eq before same unseen =>
    subst before same unseen
    rw [hevictor] at evictor_eq
    refine ⟨evictor.remove key, evictor_eq, Ranking.policy_remove _ _, ?_⟩
    rw [Option.toList_none, List.append_nil]
    exact Ranking.Follows.remove hfollows hsound key
  | seen now evictor_eq before owed saw fresh =>
    subst before owed saw
    rw [hevictor] at evictor_eq
    have hworst : c.Tracks now.key ↔ now.key ∈ evictor.ranking.worst := by
      simp [Cache.Tracks, hevictor, Evictor.worst]
    rw [hworst] at fresh
    exact ⟨evictor, evictor_eq, rfl, Ranking.Follows.used hfollows hsound fresh⟩
  | told key evictor_eq before unseen =>
    subst before unseen
    rw [hevictor] at evictor_eq
    refine ⟨evictor.used key, evictor_eq, Ranking.policy_used _ _, ?_⟩
    rwa [Option.toList_none, List.append_nil]

theorem sublist (h : Ranks c [] none d after) (hevictor : c.evictor = some evictor)
    (hsound : evictor.ranking.Sound) :
    after = [] ∧ ∃ now, d.evictor = some now ∧ now.worst.Sublist evictor.worst := by
  cases h with
  | kept evictor_eq same unseen =>
    rw [hevictor] at evictor_eq
    exact ⟨same, evictor, evictor_eq, .refl _⟩
  | removed key evictor_eq before same unseen =>
    rw [hevictor] at evictor_eq
    refine ⟨same, evictor.remove key, evictor_eq, ?_⟩
    have hworst : (evictor.remove key).worst = _ := hsound.worst_remove key
    rw [hworst]
    exact List.filter_sublist
  | seen now evictor_eq before owed saw fresh => cases saw
  | told key evictor_eq before unseen => cases before

end Ranks

namespace Machine

variable {m n : Machine layout} {event : Event} {uses : List Use} {policy : Policy}

def dueAt (m : Machine layout) (place : Place) : List Key :=
  ((m.frameAt place).map Frame.due).getD []

/-- The ranking follows the uses as soon as it has been told of what is due. -/
structure Following (policy : Policy) (uses : List Use) (m : Machine layout) : Prop where
  owned : m.Owned
  tidy : m.Tidy fun _ => False
  ranks : m.cache.evictor.isSome = true
  prompt : ∀ {place frame}, m.frameAt place = some frame → frame.Prompt
  storing : ∀ {place frame key}, m.frameAt place = some frame → frame.storing? = some key →
    (m.cache.contains key = true ↔ m.cache.Tracks key)
  policy_eq : ∀ {evictor}, m.cache.evictor = some evictor → evictor.ranking.policy = policy
  follows : ∀ {evictor} place, m.cache.evictor = some evictor →
    (∀ other, other ≠ place → m.dueAt other = []) →
      ((m.dueAt place).foldl Ranking.used evictor.ranking).Follows uses

theorem dueAt_of_frameAt {place : Place} {frame : Frame} (h : m.frameAt place = some frame) :
    m.dueAt place = frame.due := by
  rw [dueAt, h]
  rfl

theorem dueAt_of_none {place : Place} (h : m.frameAt place = none) : m.dueAt place = [] := by
  rw [dueAt, h]
  rfl

/-- While one operation is at work, nothing is due anywhere else. -/
theorem Solitary.dueAt_eq (h : m.Solitary) {place other : Place} {frame : Frame}
    (hframe : m.frameAt place = some frame) (hactive : frame.isProviding = false)
    (hother : other ≠ place) : m.dueAt other = [] := by
  cases hheld : m.frameAt other with
  | none => exact dueAt_of_none hheld
  | some held =>
    rw [dueAt_of_frameAt hheld]
    cases hproviding : held.isProviding with
    | true => exact Frame.due_of_isProviding hproviding
    | false => exact absurd (h.unique hheld hframe hproviding hactive) hother

theorem AtRest.dueAt_eq (h : m.AtRest) (place : Place) : m.dueAt place = [] := by
  cases hframe : m.frameAt place with
  | none => exact dueAt_of_none hframe
  | some frame =>
    rw [dueAt_of_frameAt hframe]
    exact Frame.due_of_isProviding (h.isProviding hframe)

/-- What an event means to the evictor, if one operation at most is at work. -/
inductive Tells (m : Machine layout) (event : Event) (n : Machine layout) : Prop where
  | nothing (evictor_eq : n.cache.evictor = m.cache.evictor)
      (same : ∀ place, n.dueAt place = m.dueAt place) (unseen : m.use? event = none)
  | something (place : Place) (before : ∀ other, other ≠ place → m.dueAt other = [])
      (after : ∀ other, other ≠ place → n.dueAt other = [])
      (ranks : Ranks m.cache (m.dueAt place) (m.use? event) n.cache (n.dueAt place))

theorem use?_of_aside (hacting : m.acting event = none) : m.use? event = none := by
  cases event with
  | run worker => rw [use?, hacting]; rfl
  | _ => rfl

theorem Tidy.prompt_step {excused : Key -> Prop} (h : m.Tidy excused)
    (hprompt : ∀ {place frame}, m.frameAt place = some frame → frame.Prompt)
    (hstep : m.step event = some n) {place : Place} {frame : Frame}
    (hframe : n.frameAt place = some frame) : frame.Prompt := by
  cases came_of_step hstep hframe with
  | stood was => exact hprompt was
  | began fresh => exact fresh.prompt
  | provided was after => exact (Access.prompt_afterProvider after).1
  | stepped was step =>
    exact Frame.prompt_step step (hprompt was) fun _ hhold => (h.kept was hhold).first

namespace Following

theorem tells (h : m.Following policy uses) (hsolitary : m.Solitary)
    (hstep : m.step event = some n) : m.Tells event n := by
  cases step_cases hstep with
  | aside frames alike acting =>
    exact .nothing alike.evictor_eq (fun place => by rw [dueAt, dueAt, frames])
      (use?_of_aside acting)
  | opened place frame fresh free now others alike acting =>
    refine .nothing alike.evictor_eq (fun other => ?_) (use?_of_aside acting)
    by_cases hother : other = place
    · rw [hother, dueAt_of_frameAt now, dueAt_of_none free, fresh.due_eq]
    · rw [dueAt, dueAt, others other hother]
  | ended place access next outcome was after now others same acting provided =>
    obtain ⟨number, rfl⟩ := provided
    refine .nothing (by rw [same]) (fun other => ?_) rfl
    obtain ⟨-, hafter, hbefore⟩ := Access.prompt_afterProvider after
    by_cases hother : other = place
    · rw [hother, dueAt_of_frameAt now, dueAt_of_frameAt was]
      exact hafter.trans hbefore.symm
    · rw [dueAt, dueAt, others other hother]
  | stepped place frame cache progress was step now others alike acting ran kept =>
    obtain ⟨worker, rfl⟩ := ran
    have hactive := Frame.isProviding_of_step step
    have hbefore : ∀ other, other ≠ place → m.dueAt other = [] :=
      fun other hother => hsolitary.dueAt_eq was hactive hother
    refine .something place hbefore (fun other hother => ?_) ?_
    · rw [dueAt, others other hother, ← dueAt]
      exact hbefore other hother
    · have huse : m.use? (.run worker) = frame.use? m.cache := by
        simp only [use?, acting, Option.bind_some, was]
      rw [huse, dueAt_of_frameAt was, dueAt, now]
      exact (Frame.ranks_step step (h.prompt was) (h.tidy.sheds was)
        (fun _ hhold => h.tidy.kept was hhold) h.ranks fun _ => h.storing was).congr
          alike.evictor_eq

theorem storing_step (h : m.Following policy uses) (hsolitary : m.Solitary)
    (hstep : m.step event = some n) {place : Place} {frame : Frame} {key : Key}
    (hframe : n.frameAt place = some frame) (hkey : frame.storing? = some key) :
    n.cache.contains key = true ↔ n.cache.Tracks key := by
  have alike : m.cache.Alike n.cache → m.frameAt place = some frame →
      (n.cache.contains key = true ↔ n.cache.Tracks key) := by
    intro halike hwas
    rw [(halike.sameKey key).contains_eq, (halike.sameKey key).tracks_iff]
    exact h.storing hwas hkey
  cases step_cases hstep with
  | aside frames halike acting => exact alike halike (frames place ▸ hframe)
  | opened first began fresh free now others halike acting =>
    by_cases hplace : place = first
    · subst hplace
      cases now.symm.trans hframe
      rw [fresh.storing?_eq] at hkey
      cases hkey
    · exact alike halike (others place hplace ▸ hframe)
  | ended first access next outcome was after now others same acting provided =>
    rw [same]
    by_cases hplace : place = first
    · subst hplace
      cases now.symm.trans hframe
      obtain ⟨hold, hhold, rfl, hpending⟩ := Access.storing?_afterProvider after hkey
      have hsettled := (h.tidy.kept was hhold).settled h.ranks
      rw [hpending] at hsettled
      exact ⟨hsettled.1, fun htracks => (hsettled.2 htracks).resolve_right id⟩
    · exact h.storing (others place hplace ▸ hframe) hkey
  | stepped first before cache progress was step now others halike acting ran kept =>
    have hactive := Frame.isProviding_of_step step
    by_cases hplace : place = first
    · subst hplace
      rw [now] at hframe
      cases progress with
      | done answer => cases hframe
      | more next =>
        cases hframe
        have hnone := Frame.storing?_step step fun _ hhold => (h.tidy.kept was hhold).first
        rw [hnone] at hkey
        cases hkey
    · have hstood : m.frameAt place = some frame := others place hplace ▸ hframe
      exact absurd (hsolitary.unique hstood was (Frame.isProviding_of_storing? hkey) hactive) hplace

theorem step (h : m.Following policy uses) (hsolitary : m.Solitary)
    (hstep : m.step event = some n) : n.Following policy (uses ++ (m.use? event).toList) := by
  have hranks := (h.tidy.evictor_step h.owned hstep).trans h.ranks
  obtain ⟨evictor, hevictor⟩ := Option.isSome_iff_exists.mp h.ranks
  -- the evictor after the event, and the uses that it follows
  have main : ∃ now, n.cache.evictor = some now ∧ now.ranking.policy = policy ∧
      ∀ place, (∀ other, other ≠ place → n.dueAt other = []) →
        ((n.dueAt place).foldl Ranking.used now.ranking).Follows
          (uses ++ (m.use? event).toList) := by
    cases h.tells hsolitary hstep with
    | nothing evictor_eq same unseen =>
      refine ⟨evictor, evictor_eq.trans hevictor, h.policy_eq hevictor, fun place hothers => ?_⟩
      rw [unseen, Option.toList_none, List.append_nil, same]
      exact h.follows place hevictor fun other hother => same other ▸ hothers other hother
    | something place before after ranks =>
      obtain ⟨now, hnow, hpolicy, hfollows⟩ := ranks.follows hevictor
        (h.tidy.ranked evictor hevictor) (h.follows place hevictor before)
      refine ⟨now, hnow, hpolicy.trans (h.policy_eq hevictor), fun other hothers => ?_⟩
      by_cases hother : other = place
      · rwa [hother]
      · rw [after other hother]
        rwa [hothers place (Ne.symm hother)] at hfollows
  obtain ⟨now, hnow, hpolicy, hfollows⟩ := main
  refine ⟨h.owned.step hstep, (h.tidy.step h.owned hstep).mono fun _ => And.left, hranks,
    h.tidy.prompt_step h.prompt hstep, h.storing_step hsolitary hstep, ?_, ?_⟩
  · intro other hother
    cases hnow.symm.trans hother
    exact hpolicy
  · intro other place hother
    cases hnow.symm.trans hother
    exact hfollows place

theorem ofConfig {config : Config} {capacity : Nat} {evictor : Evictor}
    (hbuilt : Evictor.builtIn policy capacity = .ok evictor)
    (hconfig : config.evictor = some evictor) (clock : Instant) :
    (Machine.ofConfig layout config clock).Following policy [] := by
  obtain ⟨hsound, hworst, -⟩ := Evictor.builtIn_spec hbuilt
  have only : ∀ other, config.evictor = some other → other = evictor :=
    fun other hother => Option.some.inj (hother.symm.trans hconfig)
  have hnobody : ∀ place, (Machine.ofConfig layout config clock).frameAt place = none :=
    frameAt_ofConfig config clock
  refine ⟨owned_ofConfig config clock, .ofConfig ?_ ?_, ?_, ?_, ?_, ?_, ?_⟩
  · exact fun other hother => only other hother ▸ hsound
  · intro other key hother hmem
    rw [only other hother, hworst] at hmem
    cases hmem
  · exact Option.isSome_of_eq_some hconfig
  · intro place frame hframe
    rw [hnobody] at hframe
    cases hframe
  · intro place frame key hframe
    rw [hnobody] at hframe
    cases hframe
  · intro other hother
    rw [only other hother]
    exact (Evictor.ranking_builtIn hbuilt).1
  · intro other place hother _
    rw [dueAt_of_none (hnobody place), only other hother]
    exact .of_worst_eq_nil hsound hworst

/-- Whenever only providers run, the ranking lists the stored keys as the uses ask for. -/
theorem atRest (h : m.Following policy uses) (hrest : m.AtRest) :
    ∃ now, m.cache.evictor = some now ∧ (∀ key, key ∈ now.worst ↔ m.cache.contains key = true) ∧
      now.worst.Pairwise fun a b => policy.Before uses a b := by
  obtain ⟨now, hnow⟩ := Option.isSome_iff_exists.mp h.ranks
  refine ⟨now, hnow, fun key => ?_, ?_⟩
  · rw [← h.tidy.tracks_iff h.ranks fun place frame hframe hold hhold =>
      Frame.pending_of_isProviding (hrest.isProviding hframe) hold hhold]
    simp [Cache.Tracks, hnow]
  · have hfollows := h.follows (.sweeper 0) hnow fun other _ => hrest.dueAt_eq other
    rw [hrest.dueAt_eq] at hfollows
    rw [← h.policy_eq hnow]
    exact hfollows.pairwise_worst (h.tidy.ranked now hnow)

end Following

/-! ## What moves no key -/

/-- The ranking has lost keys at most, as long as no use is seen. -/
structure Unmoved (policy : Policy) (start : Evictor) (seen : List Use) (m : Machine layout) :
    Prop where
  following : ∃ uses, m.Following policy uses
  due : seen = [] → ∀ place, m.dueAt place = []
  sublist : seen = [] → ∃ now, m.cache.evictor = some now ∧ now.worst.Sublist start.worst

theorem Unmoved.step {start : Evictor} {seen : List Use} (h : m.Unmoved policy start seen)
    (hsolitary : m.Solitary) (hstep : m.step event = some n) :
    n.Unmoved policy start (seen ++ (m.use? event).toList) := by
  obtain ⟨uses, hfollowing⟩ := h.following
  have main : seen ++ (m.use? event).toList = [] → (∀ place, n.dueAt place = []) ∧
      ∃ now, n.cache.evictor = some now ∧ now.worst.Sublist start.worst := by
    intro hnothing
    obtain ⟨hseen, hunseen⟩ := List.append_eq_nil_iff.mp hnothing
    replace hunseen : m.use? event = none := by simpa using hunseen
    obtain ⟨evictor, hevictor, hsublist⟩ := h.sublist hseen
    cases hfollowing.tells hsolitary hstep with
    | nothing evictor_eq same unseen =>
      exact ⟨fun place => (same place).trans (h.due hseen place), evictor,
        evictor_eq.trans hevictor, hsublist⟩
    | something place before after ranks =>
      rw [hunseen, h.due hseen] at ranks
      obtain ⟨hdue, now, hnow, hfewer⟩ := ranks.sublist hevictor
        (hfollowing.tidy.ranked evictor hevictor)
      refine ⟨fun other => ?_, now, hnow, hfewer.trans hsublist⟩
      by_cases hother : other = place
      · rwa [hother]
      · exact after other hother
  exact ⟨⟨_, hfollowing.step hsolitary hstep⟩, fun hseen => (main hseen).1,
    fun hseen => (main hseen).2⟩

/--
As long as one operation at most is at work at a time, a built-in evictor lists the stored keys,
whenever only providers run, in the order that the uses so far ask for.  Whatever goes on from there
without a use, lookups that find nothing, failures, panics, extensions and passes included, takes
keys out of this order and moves none of the others.
-/
theorem ranking_follows_uses {config : Config} {capacity : Nat} {evictor : Evictor}
    {clock : Instant} {events : List Event} (hbuilt : Evictor.builtIn policy capacity = .ok evictor)
    (hconfig : config.evictor = some evictor)
    (halone : (ofConfig layout config clock).Heeds (fun m _ => m.Solitary) events)
    (hrun : (ofConfig layout config clock).runAll events = some m) (hrest : m.AtRest) :
    ∃ now, m.cache.evictor = some now ∧
      (∀ key, key ∈ now.worst ↔ m.cache.contains key = true) ∧
      now.worst.Pairwise (fun a b =>
        policy.Before ((ofConfig layout config clock).uses events) a b) ∧
      ∀ more n, m.Heeds (fun m _ => m.Solitary) more → m.runAll more = some n → n.AtRest →
        m.uses more = [] →
          ∃ later, n.cache.evictor = some later ∧
            later.worst = now.worst.filter fun key => n.cache.contains key := by
  have hfollowing : m.Following policy ([] ++ (ofConfig layout config clock).uses events) :=
    observe_induction (P := Following policy)
      (fun h hsolitary hstep => h.step hsolitary hstep) (.ofConfig hbuilt hconfig clock) halone hrun
  obtain ⟨now, hnow, hmem, hpairwise⟩ := hfollowing.atRest hrest
  refine ⟨now, hnow, hmem, hpairwise, ?_⟩
  intro more n hmore hmorerun hstill hunused
  have hstart : m.Unmoved policy now [] :=
    ⟨⟨_, hfollowing⟩, fun _ => hrest.dueAt_eq, fun _ => ⟨now, hnow, .refl _⟩⟩
  have hunmoved : n.Unmoved policy now ([] ++ m.uses more) :=
    observe_induction (P := Unmoved policy now)
      (fun h hsolitary hstep => h.step hsolitary hstep) hstart hmore hmorerun
  obtain ⟨uses, hthen⟩ := hunmoved.following
  obtain ⟨later, hlater, hsublist⟩ := hunmoved.sublist (by rw [hunused]; rfl)
  obtain ⟨same, hsame, hstored, -⟩ := hthen.atRest hstill
  cases hlater.symm.trans hsame
  refine ⟨later, hlater, ?_⟩
  have hnodup : now.worst.Nodup := (hfollowing.tidy.ranked now hnow).nodup_worst
  have hperm : later.worst.Perm (now.worst.filter fun key => n.cache.contains key) := by
    rw [List.perm_ext_iff_of_nodup (hsublist.nodup hnodup) (hnodup.filter _)]
    intro key
    rw [List.mem_filter, hstored]
    exact ⟨fun hkey => ⟨hsublist.subset ((hstored key).mpr hkey), hkey⟩, And.right⟩
  have hfewer := hsublist.filter fun key => n.cache.contains key
  have hall : later.worst.filter (fun key => n.cache.contains key) = later.worst :=
    List.filter_eq_self.mpr fun key hkey => (hstored key).mp hkey
  rw [hall] at hfewer
  exact hfewer.eq_of_length hperm.length_eq

def keepFrequent : Config := ⟨some ⟨.frequency ⟨2, .empty, .empty⟩, none⟩, defaultInterval⟩

/--
A key that has been used twice ranks above one that was stored after that; moving the deadline of
the other key changes nothing.
-/
theorem ranking_follows_uses_twice :
    ∃ events m, (ofConfig .flat keepFrequent ⟨0⟩).Heeds (fun m _ => m.Solitary) events ∧
      runAll (ofConfig .flat keepFrequent ⟨0⟩) events = some m ∧ m.AtRest ∧
      (ofConfig .flat keepFrequent ⟨0⟩).uses events =
        [.stored "a" true, .found "a", .stored "b" true] ∧
      ∃ now, m.cache.evictor = some now ∧ now.worst = ["b", "a"] ∧
        now.worst.Pairwise (fun a b =>
          Policy.frequency.Before [.stored "a" true, .found "a", .stored "b" true] a b) ∧
        ∃ n later, m.runAll (.call 0 (.access "b" (.extend ⟨9⟩)) ::
            List.replicate 5 (.run (.client 0))) = some n ∧
          n.cache.evictor = some later ∧ later.worst = ["b", "a"] := by
  have hbuilt : Evictor.builtIn .frequency 2 = .ok ⟨.frequency ⟨2, .empty, .empty⟩, none⟩ := rfl
  let events : List Event := creation 0 "a" leastTtl .unit ++
    [.call 0 (.access "a" (.extend ⟨9⟩))] ++ List.replicate 5 (.run (.client 0)) ++
    [.call 0 (.access "a" (.get .unit))] ++ List.replicate 7 (.run (.client 0)) ++
    creation 0 "b" leastTtl .unit
  have halone : (ofConfig .flat keepFrequent ⟨0⟩).Heeds (fun m _ => m.Solitary) events := by
    decide
  have hrun : runAll (ofConfig .flat keepFrequent ⟨0⟩) events = some _ := rfl
  obtain ⟨now, hnow, hmem, hpairwise, hlater⟩ :=
    ranking_follows_uses hbuilt rfl halone hrun (by decide)
  cases hnow
  obtain ⟨later, hthen, hworst⟩ :=
    hlater (.call 0 (.access "b" (.extend ⟨9⟩)) :: List.replicate 5 (.run (.client 0))) _
      (by decide) rfl (by decide) rfl
  exact ⟨events, _, halone, hrun, by decide, rfl, _, rfl, by decide +kernel, hpairwise, _, later,
    rfl, hthen, hworst.trans (by decide +kernel)⟩

end Machine

end TtlCache
