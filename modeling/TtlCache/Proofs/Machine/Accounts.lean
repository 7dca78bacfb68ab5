import Mathlib.Algebra.BigOperators.Finprod
import TtlCache.Proofs.Machine.Attendance
import TtlCache.Proofs.Machine.Counting
import TtlCache.Proofs.Machine.Findings
import TtlCache.Proofs.Machine.Roster
import TtlCache.Proofs.Store.Keys

/-!
# Accounts

What is asked of a cache, what becomes of it and what is counted are entered in books, at rates that
can be chosen: so much for an entry, so much for a lookup, so much for a miss.  Whatever the rates,
the books differ from zero only by what the operations in progress still owe.  So when nothing is
in progress they balance, and each choice of rates makes this a law about entries or about lookups.
-/

namespace TtlCache

variable {layout : Layout}

/-! ## Deeds -/

/-- What is entered in the books, apart from counts and entries. -/
inductive Deed where
  | asked (request : Request)
  /-- A value is stored under a key that has no entry. -/
  | entered (key : Key)
  | provided (key : Key)
  /-- A creation that fails removes the entry of its key. -/
  | dropped (key : Key)
  | answered (request : Request) (answer : Answer)
  | reported (statistics : Statistics)
  deriving DecidableEq, Repr

def Frame.deed? (c : Cache layout) : Frame -> Option Deed
  | .access ⟨key, _, .missed _ _⟩ => some (.provided key)
  | .access ⟨_, _, .perform _ (.put key _ _ :: _) _⟩ =>
      if c.contains key then none else some (.entered key)
  | .access ⟨_, _, .perform _ (.erase key :: _) (.failed _)⟩ =>
      if c.contains key then some (.dropped key) else none
  | .access ⟨_, request, .release _ answer⟩ => some (.answered request answer)
  | .taking ⟨elapsed, [], taken⟩ => some (.reported ⟨elapsed, taken⟩)
  | _ => none

namespace Machine

def deed? (m : Machine layout) : Event -> Option Deed
  | .call _ (.access _ (.create kind ttl)) =>
      if ttl.nanos < leastTtl.nanos then none else some (.asked (.create kind ttl))
  | .call _ (.access _ request) => some (.asked request)
  | .run worker => ((m.acting (.run worker)).bind m.frameAt).bind fun frame => frame.deed? m.cache
  | _ => none

def deeds (m : Machine layout) : List Event -> List Deed := m.observe deed?

end Machine

/-! ## Rates -/

/-- What an entry, a lookup and a miss are entered at. -/
structure Rates where
  entry : Int
  lookup : Int
  miss : Int

namespace Rates

variable (r : Rates)

def counter : Counter -> Int
  | .hit => -r.lookup
  | .miss => r.miss
  | .expiration | .eviction => -r.entry

def tally (t : Tally) : Int :=
  (Counter.all.map fun counter => r.counter counter * t.get counter).sum

def answer : Request -> Answer -> Int
  | .forget, .flag true => -r.entry
  | .get _, .found none => -(r.lookup + r.miss)
  | .get _, .panicked (.wrongKind _ _) | .create _ _, .panicked (.wrongKind _ _) => -r.lookup
  | _, _ => 0

def request (request : Request) : Int := if request.kind?.isSome then r.lookup else 0

def deed : Deed -> Int
  | .asked request => r.request request
  | .entered _ => r.entry
  | .provided _ => -(r.lookup + r.miss)
  | .dropped _ => -r.entry
  | .answered request answer => r.answer request answer
  | .reported statistics => r.tally statistics.counts

/-- What a cache is worth: the counts that have not been taken yet, and the entries. -/
def cache (c : Cache layout) : Int := r.tally c.tally - r.entry * c.store.size

def balance (deeds : List Deed) (c : Cache layout) : Int := (deeds.map r.deed).sum + r.cache c

/-! ## What is owed -/

def isFailure : Answer -> Bool
  | .failed _ => true
  | _ => false

def effect (answer : Answer) : Effect -> Int
  | .erase _ => if isFailure answer then 0 else r.entry
  | .count counter => r.counter counter
  | .put _ _ _ | .use _ | .untrack _ | .wake => 0

def effects (answer : Answer) (todo : List Effect) : Int := (todo.map (r.effect answer)).sum

/-- What an operation has entered in the books that it still has to make good. -/
def frame : Frame -> Int
  | .access ⟨_, request, .register⟩ | .access ⟨_, request, .acquire _⟩
  | .access ⟨_, request, .look _⟩ => r.request request
  | .access ⟨_, _, .missed _ _⟩ => r.lookup
  | .access ⟨_, _, .provide _ _⟩ => 0
  | .access ⟨_, request, .perform _ todo answer⟩ => -r.effects answer todo - r.answer request answer
  | .access ⟨_, request, .release _ answer⟩ => -r.answer request answer
  | .pass (.remove todo _ _) => -r.effects (.flag true) todo
  | .pass _ | .clock => 0
  | .taking t => -r.tally t.taken

/-- What is owed at a place. -/
def owed (frame : Option Frame) : Int := (frame.map r.frame).getD 0

end Rates

/-! ## Steps -/

namespace Rates

variable {c d : Cache layout} (r : Rates)

theorem balance_append (deeds : List Deed) (deed : Option Deed) (c : Cache layout) :
    r.balance (deeds ++ deed.toList) c =
      (deeds.map r.deed).sum + (deed.map r.deed).getD 0 + r.cache c := by
  cases deed <;> simp [balance]

theorem tally_count (t : Tally) (counter : Counter) :
    r.tally (t.count counter) = r.tally t + r.counter counter := by
  cases counter <;> simp [tally, Counter.all, Tally.get_count] <;> ring

theorem tally_take {counter : Counter} {taken : Tally} (hfresh : taken.get counter = 0)
    (t : Tally) :
    r.tally (t.set counter 0) + r.tally (taken.set counter (t.get counter)) =
      r.tally t + r.tally taken := by
  cases counter <;> simp [tally, Counter.all, Tally.get_set, hfresh] <;> ring

theorem effects_cons (answer : Answer) (effect : Effect) (todo : List Effect) :
    r.effects answer (effect :: todo) = r.effect answer effect + r.effects answer todo := by
  simp [effects]

@[simp] theorem effects_nil (answer : Answer) : r.effects answer [] = 0 := rfl

theorem cache_insert (hplaced : c.store.Placed) (key : Key) (entry : Entry) :
    r.cache { c with store := c.store.insert key entry } =
      r.cache c - if c.contains key then 0 else r.entry := by
  cases hget : c.store.get? key with
  | none =>
    simp only [cache, hplaced.size_insert_of_none hget, Cache.contains, hget]
    simp
    ring
  | some old =>
    have hsome : (c.store.get? key).isSome = true := by rw [hget]; rfl
    simp [cache, hplaced.size_insert_of_isSome hsome, Cache.contains, hget]

theorem cache_erase (hplaced : c.store.Placed) {key : Key} (hkey : c.contains key = true) :
    r.cache { c with store := c.store.erase key } = r.cache c + r.entry := by
  have hsize := hplaced.size_erase_of_isSome hkey
  simp only [cache, ← hsize]
  push_cast
  ring

theorem cache_apply {effect : Effect} (h : effect.apply c = some d) (hplaced : c.store.Placed)
    (hpresent : ∀ key, effect = .erase key → c.contains key = true) (hput : effect.isPut = false) :
    r.cache d = r.cache c + r.effect (.flag true) effect := by
  cases effect with
  | erase other =>
    cases h
    rw [r.cache_erase hplaced (hpresent other rfl)]
    simp [effect, isFailure]
  | put other value deadline => cases hput
  | count counter =>
    cases h
    simp only [effect, cache, Cache.count, r.tally_count]
    ring
  | wake =>
    obtain ⟨sweeper, -, rfl⟩ := Option.map_eq_some_iff.mp h
    simp [effect, cache]
  | _ =>
    cases h
    simp [effect, cache, Cache.notifyUsed, Cache.notifyRemoved]

theorem gain_apply {effect : Effect} (h : effect.apply c = some d) (hplaced : c.store.Placed)
    (hpresent : ∀ key, effect = .erase key → c.contains key = true) (key : Key)
    (request : Request) (ticket : Nat) (todo : List Effect) (answer : Answer) :
    (((Frame.access ⟨key, request, .perform ticket (effect :: todo) answer⟩).deed? c).map
      r.deed).getD 0 + r.cache d = r.cache c + r.effect answer effect := by
  cases effect with
  | put other value deadline =>
    cases h
    rw [r.cache_insert hplaced]
    cases hcontains : c.contains other <;> simp [Frame.deed?, effect, hcontains, deed]
  | erase other =>
    have hcontains := hpresent other rfl
    rw [r.cache_apply h hplaced hpresent rfl]
    cases answer <;> simp [Frame.deed?, effect, isFailure, hcontains, deed]
  | _ =>
    rw [r.cache_apply h hplaced hpresent rfl]
    simp [Frame.deed?, effect]

theorem gain_finding {key : Key} {ticket : Nat} {request : Request} {point : AccessPoint}
    (h : Access.Finding key ticket c request d point) (hplaced : c.store.Placed) :
    r.cache d = r.cache c + r.frame (.access ⟨key, request, point⟩) - r.request request := by
  cases h with
  | vacant absent =>
    cases request <;>
      simp [Access.lookVacant, frame, effects, effect, counter, answer, Rates.request,
        Request.kind?]
  | expired present dead =>
    simp [Access.expire, frame, effects, effect, counter, answer, isFailure, Rates.request,
      Request.kind?]
  | stale present dead => simp [frame, Rates.request, Request.kind?]
  | found present live fits =>
    simp [Access.hit, frame, effects, effect, counter, answer, Rates.request, Request.kind?]
  | reused present live fits =>
    simp [Access.hit, frame, effects, effect, counter, answer, Rates.request, Request.kind?]
  | mistaken present live asks differs =>
    cases request <;> simp [Request.kind?] at asks <;>
      simp [frame, effects, answer, Rates.request, Request.kind?]
  | extended present =>
    rw [r.cache_insert hplaced]
    simp [Cache.contains, present, frame, effects, answer, Rates.request, Request.kind?]
  | forgotten present =>
    rw [r.cache_erase hplaced (by rw [Cache.contains, present]; rfl)]
    simp [frame, effects, effect, answer, Rates.request, Request.kind?]

theorem gain_access {a : Access} {progress : Progress Access} (h : a.step c = some (d, progress))
    (hplaced : c.store.Placed)
    (hcalm : ∀ ticket, ⟨ticket, a.key, .holding⟩ ∈ a.claims → (c.locks.unregister ticket).1 = none)
    (hown : ∀ hold ∈ a.holds, ∀ effect ∈ hold.pending, ∀ key, effect.key? = some key →
      hold.key = key)
    (hrelies : ∀ key ∈ a.relies, c.contains key = true) :
    (((Frame.access a).deed? c).map r.deed).getD 0 + r.cache d + r.frame (.access a) =
      r.cache c + r.owed (progress.point?.map Frame.access) := by
  cases Access.stride_of_step h with
  | register => simp [Frame.deed?, frame, owed, Progress.point?, cache]
  | acquire acquired => simp [Frame.deed?, frame, owed, Progress.point?, cache]
  | @look key request ticket =>
    have hgain := r.gain_finding (Access.finding_look key request (.look ticket) ticket c) hplaced
    have hdeed : (Frame.access ⟨key, request, .look ticket⟩).deed? c = none := rfl
    simp only [hdeed, hgain, Progress.point?, owed, Option.map_none, Option.map_some,
      Option.getD_none, Option.getD_some]
    simp only [frame]
    ring
  | missed =>
    simp only [Frame.deed?, owed, Progress.point?, cache, Cache.count, r.tally_count, deed, counter,
      Option.map_some, Option.getD_some]
    simp only [frame]
    ring
  | @effect key request ticket effect todo answer after applied =>
    have hkey := hown _ (List.mem_singleton_self _) effect List.mem_cons_self
    have hgain := r.gain_apply applied hplaced (by
      rintro other rfl
      have hother : key = other := hkey other rfl
      exact hother ▸ hrelies key (List.mem_singleton_self _)) key request ticket todo answer
    rw [hgain]
    simp only [owed, Progress.point?, Option.map_some, Option.getD_some, frame, r.effects_cons]
    ring
  | unregister unregistered =>
    simp [Frame.deed?, frame, owed, Progress.point?, cache]
  | panic unregistered =>
    have hnone := hcalm _ (List.mem_singleton_self _)
    rw [unregistered] at hnone
    cases hnone
  | release => simp [Frame.deed?, frame, owed, Progress.point?, cache, deed]

theorem frame_afterProvider {a next : Access} {now : Instant} {outcome : Outcome}
    (h : a.afterProvider now outcome = some next) :
    r.frame (.access next) = r.frame (.access a) := by
  obtain ⟨own, request, point⟩ := a
  unfold Access.afterProvider at h
  split at h
  · next ticket stale kind ttl hpoint hrequest =>
    cases hpoint
    cases hrequest
    split at h
    · split at h <;> cases h
      simp [frame, effects, effect, answer]
    · cases h
      cases stale <;> simp [frame, effects, effect, answer, isFailure]
    · cases h
      simp [frame, effects, answer]
  · cases h

/-! ### Passes -/

/-- A pass owes nothing as long as it removes nothing. -/
theorem frame_pass {p : Pass} (h : ∀ todo mark marks, p ≠ .remove todo mark marks) :
    r.frame (.pass p) = 0 := by
  cases p with
  | remove todo mark marks => exact absurd rfl (h todo mark marks)
  | _ => rfl

theorem frame_clear (marks : List Mark) : r.frame (.pass (Pass.clear marks)) = 0 := by
  cases marks with
  | nil => rfl
  | cons mark marks =>
    cases hremoval : mark.removal <;>
      simp [Pass.clear, frame, Mark.effects, effects, effect, hremoval, Removal.counter, counter,
        isFailure]

theorem frame_endRound (survey : Survey) (round : Round) :
    r.frame (.pass (Pass.endRound c survey round)) = 0 := by
  cases round with
  | expiry =>
    simp only [Pass.endRound]
    split
    · rfl
    · exact r.frame_clear _
  | eviction => exact r.frame_clear _

theorem frame_weighExcess (survey : Survey) :
    r.frame (.pass (Pass.weighExcess c survey)) = 0 := by
  unfold Pass.weighExcess
  split
  · exact r.frame_clear _
  · split
    · rfl
    · split
      · exact r.frame_clear _
      · rfl

theorem frame_judgeExpiry (ticket : Nat) (key : Key) (keys : List Key) (survey : Survey) :
    r.frame (.pass (Pass.judgeExpiry c ticket key keys survey)) = 0 := by
  unfold Pass.judgeExpiry
  split
  · rfl
  · split <;> rfl

theorem frame_judgeEviction (ticket : Nat) (key : Key) (keys : List Key) (survey : Survey) :
    r.frame (.pass (Pass.judgeEviction c ticket key keys survey)) = 0 := by
  unfold Pass.judgeEviction
  split <;> rfl

theorem frame_giveUp (c : Cache layout) (ticket : Nat) (key : Key) (marks : List Mark)
    {next : Pass} (h : r.frame (.pass next) = 0) :
    r.cache (Pass.giveUp c ticket key marks next).1 = r.cache c ∧
      r.frame (.pass (Pass.giveUp c ticket key marks next).2) = 0 := by
  unfold Pass.giveUp
  split
  · exact ⟨rfl, h⟩
  · exact ⟨rfl, rfl⟩

theorem gain_pass {p : Pass} {who : Worker} {progress : Progress Pass}
    (h : p.step who c = some (d, progress)) (hplaced : c.store.Placed) (hsheds : p.Sheds)
    (hrelies : ∀ key ∈ p.relies, c.contains key = true) :
    r.cache d + r.frame (.pass p) = r.cache c + r.owed (progress.point?.map Frame.pass) := by
  cases Pass.stride_of_step h with
  | visited => simp [owed, Progress.point?, r.frame_endRound, r.frame_pass]
  | judgeExpiry => simp [owed, Progress.point?, r.frame_judgeExpiry, r.frame_pass]
  | judgeEviction => simp [owed, Progress.point?, r.frame_judgeEviction, r.frame_pass]
  | weigh => simp [owed, Progress.point?, r.frame_weighExcess, r.frame_pass]
  | @dismiss round ticket key keys survey =>
    obtain ⟨hcache, hframe⟩ := r.frame_giveUp c ticket key survey.marks
      (rfl : r.frame (.pass (.release round ticket key keys survey)) = 0)
    simp [owed, Progress.point?, hcache, hframe, r.frame_pass]
  | @effect effect todo mark marks after applied =>
    have hpresent : ∀ key, effect = .erase key → c.contains key = true := by
      rintro key rfl
      cases hsheds.next
      exact hrelies mark.key List.mem_cons_self
    have hput : effect.isPut = false := by cases hsheds.next <;> rfl
    have hgain := r.cache_apply applied hplaced hpresent hput
    simp only [owed, Progress.point?, Option.map_some, Option.getD_some, hgain, frame,
      r.effects_cons]
    ring
  | @removed mark marks =>
    obtain ⟨hcache, hframe⟩ := r.frame_giveUp c mark.ticket mark.key marks
      (rfl : r.frame (.pass (.free mark.ticket mark.key marks)) = 0)
    have hwas : r.frame (.pass (.remove [] mark marks)) = 0 := by simp [frame]
    simp [owed, Progress.point?, hcache, hframe, hwas]
  | free => simp [owed, Progress.point?, r.frame_clear, r.frame_pass, cache]
  | @unwind mark marks panic =>
    obtain ⟨hcache, hframe⟩ := r.frame_giveUp c mark.ticket mark.key marks
      (rfl : r.frame (.pass (.drop mark.ticket mark.key marks panic)) = 0)
    simp [owed, Progress.point?, hcache, hframe, r.frame_pass]
  | _ => simp [owed, Progress.point?, frame, cache, Cache.notifyRemoved]

end Rates

/-- Every count is taken once, and those still to be taken have not been put down. -/
structure Taking.Fair (t : Taking) : Prop where
  nodup : t.todo.Nodup
  fresh : ∀ counter ∈ t.todo, t.taken.get counter = 0

theorem Frame.fair_step {frame : Frame} {who : Worker} {c d : Cache layout} {t : Taking}
    (h : frame.step who c = some (d, .more (.taking t)))
    (hfair : ∀ before, frame = .taking before → before.Fair) : t.Fair := by
  generalize hprogress : Progress.more (Frame.taking t) = progress at h
  cases stride_of_step h with
  | clock =>
    cases hprogress
    refine ⟨(by decide : Counter.all.Nodup), fun counter _ => ?_⟩
    cases counter <;> rfl
  | @take elapsed counter todo taken =>
    cases hprogress
    obtain ⟨hnodup, hfresh⟩ := hfair _ rfl
    obtain ⟨hnot, hrest⟩ := List.nodup_cons.mp hnodup
    refine ⟨hrest, fun other hother => ?_⟩
    have hne : other ≠ counter := fun heq => hnot (heq ▸ hother)
    rw [Tally.get_set, if_neg hne]
    exact hfresh other (List.mem_cons_of_mem _ hother)
  | access step => next progress => cases progress <;> cases hprogress
  | pass step => next progress => cases progress <;> cases hprogress
  | taken => cases hprogress

/-- A step of an operation pays what it owes, or owes what it takes. -/
theorem Rates.gain_step (r : Rates) {frame : Frame} {who : Worker} {c d : Cache layout}
    {progress : Progress Frame} (h : frame.step who c = some (d, progress))
    (hplaced : c.store.Placed) (hsheds : frame.Sheds)
    (hcalm : ∀ ticket key, ⟨ticket, key, .holding⟩ ∈ frame.claims →
      (c.locks.unregister ticket).1 = none)
    (hown : ∀ hold ∈ frame.holds, ∀ effect ∈ hold.pending, ∀ key, effect.key? = some key →
      hold.key = key)
    (hrelies : ∀ key ∈ frame.relies, c.contains key = true)
    (hfair : ∀ t, frame = .taking t → t.Fair) :
    ((frame.deed? c).map r.deed).getD 0 + r.cache d + r.frame frame =
      r.cache c + r.owed progress.point? := by
  cases Frame.stride_of_step h with
  | @access a d progress step =>
    rw [Progress.point?_map]
    exact r.gain_access step hplaced (fun ticket => hcalm ticket a.key) hown hrelies
  | @pass p d progress step =>
    rw [Progress.point?_map]
    have hgain := r.gain_pass step hplaced hsheds hrelies
    have hdeed : (Frame.pass p).deed? c = none := rfl
    rw [hdeed, Option.map_none, Option.getD_none, zero_add]
    exact hgain
  | clock =>
    simp [Frame.deed?, owed, frame, Progress.point?, cache, tally, Counter.all, Tally.zero,
      Tally.get]
  | @take elapsed counter todo taken =>
    have htake := r.tally_take ((hfair _ rfl).fresh counter List.mem_cons_self) c.tally
    simp only [Frame.deed?, owed, frame, Progress.point?, cache, Option.map_none, Option.getD_none,
      Option.map_some, Option.getD_some] at htake ⊢
    omega
  | taken =>
    simp [Frame.deed?, owed, frame, Progress.point?, deed]

end TtlCache
