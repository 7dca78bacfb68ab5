import TtlCache.Proofs.Machine.Accounts
import TtlCache.Proofs.Machine.Answers

/-!
# The balance of a run

Every event changes the balance of the books by as much as it changes what is owed.  So in a run
the two are always the same, and when nothing is in progress the books balance: every entry that was
made is still there or has been counted as expired or evicted, forgotten by request or dropped by a
failure; every lookup is a hit or a miss; and every miss finds nothing or runs a provider.
-/

namespace TtlCache

variable {layout : Layout}

namespace Machine

variable {m n : Machine layout} {event : Event}

/-! ## What an event makes of counts and entries -/

/-- An event changes counts and entries only by the step of an operation. -/
inductive Turnout (m : Machine layout) (event : Event) (d : Cache layout) : Prop where
  | worked {place : Place} {frame : Frame} {cache : Cache layout} {progress : Progress Frame}
      (acting : m.acting event = some place) (was : m.frameAt place = some frame)
      (step : frame.step place.worker m.cache = some (cache, progress))
      (tally_eq : d.tally = cache.tally) (store_eq : d.store = cache.store)
  | apart (idle : m.acting event = none ∨ ∃ number outcome, event = .provide number outcome)
      (tally_eq : d.tally = m.cache.tally)
      (size_eq : m.cache.store.Placed → d.store.size = m.cache.store.size)

theorem Turnout.of_same {d : Cache layout} (acting : m.acting event = none)
    (htally : d.tally = m.cache.tally) (hstore : d.store = m.cache.store) :
    m.Turnout event d := .apart (Or.inl acting) htally fun _ => by rw [hstore]

theorem turnout_of_runClient {number : Nat} (h : m.runClient number = some n) :
    m.Turnout (.run (.client number)) n.cache := by
  unfold runClient at h
  cases hstack : (m.client number).stack with
  | nil => simp [hstack] at h
  | cons frame outer =>
    simp only [hstack, Option.map_eq_some_iff, Prod.exists] at h
    obtain ⟨cache, progress, hstep, hn⟩ := h
    have hcache : n.cache = cache := by
      rw [← hn]
      cases progress <;> rfl
    exact .worked (innermost_eq hstack) (frameAt_innermost hstack) hstep (by rw [hcache])
      (by rw [hcache])

theorem turnout_of_runPass {generation : Nat}
    (hstage : m.cache.sweeper.threads.get? generation = some .passing)
    (h : m.runPass generation = some n) : m.Turnout (.run (.sweeper generation)) n.cache := by
  unfold runPass at h
  cases hpass : m.passes.get? generation with
  | none =>
    have hacting : m.acting (.run (.sweeper generation)) = none := by
      simp [acting, Table.contains, hpass]
    simp only [hpass] at h
    split at h
    · obtain ⟨sweeper, -, rfl⟩ := Option.map_eq_some_iff.mp h
      exact .of_same hacting rfl rfl
    · cases h
      exact .of_same hacting rfl rfl
  | some pass =>
    have hacting : m.acting (.run (.sweeper generation)) = some (.sweeper generation) := by
      simp [acting, hstage, Table.contains, hpass]
    simp only [hpass, Option.bind_eq_some_iff, Prod.exists] at h
    obtain ⟨cache, progress, hstep, hn⟩ := h
    have hframe : (Frame.pass pass).step (.sweeper generation) m.cache =
        some (cache, progress.map .pass) := by
      rw [Frame.step, hstep]
      rfl
    cases progress with
    | more next =>
      cases hn
      exact .worked hacting (frameAt_of_pass hpass) hframe rfl rfl
    | done answer =>
      simp only [endPass, Option.bind_eq_bind, Option.bind_eq_some_iff, Option.some.injEq] at hn
      obtain ⟨detached, hdetached, sweeper, -, rfl⟩ := hn
      have hdrops := Cache.drops_of_detach hdetached
      refine .worked hacting (frameAt_of_pass hpass) hframe ?_ hdrops.store_eq
      rcases Cache.detach_cases hdetached with ⟨-, rfl⟩ | ⟨-, -, rfl⟩ <;> rfl

theorem turnout_of_step (h : m.step event = some n) : m.Turnout event n.cache := by
  cases event with
  | call number request =>
    simp only [step, call, Option.ite_none_right_eq_some] at h
    replace h := h.2
    split at h <;> cases h <;> exact .of_same rfl rfl rfl
  | provide number outcome =>
    simp only [step, provide] at h
    split at h
    · obtain ⟨next, -, rfl⟩ := Option.map_eq_some_iff.mp h
      exact .apart (Or.inr ⟨number, outcome, rfl⟩) rfl fun _ => rfl
    · cases h
  | run worker =>
    cases worker with
    | client number => exact turnout_of_runClient h
    | sweeper generation =>
      simp only [step, run, runSweeper] at h
      split at h
      · next hstage => exact turnout_of_runPass hstage h
      · next hstage =>
        obtain ⟨sweeper, -, rfl⟩ := Option.map_eq_some_iff.mp h
        refine .of_same ?_ rfl rfl
        simp [acting, show m.cache.sweeper.threads.get? generation ≠ some .passing from hstage]
  | tick elapsed =>
    obtain ⟨clock, -, rfl⟩ := Option.map_eq_some_iff.mp h
    exact .of_same rfl rfl rfl
  | attach =>
    simp only [step, Option.ite_none_right_eq_some, Option.some.injEq] at h
    obtain ⟨-, rfl⟩ := h
    exact .of_same rfl rfl rfl
  | detach =>
    simp only [step, Option.ite_none_right_eq_some] at h
    obtain ⟨cache, hcache, rfl⟩ := Option.map_eq_some_iff.mp h.2
    rcases Cache.detach_cases hcache with ⟨-, rfl⟩ | ⟨-, -, rfl⟩ <;>
      exact .of_same rfl rfl rfl
  | reorder shard rows =>
    obtain ⟨store, hstore, rfl⟩ := Option.map_eq_some_iff.mp h
    exact .apart (Or.inl rfl) rfl fun hplaced => Store.size_reorder? hplaced hstore

theorem Turnout.cache_of_idle {d : Cache layout} (h : m.Turnout event d) (r : Rates)
    (hacting : m.acting event = none) (hplaced : m.cache.store.Placed) :
    r.cache d = r.cache m.cache := by
  cases h with
  | worked acting =>
    rw [hacting] at acting
    cases acting
  | apart idle tally_eq size_eq => rw [Rates.cache, Rates.cache, tally_eq, size_eq hplaced]

theorem Turnout.cache_of_run {cache d : Cache layout} {worker : Worker} {place : Place}
    {frame : Frame} {progress : Progress Frame} (h : m.Turnout (.run worker) d) (r : Rates)
    (hacting : m.acting (.run worker) = some place) (hframe : m.frameAt place = some frame)
    (hstep : frame.step place.worker m.cache = some (cache, progress)) :
    r.cache d = r.cache cache := by
  cases h with
  | worked acting was step tally_eq store_eq =>
    cases hacting.symm.trans acting
    cases hframe.symm.trans was
    cases hstep.symm.trans step
    rw [Rates.cache, Rates.cache, tally_eq, store_eq]
  | apart idle =>
    rcases idle with hnone | ⟨number, outcome, hprovide⟩
    · rw [hacting] at hnone
      cases hnone
    · cases hprovide

theorem begun_of_call {number : Nat} {request : Call}
    (h : m.step (.call number request) = some n) :
    (∃ frame place, opening request = .more frame ∧ m.frameAt place = none ∧
      n.frameAt place = some frame ∧ m.SameBut n place) ∨
      ∃ answer, opening request = .done answer ∧ ∀ place, n.frameAt place = m.frameAt place := by
  cases hopening : opening request with
  | more frame =>
    simp only [step, call, Option.ite_none_right_eq_some, hopening, Option.some.injEq] at h
    obtain ⟨-, h⟩ := h
    have hstack : (n.client number).stack = frame :: (m.client number).stack := by
      rw [← h, client_setClient, if_pos rfl]
    exact Or.inl ⟨frame, _, rfl, frameAt_outside rfl, frameAt_innermost hstack,
      sameBut_setClient h.symm (Or.inl rfl) (Or.inr ⟨frame, rfl⟩)⟩
  | done answer =>
    simp only [step, call, Option.ite_none_right_eq_some, hopening, Option.some.injEq] at h
    obtain ⟨-, h⟩ := h
    refine Or.inr ⟨answer, rfl, fun place => ?_⟩
    have hsame := sameBut_setClient h.symm (Or.inl rfl) (Or.inl rfl)
    by_cases hplace : place = .client number (m.client number).stack.length
    · have hstack : (n.client number).stack = (m.client number).stack := by
        rw [← h, client_setClient, if_pos rfl]
      rw [hplace, frameAt_outside rfl, ← hstack, frameAt_outside rfl]
    · exact hsame place hplace

/-! ## What all operations owe -/

/-- What the operations of a machine owe together. -/
noncomputable def owed (r : Rates) (m : Machine layout) : Int :=
  ∑ᶠ place, r.owed (m.frameAt place)

theorem finite_owed (r : Rates) (m : Machine layout) :
    (Function.support fun place => r.owed (m.frameAt place)).Finite := by
  refine (m.places.finite_toSet).subset fun place hplace => ?_
  refine mem_places.mpr ?_
  cases hframe : m.frameAt place with
  | none => simp [hframe, Rates.owed] at hplace
  | some frame => rfl

theorem owed_congr (r : Rates) (h : ∀ place, n.frameAt place = m.frameAt place) :
    n.owed r = m.owed r := by
  simp only [owed, h]

theorem owed_update (r : Rates) {place : Place} (hothers : m.SameBut n place) :
    n.owed r + r.owed (m.frameAt place) = m.owed r + r.owed (n.frameAt place) := by
  have hsingle : n.owed r - m.owed r = r.owed (n.frameAt place) - r.owed (m.frameAt place) := by
    rw [owed, owed, ← finsum_sub_distrib (finite_owed r n) (finite_owed r m)]
    exact finsum_eq_single _ place fun other hother => by rw [hothers other hother, sub_self]
  omega

theorem owed_of_idle (r : Rates) (h : m.places = []) : m.owed r = 0 := by
  have hnone : ∀ place, m.frameAt place = none := by
    intro place
    have hmem : place ∉ m.places := by simp [h]
    rwa [mem_places, Option.not_isSome_iff_eq_none] at hmem
  simp [owed, hnone, Rates.owed]

/-! ## Runs -/

/-- The books of a run so far, and what their balance rests on. -/
structure Audited (r : Rates) (deeds : List Deed) (m : Machine layout) : Prop where
  coherent : m.Coherent
  reliable : m.Reliable
  fair : ∀ place t, m.frameAt place = some (.taking t) → t.Fair
  balanced : r.balance deeds m.cache = m.owed r

theorem audited_ofConfig {config : Config}
    (hevictor : ∀ evictor, config.evictor = some evictor → evictor.Origin) (clock : Instant)
    (r : Rates) : Audited r [] (ofConfig layout config clock) where
  coherent := coherent_ofConfig hevictor clock
  reliable := reliable_ofConfig config clock
  fair := by
    intro place t hframe
    rw [frameAt_ofConfig] at hframe
    cases hframe
  balanced := by
    rw [owed_of_idle r (by rfl)]
    have hsize : (Store.empty : Store layout).size = 0 := by
      rw [← Store.length_keys]
      simp [Store.keys, Store.empty]
    simp [Rates.balance, Rates.cache, Rates.tally, Counter.all, ofConfig, Cache.ofConfig, hsize,
      Tally.zero, Tally.get]

theorem fair_step (hfair : ∀ place t, m.frameAt place = some (.taking t) → t.Fair)
    (hstep : m.step event = some n) {place : Place} {t : Taking}
    (hframe : n.frameAt place = some (.taking t)) : t.Fair := by
  cases came_of_step hstep hframe with
  | stood was => exact hfair place t was
  | began fresh => cases fresh
  | stepped was step => exact Frame.fair_step step fun before heq => hfair place before (heq ▸ was)

theorem deed_of_call (r : Rates) {number : Nat} {request : Call}
    (hstep : m.step (.call number request) = some n) :
    ((m.deed? (.call number request)).map r.deed).getD 0 + m.owed r = n.owed r := by
  rcases begun_of_call hstep with ⟨frame, place, hopening, hfree, hnow, hothers⟩ |
    ⟨answer, hopening, hsame⟩
  · have hupdate := owed_update r hothers
    have hdeed : ((m.deed? (.call number request)).map r.deed).getD 0 = r.frame frame := by
      unfold opening at hopening
      split at hopening
      · split at hopening
        · cases hopening
        · next hlong =>
          cases hopening
          simp [deed?, hlong, Access.begin, Rates.frame, Rates.deed]
      · next key asked hcreate =>
        cases hopening
        cases asked with
        | create kind ttl => exact absurd rfl (hcreate kind ttl)
        | _ => rfl
      · cases hopening
        rfl
      · cases hopening
        rfl
    rw [hfree, hnow] at hupdate
    simp only [Rates.owed, Option.map_none, Option.getD_none, Option.map_some, Option.getD_some]
      at hupdate
    omega
  · rw [owed_congr r hsame]
    have hdeed : m.deed? (.call number request) = none := by
      unfold opening at hopening
      split at hopening
      · split at hopening
        · next hshort => simp [deed?, hshort]
        · cases hopening
      · cases hopening
      · cases hopening
      · cases hopening
    simp [hdeed]

theorem pass_of_begun (hstep : m.step event = some n)
    (hcall : ∀ number request, event ≠ .call number request) {place : Place} {frame : Frame}
    (hfree : m.frameAt place = none) (hnow : n.frameAt place = some frame) :
    ∃ p, frame = .pass p := by
  cases place with
  | sweeper generation =>
    obtain ⟨p, -, rfl⟩ := Option.map_eq_some_iff.mp hnow
    exact ⟨p, rfl⟩
  | client number depth =>
    have hlong : depth < (n.client number).stack.length := by
      simpa [frameAt] using Option.isSome_of_eq_some hnow
    have hshort : (m.client number).stack.length ≤ depth := by
      simpa [frameAt] using hfree
    cases restack_of_step hstep number with
    | same stack_eq =>
      rw [stack_eq] at hlong
      omega
    | pushed event_eq => exact absurd event_eq (hcall _ _)
    | replaced was kin stack_eq =>
      rw [stack_eq] at hlong
      rw [was] at hshort
      simp only [List.length_cons] at hlong hshort
      omega
    | popped was stack_eq =>
      rw [stack_eq] at hlong
      rw [was] at hshort
      simp only [List.length_cons] at hshort
      omega

theorem deed?_of_aside (hacting : m.acting event = none)
    (hcall : ∀ number request, event ≠ .call number request) : m.deed? event = none := by
  cases event with
  | call number request => exact absurd rfl (hcall number request)
  | run worker => simp [deed?, hacting]
  | _ => rfl

theorem Audited.step {r : Rates} {deeds : List Deed} (h : Audited r deeds m)
    (hstep : m.step event = some n) : Audited r (deeds ++ (m.deed? event).toList) n where
  coherent := h.coherent.step hstep
  reliable := h.reliable.step h.coherent.owned h.coherent.tidy hstep
  fair := fun _ _ => fair_step h.fair hstep
  balanced := by
    have hbalanced := h.balanced
    rw [Rates.balance] at hbalanced
    rw [r.balance_append]
    have hturnout := turnout_of_step hstep
    have apart : m.acting event = none → r.cache n.cache = r.cache m.cache :=
      fun hacting => hturnout.cache_of_idle r hacting h.coherent.placed
    cases hmove : event with
    | call number request =>
      subst hmove
      have hdeed := deed_of_call r hstep
      have hcache := apart rfl
      omega
    | _ =>
      have hcall : ∀ number request, event ≠ .call number request := by simp [hmove]
      rw [← hmove]
      cases step_cases hstep with
      | aside frames alike acting =>
        rw [deed?_of_aside acting hcall, apart acting, owed_congr r frames]
        simpa using hbalanced
      | opened place frame fresh free now others alike acting =>
        have hupdate := owed_update r others
        have hfresh : r.frame frame = 0 := by
          obtain ⟨p, rfl⟩ := pass_of_begun hstep hcall free now
          cases fresh
          rfl
        rw [deed?_of_aside acting hcall, apart acting]
        rw [free, now] at hupdate
        simp only [Rates.owed, Option.map_none, Option.getD_none, Option.map_some,
          Option.getD_some, hfresh] at hupdate ⊢
        omega
      | ended place access next outcome was after now others same acting provided =>
        obtain ⟨number, rfl⟩ := provided
        have hupdate := owed_update r others
        rw [was, now] at hupdate
        simp only [Rates.owed, Option.map_some, Option.getD_some, r.frame_afterProvider after]
          at hupdate
        simp only [deed?, same, Option.map_none, Option.getD_none]
        omega
      | stepped place frame cache progress was step now others alike acting ran kept =>
        obtain ⟨worker, rfl⟩ := ran
        have hupdate := owed_update r others
        have hgain := r.gain_step step h.coherent.placed (h.coherent.tidy.sheds was)
          (fun ticket key => h.coherent.owned.unregister_eq_none was)
          (fun hold hhold => (h.coherent.tidy.kept was hhold).own) (h.reliable place frame was)
          (fun t heq => h.fair place t (heq ▸ was))
        have hdeed : m.deed? (.run worker) = frame.deed? m.cache := by
          simp only [deed?, acting, Option.bind_some, was]
        have howed : r.owed (some frame) = r.frame frame := rfl
        rw [hdeed, hturnout.cache_of_run r acting was step]
        rw [was, now, howed] at hupdate
        omega

theorem audited_of_run {config : Config} {clock : Instant} {events : List Event}
    (hevictor : ∀ evictor, config.evictor = some evictor → evictor.Origin)
    (hrun : (ofConfig layout config clock).runAll events = some m) (r : Rates) :
    Audited r ((ofConfig layout config clock).deeds events) m := by
  have hheeds : (ofConfig layout config clock).Heeds (fun _ _ => True) events :=
    heeds_of_forall (fun _ _ => trivial) events
  exact observe_induction (P := Audited r) (fun h _ hstep => h.step hstep)
    (audited_ofConfig hevictor clock r) hheeds hrun

end Machine

/-! ## The laws -/

namespace Deed

/-- A lookup that is asked for: whatever the kind, live or else made anew. -/
def isLookup : Deed -> Bool
  | .asked request => request.kind?.isSome
  | _ => false

def isEntered : Deed -> Bool
  | .entered _ => true
  | _ => false

def isProvided : Deed -> Bool
  | .provided _ => true
  | _ => false

def isDropped : Deed -> Bool
  | .dropped _ => true
  | _ => false

def isForgotten : Deed -> Bool
  | .answered .forget (.flag true) => true
  | _ => false

/-- The live value of a key is asked for and there is none. -/
def isNothing : Deed -> Bool
  | .answered (.get _) (.found none) => true
  | _ => false

def isMistaken : Deed -> Bool
  | .answered (.get _) (.panicked (.wrongKind _ _))
  | .answered (.create _ _) (.panicked (.wrongKind _ _)) => true
  | _ => false

def taken (counter : Counter) : Deed -> Nat
  | .reported statistics => statistics.counts.get counter
  | _ => 0

end Deed

/-- The total of a count: all that has been taken of it, and what has come up since. -/
def total (deeds : List Deed) (c : Cache layout) (counter : Counter) : Nat :=
  (deeds.map (Deed.taken counter)).sum + c.tally.get counter

namespace Rates

theorem deed_eq (r : Rates) (d : Deed) :
    r.deed d =
      r.entry * (d.isEntered.toNat - d.isDropped.toNat - d.isForgotten.toNat -
          d.taken .expiration - d.taken .eviction) +
        r.lookup * (d.isLookup.toNat - d.isMistaken.toNat - d.isNothing.toNat -
          d.isProvided.toNat - d.taken .hit) +
        r.miss * (d.taken .miss - d.isNothing.toNat - d.isProvided.toNat) := by
  unfold deed Deed.isEntered Deed.isDropped Deed.isForgotten Deed.taken Deed.isLookup
    Deed.isMistaken Deed.isNothing Deed.isProvided
  cases d with
  | asked request => cases request <;> simp [request, Request.kind?]
  | answered request answer =>
    simp only [Rates.answer]
    cases request <;> cases answer <;> simp
    all_goals split <;> simp_all <;> ring
  | reported statistics =>
    simp [tally, Counter.all, counter]
    ring
  | entered key => simp
  | dropped key => simp
  | provided key =>
    simp
    ring

theorem balance_eq (r : Rates) (deeds : List Deed) (c : Cache layout) :
    r.balance deeds c =
      r.entry * (deeds.countP Deed.isEntered - deeds.countP Deed.isDropped -
          deeds.countP Deed.isForgotten - total deeds c .expiration - total deeds c .eviction -
            c.store.size) +
        r.lookup * (deeds.countP Deed.isLookup - deeds.countP Deed.isMistaken -
          deeds.countP Deed.isNothing - deeds.countP Deed.isProvided - total deeds c .hit) +
        r.miss * (total deeds c .miss - deeds.countP Deed.isNothing -
          deeds.countP Deed.isProvided) := by
  induction deeds with
  | nil =>
    simp [balance, cache, tally, Counter.all, counter, total]
    ring
  | cons d deeds ih =>
    have hcons : r.balance (d :: deeds) c = r.deed d + r.balance deeds c := by
      simp [balance, add_assoc]
    have hcount : ∀ p : Deed → Bool,
        ((d :: deeds).countP p : Int) = (p d).toNat + deeds.countP p := by
      intro p
      cases hp : p d <;> simp [hp, add_comm]
    have htotal : ∀ counter, (total (d :: deeds) c counter : Int) =
        d.taken counter + total deeds c counter := by
      intro counter
      simp [total, add_assoc]
    rw [hcons, ih, r.deed_eq]
    simp only [hcount, htotal]
    ring

end Rates

/-- What is counted, what is there and what was answered account for each other. -/
structure Reconciled (deeds : List Deed) (c : Cache layout) : Prop where
  /-- What was entered is there, has expired, was evicted, was forgotten or was dropped. -/
  entries : deeds.countP Deed.isEntered =
    c.store.size + total deeds c .expiration + total deeds c .eviction +
      deeds.countP Deed.isForgotten + deeds.countP Deed.isDropped
  /-- Every lookup was a hit or a miss, unless it panicked over the kind of the value. -/
  lookups : total deeds c .hit + total deeds c .miss + deeds.countP Deed.isMistaken =
    deeds.countP Deed.isLookup
  /-- Every miss found nothing or made a provider run. -/
  misses : total deeds c .miss = deeds.countP Deed.isNothing + deeds.countP Deed.isProvided

namespace Machine

variable {m : Machine layout}

/-- In every run, the books balance whenever no operation is in progress. -/
theorem idle_books_balance {config : Config} {clock : Instant} {events : List Event}
    (hevictor : ∀ evictor, config.evictor = some evictor → evictor.Origin)
    (hrun : (ofConfig layout config clock).runAll events = some m) (hidle : m.places = []) :
    Reconciled ((ofConfig layout config clock).deeds events) m.cache := by
  have balanced : ∀ r : Rates,
      r.balance ((ofConfig layout config clock).deeds events) m.cache = 0 := by
    intro r
    rw [(audited_of_run hevictor hrun r).balanced, owed_of_idle r hidle]
  constructor
  case entries =>
    have hentries := balanced ⟨1, 0, 0⟩
    simp only [Rates.balance_eq, one_mul, zero_mul, add_zero] at hentries
    omega
  case lookups =>
    have hlookups := balanced ⟨0, 1, -1⟩
    simp only [Rates.balance_eq, one_mul, zero_mul, neg_mul, zero_add] at hlookups
    omega
  case misses =>
    have hmisses := balanced ⟨0, 0, 1⟩
    simp only [Rates.balance_eq, one_mul, zero_mul, zero_add] at hmisses
    omega

/--
A value is made and the counts are taken; then the value is made to expire, and somebody asks for
it.
-/
def expiry : List Event :=
  creation 0 "a" leastTtl .unit ++ [.call 0 .statistics] ++ List.replicate 6 (.run (.client 0)) ++
    [.call 0 (.access "a" (.extend ⟨0⟩))] ++ List.replicate 5 (.run (.client 0)) ++
    [.call 0 (.access "a" (.get .unit))] ++ List.replicate 9 (.run (.client 0))

theorem idle_books_balance_expiry :
    ∃ m, runAll (ofConfig .flat keepLast ⟨0⟩) expiry = some m ∧ m.places = [] ∧
      Reconciled ((ofConfig .flat keepLast ⟨0⟩).deeds expiry) m.cache ∧
      ((ofConfig .flat keepLast ⟨0⟩).deeds expiry).countP Deed.isEntered = 1 ∧
      total ((ofConfig .flat keepLast ⟨0⟩).deeds expiry) m.cache .expiration = 1 ∧
      total ((ofConfig .flat keepLast ⟨0⟩).deeds expiry) m.cache .miss = 2 := by
  have hrun : runAll (ofConfig .flat keepLast ⟨0⟩) expiry = some _ := rfl
  exact ⟨_, hrun, rfl, idle_books_balance origin_keepLast hrun rfl, by decide, by decide, by decide⟩

end Machine

end TtlCache
