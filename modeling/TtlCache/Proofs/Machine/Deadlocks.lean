import Mathlib.Data.String.Basic
import TtlCache.Proofs.Machine.Answers
import TtlCache.Proofs.Machine.Waiting

/-!
# Deadlocks

A blocked thread waits for another thread, which may be blocked itself.  If providers ask for keys
above their own only, keys grow along such a chain as long as it leads from one operation on a key
to the next, so it comes to an end: at a thread that goes on, or at a pass.  If providers ask for
nothing a pass goes on as well, since what it waits for is held by an operation whose provider runs
or has ended.  But a pass that holds expired keys while it waits for another one visits keys in the
order in which they are stored, and may close a circle with a provider that obeys the rule.
-/

namespace TtlCache

variable {layout : Layout}

/-! ## What an operation holds while it waits -/

namespace Frame

theorem keeps_cases {frame : Frame} {key : Key} (h : frame.Keeps key) :
    (∃ a, frame = .access a ∧ a.key = key) ∨ ∃ p, frame = .pass p := by
  obtain ⟨ticket, hclaim⟩ := h
  cases frame with
  | access a =>
    refine Or.inl ⟨a, rfl, ?_⟩
    obtain ⟨own, request, point⟩ := a
    cases point with
    | register => cases hclaim
    | _ => cases List.mem_singleton.mp hclaim <;> rfl
  | pass p => exact Or.inr ⟨p, rfl⟩
  | clock => cases hclaim
  | taking taking => cases hclaim

theorem wants_cases {frame : Frame} {key : Key} (h : frame.Wants key) :
    (∃ a, frame = .access a ∧ a.key = key) ∨ ∃ p, frame = .pass p := by
  obtain ⟨ticket, hwish, hclaim⟩ := h
  cases frame with
  | access a =>
    refine Or.inl ⟨a, rfl, ?_⟩
    obtain ⟨own, request, point⟩ := a
    cases point with
    | acquire own => cases List.mem_singleton.mp hclaim; rfl
    | _ => cases hwish
  | pass p => exact Or.inr ⟨p, rfl⟩
  | clock => cases hwish
  | taking taking => cases hwish

/-- An operation on a key holds nothing while it waits. -/
theorem not_keeps_of_wants {a : Access} {key other : Key} (h : (Frame.access a).Wants key) :
    ¬(Frame.access a).Keeps other := by
  obtain ⟨ticket, hwish, -⟩ := h
  rintro ⟨same, hclaim⟩
  obtain ⟨own, request, point⟩ := a
  cases point with
  | acquire own => cases List.mem_singleton.mp hclaim
  | _ => cases hwish

theorem has_of_keeps {p : Pass} {key : Key} (h : (Frame.pass p).Keeps key) :
    p.has .turn = true := by
  obtain ⟨ticket, hclaim⟩ := h
  cases p <;> first | rfl | cases hclaim

end Frame

theorem Pass.Apart.not_keeps {p : Pass} (h : p.Apart layout) {key : Key}
    (hwants : (Frame.pass p).Wants key) : ¬(Frame.pass p).Keeps key := by
  obtain ⟨ticket, hwish, hclaim⟩ := hwants
  cases p with
  | acquire round own visited keys survey =>
    rcases List.mem_cons.mp hclaim with hown | hmark
    · cases hown
      exact h.unkept
    · obtain ⟨mark, -, heq⟩ := List.mem_map.mp hmark
      cases heq
  | _ => cases hwish

namespace LockTable

def guardsAbove (t : LockTable Key) (above : Key → Key → Prop) [DecidableRel above]
    (key : Key) : Nat :=
  t.guards.rows.countP fun row => decide (above row.2.key key)

theorem guardsAbove_lt {t : LockTable Key} {above : Key → Key → Prop} [DecidableRel above]
    [IsTrans Key above] [Std.Irrefl above] {ticket : Nat} {guard : Guard Key} {key : Key}
    (hguard : t.guards.get? ticket = some guard) (habove : above guard.key key) :
    t.guardsAbove above guard.key < t.guardsAbove above key := by
  have hle : ∀ rows : List (Nat × Guard Key),
      rows.countP (fun row => decide (above row.2.key guard.key)) ≤
        rows.countP fun row => decide (above row.2.key key) := by
    refine fun rows => List.countP_mono_left fun row _ hrow => ?_
    exact decide_eq_true (IsTrans.trans _ _ _ (of_decide_eq_true hrow) habove)
  obtain ⟨before, after, hrows, -, -⟩ := Table.rows_split hguard
  have hself : ¬above guard.key guard.key := irrefl_of above _
  have hbefore := hle before
  have hafter := hle after
  simp only [guardsAbove, hrows, List.countP_append, List.countP_cons, hself, habove,
    decide_false, decide_true, if_true, Bool.false_eq_true, if_false]
  omega

end LockTable

namespace Machine

variable {m n : Machine layout} {worker : Worker}

/-- A thread whose pass waits for a key while it holds others. -/
def Encumbered (m : Machine layout) (worker : Worker) : Prop :=
  ∃ p wanted kept, m.top? worker = some (.pass p) ∧ (Frame.pass p).Wants wanted ∧
    (Frame.pass p).Keeps kept

namespace Coherent

theorem leads_from_pass (h : m.Coherent) {place : Place} {p : Pass} {key : Key}
    (hframe : m.frameAt place = some (.pass p)) (hkeeps : (Frame.pass p).Keeps key) :
    ∃ other, Relation.ReflTransGen m.WaitsFor place.worker other ∧
      (m.Lively other ∨ m.Encumbered other) := by
  have htop := h.nested.top?_eq hframe rfl
  by_cases hlively : m.Lively place.worker
  · exact ⟨_, .refl, Or.inl hlively⟩
  · cases h.progress htop hlively with
    | passing waits lively => exact ⟨_, .single waits, Or.inl lively⟩
    | key wants held_at keeps waits => exact ⟨_, .refl, Or.inr ⟨p, _, key, htop, wants, hkeeps⟩⟩
    | turn queue =>
      cases queue
      cases Frame.has_of_keeps hkeeps

variable {above : Key → Key → Prop} [IsTrans Key above] [Std.Irrefl above]

/--
A key that is held by an operation on it is given back in the end, unless there is a key above it
that a pass stands in the way of.
-/
theorem leads_from_access (h : m.Coherent) (hordered : m.Ordered above) {place : Place}
    {a : Access} (hframe : m.frameAt place = some (.access a))
    (hkeeps : (Frame.access a).Keeps a.key) :
    ∃ other, Relation.ReflTransGen m.WaitsFor place.worker other ∧
      (m.Lively other ∨ m.Encumbered other ∧ ∃ high, above high a.key) := by
  classical
  -- the keys that are waited for grow, and only finitely many keys have guards
  generalize hmeasure : m.cache.locks.guardsAbove above a.key = measure
  induction measure using Nat.strongRecOn generalizing place a with
  | ind measure ih =>
    by_cases hlively : m.Lively place.worker
    · exact ⟨_, .refl, Or.inl hlively⟩
    obtain ⟨number, depth, rfl⟩ : ∃ number depth, place = .client number depth := by
      cases place with
      | client number depth => exact ⟨number, depth, rfl⟩
      | sweeper generation =>
        obtain ⟨p, -, hp⟩ := Option.map_eq_some_iff.mp hframe
        cases hp
    obtain ⟨top, htop⟩ : ∃ top, m.top? (.client number) = some top :=
      ⟨_, List.head?_eq_some_head (List.ne_nil_of_mem (mem_stack_of_frameAt hframe))⟩
    cases h.progress htop hlively with
    | passing waits lively => exact ⟨_, .single waits, Or.inl lively⟩
    | @key key other held wants held_at keeps waits =>
      rcases hordered.climbs hframe htop with rfl | hclimbs
      · exact absurd hkeeps (Frame.not_keeps_of_wants wants)
      rcases Frame.wants_cases wants with ⟨inner, rfl, rfl⟩ | ⟨p, rfl⟩
      · have habove : above inner.key a.key := hclimbs.keys rfl rfl
        rcases Frame.keeps_cases keeps with ⟨next, rfl, hnext⟩ | ⟨p, rfl⟩
        · obtain ⟨ticket, -, hclaim⟩ := wants
          obtain ⟨own, -, hown⟩ := frameAt_of_top? htop
          obtain ⟨guard, hguard, hkey, -⟩ := (h.owned.bears hown).granted hclaim
          have hkey : guard.key = next.key := hkey.trans hnext.symm
          rw [← hnext] at keeps habove
          rw [← hkey] at habove
          have hless := LockTable.guardsAbove_lt hguard habove
          rw [hmeasure, hkey] at hless
          obtain ⟨last, hpath, hlast⟩ := ih _ hless held_at keeps rfl
          refine ⟨last, .head waits hpath, hlast.imp_right fun hpass => ⟨hpass.1, _, habove⟩⟩
        · obtain ⟨last, hpath, hlast⟩ := h.leads_from_pass held_at keeps
          exact ⟨last, .head waits hpath, hlast.imp_right fun hpass => ⟨hpass, _, habove⟩⟩
      · cases hclimbs.noPass
    | turn queue =>
      subst queue
      rcases hordered.climbs hframe htop with heq | hclimbs
      · cases heq
      · cases hclimbs.noPass

/-- What a blocked thread waits for goes on in the end, unless a pass stands in the way. -/
theorem leads_from_blocked (h : m.Coherent) (hordered : m.Ordered above)
    (hblocked : m.Blocked worker) :
    ∃ other, Relation.TransGen m.WaitsFor worker other ∧ (m.Lively other ∨ m.Encumbered other) := by
  have from_holder : ∀ {place held key}, m.frameAt place = some held → held.Keeps key →
      ∃ other, Relation.ReflTransGen m.WaitsFor place.worker other ∧
        (m.Lively other ∨ m.Encumbered other) := by
    intro place held key hheld hkeeps
    rcases Frame.keeps_cases hkeeps with ⟨a, rfl, rfl⟩ | ⟨p, rfl⟩
    · obtain ⟨other, hpath, hother⟩ := h.leads_from_access hordered hheld hkeeps
      exact ⟨other, hpath, hother.imp_right And.left⟩
    · exact h.leads_from_pass hheld hkeeps
  obtain ⟨frame, htop⟩ := Option.isSome_iff_exists.mp hblocked.1
  cases h.progress htop hblocked.2 with
  | passing waits lively => exact ⟨_, .single waits, Or.inl lively⟩
  | key wants held_at keeps waits =>
    obtain ⟨other, hpath, hother⟩ := from_holder held_at keeps
    exact ⟨other, .head' waits hpath, hother⟩
  | @turn place p queue held_at inside waits =>
    -- the pass that has its turn may wait in its turn
    by_cases hlively : m.Lively place.worker
    · exact ⟨_, .single waits, Or.inl hlively⟩
    · cases h.progress (h.nested.top?_eq held_at rfl) hlively with
      | passing next lively => exact ⟨_, .head waits (.single next), Or.inl lively⟩
      | key wants next_at keeps next =>
        obtain ⟨other, hpath, hother⟩ := from_holder next_at keeps
        exact ⟨other, .head waits (.head' next hpath), hother⟩
      | turn queue' =>
        cases queue'
        cases inside

instance : IsTrans Key emptyRelation where
  trans _ _ _ hnone := hnone.elim

/-- If providers ask for nothing then a pass does not stand in the way for long. -/
theorem leads_from_encumbered (h : m.Coherent) (hordered : m.Ordered emptyRelation)
    (hencumbered : m.Encumbered worker) :
    ∃ other, Relation.ReflTransGen m.WaitsFor worker other ∧ m.Lively other := by
  obtain ⟨p, wanted, kept, htop, -, hkept⟩ := hencumbered
  by_cases hlively : m.Lively worker
  · exact ⟨_, .refl, hlively⟩
  cases h.progress htop hlively with
  | passing waits lively => exact ⟨_, .single waits, lively⟩
  | @key key place held wants held_at keeps waits =>
    rcases Frame.keeps_cases keeps with ⟨a, rfl, rfl⟩ | ⟨other, rfl⟩
    · obtain ⟨last, hpath, hlast⟩ := h.leads_from_access hordered held_at keeps
      exact ⟨last, .head waits hpath, hlast.resolve_right fun hpass => hpass.2.choose_spec⟩
    · -- only one pass holds keys, and it does not wait for itself
      obtain ⟨own, -, hown⟩ := frameAt_of_top? htop
      have hsame := (h.sole .turn).unique (has_iff.mpr ⟨_, held_at, Frame.has_of_keeps keeps⟩)
        (has_iff.mpr ⟨_, hown, Frame.has_of_keeps hkept⟩)
      rw [hsame, hown] at held_at
      cases held_at
      exact absurd keeps ((h.orderly own p hown).not_keeps wants)
  | turn queue =>
    cases queue
    cases Frame.has_of_keeps hkept

end Coherent

/-! ## Runs -/

theorem ordered_of_run {above : Key → Key → Prop} [IsTrans Key above] {config : Config}
    {clock : Instant} {events : List Event}
    (hheeds : (ofConfig layout config clock).Heeds (AsksAbove above) events)
    (hrun : (ofConfig layout config clock).runAll events = some m) : m.Ordered above :=
  heeds_induction (P := Ordered above) (fun h hrule hstep => h.step hrule hstep)
    (ordered_ofConfig above config clock) hheeds hrun

/--
If no provider asks for anything then a thread that is blocked, be it by the lock of a key, by
another pass or by a decision about the sweeper, waits for a thread that goes on: one that can take
its next step, or one whose provider runs.  A pass never holds the key that it waits for.
-/
theorem blocked_threads_wait_for_lively_ones {config : Config} {clock : Instant}
    {events : List Event} (hevictor : ∀ evictor, config.evictor = some evictor → evictor.Origin)
    (hheeds : (ofConfig layout config clock).Heeds AsksAlone events)
    (hrun : (ofConfig layout config clock).runAll events = some m) :
    (∀ worker, m.Blocked worker →
      ∃ other, Relation.TransGen m.WaitsFor worker other ∧ m.Lively other) ∧
    ∀ place p key, m.frameAt place = some (.pass p) → (Frame.pass p).Wants key →
      ¬(Frame.pass p).Keeps key := by
  have h := coherent_of_run hevictor hrun
  have hordered : m.Ordered emptyRelation :=
    ordered_of_run (hheeds.mono fun _ _ hrule => hrule.asksAbove _) hrun
  refine ⟨fun worker hblocked => ?_, fun place p key hframe => (h.orderly place p hframe).not_keeps⟩
  obtain ⟨other, hpath, hlively | hencumbered⟩ := h.leads_from_blocked hordered hblocked
  · exact ⟨other, hpath, hlively⟩
  · obtain ⟨last, hrest, hlast⟩ := h.leads_from_encumbered hordered hencumbered
    exact ⟨last, hpath.trans_left hrest, hlast⟩

/--
Two entries have expired.  While a client makes one of them anew, a thread of the sweeper holds the
other one for removal and waits for the first.
-/
def standoff : List Event :=
  creation 0 "b" leastTtl .unit ++ creation 0 "a" leastTtl .unit ++
    [.run (.sweeper 1), .tick defaultInterval, .call 0 (.access "a" (.create .unit leastTtl))] ++
    List.replicate 4 (.run (.client 0)) ++ List.replicate 10 (.run (.sweeper 1))

theorem blocked_threads_wait_for_lively_ones_standoff :
    ∃ m, runAll (ofConfig .flat keepLast ⟨0⟩)
        (standoff ++ [.call 1 .purge, .run (.client 1)]) = some m ∧
      m.wish? (.client 1) = some .pass ∧ m.Blocked (.client 1) ∧ m.Blocked (.sweeper 1) ∧
      (∃ other, Relation.TransGen m.WaitsFor (.client 1) other ∧ m.Lively other) ∧
      ∃ p, m.passes.get? 1 = some p ∧ (Frame.pass p).Wants "a" ∧ (Frame.pass p).Keeps "b" ∧
        ¬(Frame.pass p).Keeps "a" := by
  have hrun := Option.eq_some_of_isSome (o := runAll (ofConfig .flat keepLast ⟨0⟩)
    (standoff ++ [.call 1 .purge, .run (.client 1)])) (by decide +kernel)
  have hheeds : (ofConfig .flat keepLast ⟨0⟩).Heeds AsksAlone
      (standoff ++ [.call 1 .purge, .run (.client 1)]) := by decide +kernel
  have hblocked := blocked_threads_wait_for_lively_ones origin_keepLast hheeds hrun
  let p : Pass := .acquire .expiry 4 "a" [] ⟨⟨defaultInterval.nanos⟩, [⟨3, "b", .expired⟩], false⟩
  have hwants : (Frame.pass p).Wants "a" := ⟨4, rfl, List.mem_cons_self⟩
  refine ⟨_, hrun, by decide +kernel, by decide +kernel, by decide +kernel,
    hblocked.1 _ (by decide +kernel), p, by decide +kernel, hwants,
    ⟨3, List.mem_cons_of_mem _ List.mem_cons_self⟩, ?_⟩
  exact hblocked.2 (.sweeper 1) p "a" (by decide +kernel) hwants

/--
If every provider asks for keys above its own only then a blocked thread waits for one that goes
on, or for a pass that holds keys for removal while it waits for another key.
-/
theorem ordered_providers_block_on_passes_only {above : Key → Key → Prop} [IsTrans Key above]
    [Std.Irrefl above] {config : Config} {clock : Instant} {events : List Event}
    (hevictor : ∀ evictor, config.evictor = some evictor → evictor.Origin)
    (hheeds : (ofConfig layout config clock).Heeds (AsksAbove above) events)
    (hrun : (ofConfig layout config clock).runAll events = some m) (worker : Worker)
    (hblocked : m.Blocked worker) :
    ∃ other, Relation.TransGen m.WaitsFor worker other ∧ (m.Lively other ∨ m.Encumbered other) :=
  (coherent_of_run hevictor hrun).leads_from_blocked (ordered_of_run hheeds hrun) hblocked

/-- The provider of the standoff asks for the entry that the sweeper holds. -/
def circle : List Event := standoff ++ [.call 0 (.access "b" (.get .unit)), .run (.client 0)]

theorem ordered_providers_block_on_passes_only_circle :
    ∃ m, runAll (ofConfig .flat keepLast ⟨0⟩) circle = some m ∧ m.Blocked (.client 0) ∧
      ∃ other, Relation.TransGen m.WaitsFor (.client 0) other ∧
        (m.Lively other ∨ m.Encumbered other) := by
  have hrun := Option.eq_some_of_isSome (o := runAll (ofConfig .flat keepLast ⟨0⟩) circle)
    (by decide +kernel)
  have hheeds : (ofConfig .flat keepLast ⟨0⟩).Heeds (AsksAbove (· > ·)) circle := by
    decide +kernel
  have hblocked := ordered_providers_block_on_passes_only origin_keepLast hheeds hrun
  exact ⟨_, hrun, by decide +kernel, hblocked _ (by decide +kernel)⟩

/--
A circle that a pass closes: the provider of "a" asks for "b", which is above "a" and held by a
pass that waits for "a".  From there on nobody can take a step, and no provider runs.
-/
theorem pass_closes_circle :
    (ofConfig .flat .initial ⟨0⟩).Heeds (AsksAbove (· > ·)) circle ∧
    ∃ m, runAll (ofConfig .flat .initial ⟨0⟩) circle = some m ∧
      m.wish? (.client 0) = some (.mutex 5) ∧ m.wish? (.sweeper 1) = some (.mutex 4) ∧
      ∀ worker, ¬m.Lively worker := by
  have hrun := Option.eq_some_of_isSome (o := runAll (ofConfig .flat .initial ⟨0⟩) circle)
    (by decide +kernel)
  refine ⟨by decide +kernel, _, hrun, by decide +kernel, by decide +kernel,
    not_lively_of_known ?_ ?_⟩
  · decide +kernel
  · decide +kernel

end Machine

end TtlCache
