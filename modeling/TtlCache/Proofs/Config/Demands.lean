import TtlCache.Config
import TtlCache.Proofs.Ranking.Order
import TtlCache.Proofs.Ranking.Tracking

/-!
# What a configuration is asked for

A step asks for a built-in ranking, hands over an evictor or sets the interval, and may be written
in more than one way; `demand` forgets the way.  A demand is refused for what is wrong with it, or,
when nothing is, because it is the second one that brings an evictor.  A list of steps is accepted
exactly if none of its demands is refused after the ones before it.
-/

namespace TtlCache

inductive Demand where
  | ranking (policy : Policy) (capacity : Nat)
  | handed (evictor : Evictor)
  | interval (pause : Duration)

def Setting.named : Setting → Config.Step
  | .recency capacity => .keepRecent capacity
  | .frequency capacity => .keepFrequent capacity
  | .interval pause => .setInterval pause

def Config.Step.demand : Config.Step → Demand
  | .setting (.recency capacity) | .keepRecent capacity => .ranking .recency capacity
  | .setting (.frequency capacity) | .keepFrequent capacity => .ranking .frequency capacity
  | .setting (.interval pause) | .setInterval pause => .interval pause
  | .setEvictor evictor => .handed evictor

namespace Demand

variable {before demands : List Demand} {demand : Demand}

def bringsEvictor : Demand → Bool
  | .ranking _ _ | .handed _ => true
  | .interval _ => false

def pause? : Demand → Option Duration
  | .interval pause => some pause
  | .ranking _ _ | .handed _ => none

/-- The evictor that is set for a demand; none for a ranking that cannot be made. -/
def evictor? : Demand → Option Evictor
  | .ranking policy capacity => (Evictor.builtIn policy capacity).toOption
  | .handed evictor => some evictor
  | .interval _ => none

/-- What is wrong with a demand, whatever was asked for before it. -/
def flaw? : Demand → Option Panic
  | .ranking policy capacity => policy.flaw? capacity
  | .handed _ => none
  | .interval pause => if pause.nanos = 0 then some .zeroInterval else none

/-- Why a demand is refused after the ones before it.  Its own flaw comes first. -/
def refusal? (before : List Demand) (demand : Demand) : Option Panic :=
  match demand.flaw? with
  | some panic => some panic
  | none =>
      if demand.bringsEvictor && before.any bringsEvictor then some .evictorAlreadySet else none

/-- No demand of a list is refused after the ones before it. -/
def Granted (demands : List Demand) : Prop :=
  ∀ before demand after, demands = before ++ demand :: after → refusal? before demand = none

theorem refusal?_eq_none_iff :
    refusal? before demand = none ↔
      demand.flaw? = none ∧ (demand.bringsEvictor = true → before.any bringsEvictor = false) := by
  rw [refusal?]
  cases demand.flaw? <;> simp

theorem granted_nil : Granted [] := fun before _ _ h => by simp at h

theorem Granted.of_append {after : List Demand} (h : Granted (before ++ after)) : Granted before :=
  fun early other late heq =>
    h early other (late ++ after) (by rw [heq, List.append_assoc, List.cons_append])

theorem granted_concat :
    Granted (before ++ [demand]) ↔ Granted before ∧ refusal? before demand = none := by
  constructor
  · exact fun h => ⟨h.of_append, h before demand [] rfl⟩
  · rintro ⟨hbefore, hdemand⟩ early other late heq
    -- the split is at the new demand, or among the ones before it
    rcases List.eq_nil_or_concat late with rfl | ⟨late, last, rfl⟩
    · obtain ⟨rfl, hsame⟩ := List.append_inj' heq rfl
      exact List.singleton_inj.mp hsame ▸ hdemand
    · rw [List.concat_eq_append, ← List.cons_append, ← List.append_assoc] at heq
      exact hbefore early other late (List.append_inj_left' heq rfl)

theorem granted_iff :
    Granted demands ↔
      (∀ demand ∈ demands, demand.flaw? = none) ∧ demands.countP bringsEvictor ≤ 1 := by
  induction demands using List.reverseRecOn with
  | nil => simp [granted_nil]
  | append_singleton before demand ih =>
    have hany : before.any bringsEvictor = false ↔ before.countP bringsEvictor = 0 := by
      rw [List.countP_eq_zero, List.any_eq_false]
    have hcount : before.countP bringsEvictor + (if demand.bringsEvictor then 1 else 0) ≤ 1 ↔
        before.countP bringsEvictor ≤ 1 ∧
          (demand.bringsEvictor = true → before.countP bringsEvictor = 0) := by
      generalize before.countP bringsEvictor = count
      cases demand.bringsEvictor
      · simp
      · simp; omega
    rw [granted_concat, ih, refusal?_eq_none_iff, hany, List.countP_append, List.countP_singleton,
      hcount, List.forall_mem_append, List.forall_mem_singleton, and_and_and_comm]

/-- A list of demands is granted, or there is a first demand in it that is refused. -/
theorem granted_or_refused (demands : List Demand) :
    Granted demands ∨ ∃ before demand after panic,
      demands = before ++ demand :: after ∧ Granted before ∧
        refusal? before demand = some panic := by
  induction demands using List.reverseRecOn with
  | nil => exact .inl granted_nil
  | append_singleton before demand ih =>
    rcases ih with hbefore | ⟨early, other, late, panic, rfl, hearly, hother⟩
    · cases hdemand : refusal? before demand with
      | none => exact .inl (granted_concat.mpr ⟨hbefore, hdemand⟩)
      | some panic => exact .inr ⟨before, demand, [], panic, rfl, hbefore, hdemand⟩
    · exact .inr ⟨early, other, late ++ [demand], panic, by simp, hearly, hother⟩

theorem evictor?_ranking {policy : Policy} {capacity : Nat} (h : policy.flaw? capacity = none) :
    evictor? (.ranking policy capacity) =
      some { ranking := Ranking.fresh capacity policy, custom := none } := by
  rw [evictor?, Evictor.builtIn_eq, Policy.makes, h]
  rfl

theorem isSome_evictor? (h : demand.flaw? = none) :
    demand.evictor?.isSome = demand.bringsEvictor := by
  cases demand with
  | ranking policy capacity => rw [evictor?_ranking h]; rfl
  | handed evictor => rfl
  | interval pause => rfl

theorem Granted.head?_eq_none_iff (h : Granted demands) :
    (demands.filterMap evictor?).head? = none ↔ demands.any bringsEvictor = false := by
  rw [List.head?_eq_none_iff, List.filterMap_eq_nil_iff, List.any_eq_false]
  refine forall₂_congr fun demand hdemand => ?_
  rw [← isSome_evictor? ((granted_iff.mp h).1 demand hdemand), Option.not_isSome_iff_eq_none]

theorem forall_flaw?_iff :
    (∀ demand ∈ demands, demand.flaw? = none) ↔
      (∀ policy capacity, .ranking policy capacity ∈ demands →
        capacity ≠ 0 ∧ capacity ≤ Room.mostKeys) ∧
        ∀ pause, .interval pause ∈ demands → pause.nanos ≠ 0 := by
  constructor
  · refine fun h => ⟨fun policy capacity hmem => ?_, fun pause hmem hzero => ?_⟩
    · exact Policy.flaw?_eq_none_iff.mp (h _ hmem)
    · simpa [flaw?, hzero] using h _ hmem
  · rintro ⟨hcapacity, hpause⟩ demand hmem
    cases demand with
    | ranking policy capacity =>
      exact Policy.flaw?_eq_none_iff.mpr (hcapacity policy capacity hmem)
    | handed evictor => rfl
    | interval pause => exact if_neg (hpause pause hmem)

/-- The same demands for an evictor and the same ones for an interval, however mixed. -/
structure SameApart (demands others : List Demand) : Prop where
  evictors : others.filter bringsEvictor = demands.filter bringsEvictor
  pauses : others.filterMap pause? = demands.filterMap pause?

namespace SameApart

variable {others : List Demand}

theorem mem_of_mem (h : SameApart demands others) (hmem : demand ∈ others) : demand ∈ demands := by
  cases hbrings : demand.bringsEvictor with
  | true =>
    have hfilter : demand ∈ others.filter bringsEvictor := List.mem_filter.mpr ⟨hmem, hbrings⟩
    rw [h.evictors] at hfilter
    exact (List.mem_filter.mp hfilter).1
  | false =>
    obtain ⟨pause, rfl⟩ : ∃ pause, demand = .interval pause := by
      cases demand with
      | interval pause => exact ⟨pause, rfl⟩
      | _ => cases hbrings
    have hpause : pause ∈ others.filterMap pause? := List.mem_filterMap.mpr ⟨_, hmem, rfl⟩
    rw [h.pauses] at hpause
    obtain ⟨other, hother, hsome⟩ := List.mem_filterMap.mp hpause
    cases other <;> cases hsome
    exact hother

theorem granted (h : SameApart demands others) (hgranted : Granted demands) : Granted others := by
  obtain ⟨hflaws, honce⟩ := granted_iff.mp hgranted
  refine granted_iff.mpr ⟨fun demand hmem => hflaws demand (h.mem_of_mem hmem), ?_⟩
  rwa [List.countP_eq_length_filter, h.evictors, ← List.countP_eq_length_filter]

end SameApart

theorem filterMap_evictor?_filter (demands : List Demand) :
    (demands.filter bringsEvictor).filterMap evictor? = demands.filterMap evictor? := by
  rw [List.filterMap_filter]
  refine congrArg (List.filterMap · demands) (funext fun demand => ?_)
  cases demand <;> rfl

end Demand

namespace Config

open Demand

variable {config : Config} {before demands : List Demand} {demand : Demand}

def grant (config : Config) : Demand → Except Panic Config
  | .ranking policy capacity => do config.setEvictor (← Evictor.builtIn policy capacity)
  | .handed evictor => config.setEvictor evictor
  | .interval pause => config.setInterval pause

/-- The configuration with the evictor that was brought first and the interval set last. -/
def ofDemands (demands : List Demand) : Config where
  evictor := (demands.filterMap evictor?).head?
  interval := (demands.filterMap pause?).getLast?.getD defaultInterval

theorem take_eq_grant (config : Config) (step : Step) :
    config.take step = config.grant step.demand := by
  cases step with
  | setting setting => cases setting <;> rfl
  | _ => rfl

theorem takeAll_eq_foldlM (config : Config) (steps : List Step) :
    config.takeAll steps = (steps.map Step.demand).foldlM grant config := by
  induction steps generalizing config with
  | nil => rfl
  | cons step rest ih => simp only [takeAll, List.map_cons, List.foldlM_cons, take_eq_grant, ih]

theorem ofSettings_eq_foldlM (settings : List Setting) :
    ofSettings settings =
      (settings.map fun s => Step.demand (.setting s)).foldlM grant initial := by
  rw [ofSettings, List.foldlM_map]
  exact congrArg (List.foldlM · initial settings)
    (funext fun config => funext fun s => take_eq_grant config (.setting s))

/-- A later evictor does not displace an earlier one, a later interval does. -/
theorem ofDemands_concat (before : List Demand) (demand : Demand) :
    ofDemands (before ++ [demand]) =
      { evictor := (ofDemands before).evictor.or demand.evictor?
        interval := demand.pause?.getD (ofDemands before).interval } := by
  simp only [ofDemands, List.filterMap_append, List.head?_append, List.getLast?_append]
  congr 1
  · cases h : demand.evictor? <;> simp [h]
  · cases h : demand.pause? <;> simp [h]

theorem setEvictor_ofDemands (hbefore : Granted before) (hflaw : demand.flaw? = none)
    {evictor : Evictor} (hevictor : demand.evictor? = some evictor) :
    (ofDemands before).setEvictor evictor =
      match refusal? before demand with
      | some panic => .error panic
      | none => .ok (ofDemands (before ++ [demand])) := by
  have hbrings : demand.bringsEvictor = true := by rw [← isSome_evictor? hflaw, hevictor]; rfl
  have hpause : demand.pause? = none := by cases demand <;> first | rfl | cases hbrings
  have hset : (ofDemands before).evictor = none ↔ before.any bringsEvictor = false :=
    hbefore.head?_eq_none_iff
  cases hany : before.any bringsEvictor with
  | false =>
    have hnone := hset.mpr hany
    simp [setEvictor, refusal?, ofDemands_concat, hflaw, hany, hnone, hevictor, hpause]
  | true =>
    have hsome : (ofDemands before).evictor ≠ none := fun hnone => by simp [hset.mp hnone] at hany
    obtain ⟨other, hother⟩ := Option.ne_none_iff_exists'.mp hsome
    simp [setEvictor, refusal?, hflaw, hany, hother, hbrings]

theorem grant_ofDemands (hbefore : Granted before) (demand : Demand) :
    (ofDemands before).grant demand =
      match refusal? before demand with
      | some panic => .error panic
      | none => .ok (ofDemands (before ++ [demand])) := by
  cases demand with
  | ranking policy capacity =>
    cases hflaw : policy.flaw? capacity with
    | some panic => rw [grant, Evictor.builtIn_eq, Policy.makes, refusal?, flaw?, hflaw]; rfl
    | none =>
      have hunflawed : flaw? (.ranking policy capacity) = none := hflaw
      rw [← setEvictor_ofDemands hbefore hunflawed (evictor?_ranking hflaw), grant,
        Evictor.builtIn_eq, Policy.makes, hflaw]
      rfl
  | handed evictor => exact setEvictor_ofDemands hbefore rfl rfl
  | interval pause =>
    rw [grant, setInterval, refusal?, flaw?]
    by_cases hzero : pause.nanos = 0
    · rw [if_pos hzero, if_pos hzero]
    · rw [if_neg hzero, if_neg hzero, ofDemands_concat]
      simp [bringsEvictor, evictor?, pause?]

theorem foldlM_of_granted (h : Granted demands) :
    demands.foldlM grant initial = .ok (ofDemands demands) := by
  induction demands using List.reverseRecOn with
  | nil => rfl
  | append_singleton before demand ih =>
    obtain ⟨hbefore, hdemand⟩ := granted_concat.mp h
    rw [List.foldlM_append, ih hbefore]
    simp only [List.foldlM_cons, List.foldlM_nil, bind, Except.bind, grant_ofDemands hbefore,
      hdemand, pure, Except.pure]

/-- Nothing after the first demand that is refused is looked at. -/
theorem foldlM_of_refused {after : List Demand} {panic : Panic} (hbefore : Granted before)
    (h : refusal? before demand = some panic) :
    (before ++ demand :: after).foldlM grant initial = .error panic := by
  rw [List.foldlM_append, foldlM_of_granted hbefore]
  simp only [List.foldlM_cons, bind, Except.bind, grant_ofDemands hbefore, h]

theorem foldlM_eq_ok_iff :
    demands.foldlM grant initial = .ok config ↔ Granted demands ∧ ofDemands demands = config := by
  constructor
  · intro h
    rcases granted_or_refused demands with
      hgranted | ⟨before, demand, after, panic, rfl, hbefore, hdemand⟩
    · rw [foldlM_of_granted hgranted] at h
      exact ⟨hgranted, Except.ok.inj h⟩
    · rw [foldlM_of_refused hbefore hdemand] at h
      cases h
  · rintro ⟨hgranted, rfl⟩
    exact foldlM_of_granted hgranted

theorem foldlM_eq_error_iff {panic : Panic} :
    demands.foldlM grant initial = .error panic ↔ ∃ before demand after,
      demands = before ++ demand :: after ∧ Granted before ∧
        refusal? before demand = some panic := by
  constructor
  · intro h
    rcases granted_or_refused demands with
      hgranted | ⟨before, demand, after, other, rfl, hbefore, hdemand⟩
    · rw [foldlM_of_granted hgranted] at h
      cases h
    · rw [foldlM_of_refused hbefore hdemand] at h
      cases h
      exact ⟨before, demand, after, rfl, hbefore, hdemand⟩
  · rintro ⟨before, demand, after, rfl, hbefore, hdemand⟩
    exact foldlM_of_refused hbefore hdemand

theorem ofDemands_congr {others : List Demand} (h : SameApart demands others) :
    ofDemands others = ofDemands demands := by
  rw [ofDemands, ofDemands, ← filterMap_evictor?_filter, h.evictors, filterMap_evictor?_filter,
    h.pauses]

theorem evictor_ofDemands {evictor : Evictor} (hgranted : Granted demands) (hmem : demand ∈ demands)
    (h : demand.evictor? = some evictor) : (ofDemands demands).evictor = some evictor := by
  obtain ⟨before, after, rfl⟩ := List.append_of_mem hmem
  have hbrings : demand.bringsEvictor = true := by
    rw [← isSome_evictor? ((granted_iff.mp hgranted).1 demand hmem), h]; rfl
  -- the demand is the first to bring one, as it was not refused
  obtain ⟨-, hfirst⟩ := refusal?_eq_none_iff.mp (hgranted before demand after rfl)
  have hnone := hgranted.of_append.head?_eq_none_iff.mpr (hfirst hbrings)
  simp only [ofDemands, List.filterMap_append, List.head?_append, hnone, Option.none_or,
    List.filterMap_cons_some h, List.head?_cons]

theorem evictor_ofDemands_ranking {policy : Policy} {capacity : Nat} (hgranted : Granted demands)
    (hmem : .ranking policy capacity ∈ demands) :
    ∃ evictor, (ofDemands demands).evictor = some evictor ∧ evictor.ranking.policy = policy ∧
      evictor.ranking.capacity = capacity ∧ evictor.worst = [] ∧ evictor.custom = none := by
  have hflaw : policy.flaw? capacity = none := (granted_iff.mp hgranted).1 _ hmem
  have hbuilt := (Evictor.builtIn_eq policy capacity).trans
    (Policy.makes_eq_ok_iff.mpr ⟨hflaw, rfl⟩)
  obtain ⟨hpolicy, hcapacity⟩ := Evictor.ranking_builtIn hbuilt
  obtain ⟨-, hworst, hcustom⟩ := Evictor.builtIn_spec hbuilt
  exact ⟨_, evictor_ofDemands hgranted hmem (evictor?_ranking hflaw), hpolicy, hcapacity, hworst,
    hcustom⟩

/--
Steps are accepted exactly if every capacity and every interval is positive, no capacity is above
the greatest one and at most one step brings an evictor.  The configuration then has that evictor
and the interval set last, however the two are mixed.  Otherwise the panic is that of the first step
that is refused.  Settings do the same as data, one by one and by name.
-/
theorem steps_are_validated (steps : List Step) :
    ((∃ config, initial.takeAll steps = .ok config) ↔
      (∀ policy capacity, .ranking policy capacity ∈ steps.map Step.demand →
        capacity ≠ 0 ∧ capacity ≤ Room.mostKeys) ∧
      (∀ pause, .interval pause ∈ steps.map Step.demand → pause.nanos ≠ 0) ∧
      (steps.map Step.demand).countP bringsEvictor ≤ 1) ∧
    (∀ config, initial.takeAll steps = .ok config →
      (∀ policy capacity, .ranking policy capacity ∈ steps.map Step.demand →
        ∃ evictor, config.evictor = some evictor ∧ evictor.ranking.policy = policy ∧
          evictor.ranking.capacity = capacity ∧ evictor.worst = [] ∧ evictor.custom = none) ∧
      (∀ evictor, .handed evictor ∈ steps.map Step.demand → config.evictor = some evictor) ∧
      ((steps.map Step.demand).countP bringsEvictor = 0 → config.evictor = none) ∧
      config.interval = ((steps.map Step.demand).filterMap pause?).getLast?.getD defaultInterval ∧
      ∀ others : List Step, SameApart (steps.map Step.demand) (others.map Step.demand) →
        initial.takeAll others = .ok config) ∧
    (∀ panic, initial.takeAll steps = .error panic ↔ ∃ before demand after,
      steps.map Step.demand = before ++ demand :: after ∧ Granted before ∧
        refusal? before demand = some panic) ∧
    (∀ others : List Step, others.map Step.demand = steps.map Step.demand →
      initial.takeAll others = initial.takeAll steps) ∧
    ∀ settings : List Setting,
      ofSettings settings = initial.takeAll (settings.map .setting) ∧
      ofSettings settings = initial.takeAll (settings.map Setting.named) := by
  simp only [takeAll_eq_foldlM, foldlM_eq_ok_iff, ofSettings_eq_foldlM]
  refine ⟨?_, ?_, fun _ => foldlM_eq_error_iff, fun others h => by rw [h], fun settings => ⟨?_, ?_⟩⟩
  · rw [exists_and_left, ← and_assoc, ← forall_flaw?_iff, ← granted_iff]
    exact and_iff_left ⟨_, rfl⟩
  · rintro _ ⟨hgranted, rfl⟩
    refine ⟨fun policy capacity => evictor_ofDemands_ranking hgranted,
      fun evictor hmem => evictor_ofDemands hgranted hmem rfl, fun hnone => ?_, rfl,
      fun others hsame => ⟨hsame.granted hgranted, ofDemands_congr hsame⟩⟩
    rw [List.countP_eq_zero, ← List.any_eq_false] at hnone
    exact hgranted.head?_eq_none_iff.mpr hnone
  · rw [List.map_map]; rfl
  · rw [List.map_map]
    refine congrArg (List.foldlM grant initial) (List.map_congr_left fun setting _ => ?_)
    cases setting <;> rfl

/-- A capacity of zero is reported although an evictor is set already. -/
theorem steps_are_validated_mixed :
    (∃ config evictor,
      initial.takeAll [.setInterval (.ofSeconds 1), .setting (.frequency 5),
        .setInterval (.ofSeconds 2)] = .ok config ∧
      config.interval = .ofSeconds 2 ∧ config.evictor = some evictor ∧
      evictor.ranking.policy = .frequency ∧ evictor.ranking.capacity = 5) ∧
    initial.takeAll [.keepRecent 2, .keepFrequent 0] = .error .zeroCapacity := by
  constructor
  · obtain ⟨haccepted, hconfig, -⟩ := steps_are_validated [.setInterval (.ofSeconds 1),
      .setting (.frequency 5), .setInterval (.ofSeconds 2)]
    have hcapacities : ∀ policy capacity, Demand.ranking policy capacity ∈
        [.interval (.ofSeconds 1), .ranking .frequency 5, .interval (.ofSeconds 2)] →
        capacity ≠ 0 ∧ capacity ≤ Room.mostKeys := by
      simp [Room.mostKeys]
    have hpauses : ∀ pause, Demand.interval pause ∈
        [.interval (.ofSeconds 1), .ranking .frequency 5, .interval (.ofSeconds 2)] →
        pause.nanos ≠ 0 := by
      simp [Duration.ofSeconds, nanosPerSecond]
    obtain ⟨config, h⟩ := haccepted.mpr ⟨hcapacities, hpauses, by decide⟩
    obtain ⟨hranking, -, -, hinterval, -⟩ := hconfig config h
    obtain ⟨evictor, hevictor, hpolicy, hcapacity, -⟩ :=
      hranking .frequency 5 (List.mem_cons_of_mem _ List.mem_cons_self)
    exact ⟨config, evictor, h, hinterval, hevictor, hpolicy, hcapacity⟩
  · obtain ⟨-, -, hrefused, -⟩ := steps_are_validated [.keepRecent 2, .keepFrequent 0]
    have hgranted : Granted [.ranking .recency 2] := granted_concat.mpr ⟨granted_nil, rfl⟩
    exact (hrefused .zeroCapacity).mpr
      ⟨[.ranking .recency 2], .ranking .frequency 0, [], rfl, hgranted, rfl⟩

/-- A capacity that is meant to be no limit is refused, as there is no room for that many keys. -/
theorem unlimited_capacity_is_refused :
    let steps := [Step.setting (.recency Room.mostBytes)]
    (∀ policy capacity, .ranking policy capacity ∈ steps.map Step.demand → capacity ≠ 0) ∧
      (∀ pause, .interval pause ∈ steps.map Step.demand → pause.nanos ≠ 0) ∧
      (steps.map Step.demand).countP bringsEvictor ≤ 1 ∧
      initial.takeAll steps = .error .listTooLarge := by
  refine ⟨?_, ?_, by decide, ?_⟩
  · simp [Step.demand, Room.mostBytes]
  · simp [Step.demand]
  · rw [takeAll_eq_foldlM]
    exact foldlM_of_refused granted_nil rfl

end Config

end TtlCache
