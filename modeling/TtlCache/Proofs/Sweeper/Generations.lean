import Mathlib.Data.List.Nodup
import TtlCache.Sweeper.Timetable

/-!
# Generations of a sweeper

A sweeper may be stopped and started again while threads of earlier generations still sleep, run a
pass or come to their end.  In whatever order all of them take their steps, a running sweeper has
a thread of the latest generation behind it.  A thread that is not current has retired: it never
becomes current again, it begins no further pass, and its end is not noticed.
-/

namespace TtlCache

inductive SweeperStep where
  | start
  | startInVain
  | beginStop
  | endStop (idle : Bool)
  | close
  | arm (generation : Nat) (now : Instant)
  | wake (generation : Nat) (now : Instant)
  | endPass (generation : Nat) (outcome : PassOutcome)
  | exit (generation : Nat)
  deriving DecidableEq, Repr

namespace Sweeper

/-- What a step makes of a sweeper, if it can happen; only a decision that has begun can end. -/
def perform (s : Sweeper) : SweeperStep -> Option Sweeper
  | .start => s.start
  | .startInVain => s.startInVain
  | .beginStop => s.beginStop
  | .endStop idle => if s.deciding then some (s.endStop idle) else none
  | .close => s.close
  | .arm generation now => s.arm generation now
  | .wake generation now => s.wake generation now
  | .endPass generation outcome => s.endPass generation (decide (outcome = .again))
  | .exit generation => s.exit generation

def runAll (s : Sweeper) (steps : List SweeperStep) : Option Sweeper := steps.foldlM perform s

def Begins (s t : Sweeper) (generation : Nat) : Prop :=
  s.threads.get? generation ≠ some .passing ∧ t.threads.get? generation = some .passing

/-- Whether a thread has existed and is not current. -/
def Retired (s : Sweeper) (generation : Nat) : Prop :=
  generation ≤ s.generation ∧ s.isCurrent generation = false

/-- Whether no pass of a thread begins from now on. -/
def Done (s : Sweeper) (generation : Nat) : Prop :=
  ∀ steps t action u, s.runAll steps = some t → t.perform action = some u →
    ¬t.Begins u generation

variable {s t : Sweeper} {action : SweeperStep} {generation : Nat}

theorem isCurrent_iff :
    s.isCurrent generation = true ↔
      s.shutdown = false ∧ s.running = true ∧ s.generation = generation := by
  simp [isCurrent, and_assoc]

theorem running_of_endStop {idle : Bool} (h : (s.endStop idle).running = true) :
    s.running = true :=
  (Bool.and_eq_true_iff.mp h).1

/-! ## What a step can be -/

/-- What a start or a decision to stop can do. -/
inductive Steer (s : Sweeper) : Sweeper -> Prop where
  | still : Steer s s
  | started (idle : s.running = false) (opened : s.shutdown = false) :
      Steer s
        { s with
          running := true
          generation := s.generation + 1
          threads := s.threads.insert (s.generation + 1) .arming }
  | vain (idle : s.running = false) :
      Steer s { s with running := false, generation := s.generation + 1 }
  | begun : Steer s { s with deciding := true }
  | decided (idle : Bool) : Steer s (s.endStop idle)

/-- What a thread can do. -/
inductive Tread (s : Sweeper) (generation : Nat) : Sweeper -> Prop where
  /-- The thread goes on; only a current one begins a pass, and only another one ends without. -/
  | moved {was now : SweeperStage} (thread : s.threads.get? generation = some was)
      (checked : now = .passing → s.isCurrent generation = true ∧ s.deciding = false)
      (spent : now = .ending → was = .passing ∨ s.isCurrent generation = false) :
      Tread s generation (s.advance generation now)
  | noticed (thread : s.threads.get? generation = some .ending) :
      Tread s generation
        { s with
          running := s.running && !decide (s.generation = generation)
          threads := s.threads.erase generation }

/-- What a step can do. -/
inductive Shift (s : Sweeper) : Sweeper -> Prop where
  | steered {t : Sweeper} (steer : s.Steer t) : Shift s t
  | closed : Shift s { s with shutdown := true, running := false }
  | trod {generation : Nat} {t : Sweeper} (tread : s.Tread generation t) : Shift s t

theorem steer_of_start (h : s.start = some t) : s.Steer t := by
  unfold start at h
  split at h
  · cases h
  · split at h
    · cases h
      exact .still
    · next hidle =>
      cases h
      simp only [Bool.or_eq_true, not_or, Bool.not_eq_true] at hidle
      exact .started hidle.1 hidle.2

theorem steer_of_startInVain (h : s.startInVain = some t) : s.Steer t := by
  unfold startInVain at h
  split at h
  · cases h
  · split at h
    · cases h
      exact .still
    · next hidle =>
      cases h
      simp only [Bool.or_eq_true, not_or, Bool.not_eq_true] at hidle
      exact .vain hidle.1

theorem beginStop_eq_some_iff :
    s.beginStop = some t ↔ s.deciding = false ∧ t = { s with deciding := true } := by
  unfold beginStop
  cases s.deciding <;> simp [eq_comm]

theorem close_eq_some_iff :
    s.close = some t ↔ s.deciding = false ∧ t = { s with shutdown := true, running := false } := by
  unfold close
  cases s.deciding <;> simp [eq_comm]

theorem tread_of_arm {now : Instant} (h : s.arm generation now = some t) :
    s.Tread generation t := by
  unfold arm at h
  split at h
  · cases h
  · split at h
    · next hthread =>
      cases h
      exact .moved hthread (by simp) (by simp)
    · cases h

theorem tread_of_wake {now : Instant} (h : s.wake generation now = some t) :
    s.Tread generation t := by
  unfold wake at h
  split at h
  · cases h
  · next hdeciding =>
    split at h
    · next deadline hthread =>
      cases hcurrent : s.isCurrent generation with
      | false =>
        simp only [hcurrent, Bool.not_false, if_true, Option.some.injEq] at h
        subst h
        exact .moved hthread (by simp) fun _ => Or.inr hcurrent
      | true =>
        simp only [hcurrent, Bool.not_true, Bool.false_eq_true, if_false,
          Option.ite_none_right_eq_some, Option.some.injEq] at h
        obtain ⟨-, rfl⟩ := h
        exact .moved hthread (fun _ => ⟨hcurrent, by simpa using hdeciding⟩) (by simp)
    · cases h

theorem tread_of_endPass {again : Bool} (h : s.endPass generation again = some t) :
    s.Tread generation t := by
  unfold endPass at h
  split at h
  · next hthread =>
    cases h
    refine .moved hthread ?_ fun _ => Or.inl rfl
    split <;> simp
  · cases h

theorem tread_of_exit (h : s.exit generation = some t) : s.Tread generation t := by
  unfold exit at h
  split at h
  · cases h
  · split at h
    · next hthread =>
      cases h
      exact .noticed hthread
    · cases h

theorem tread_of_step {now : Instant} (h : s.step generation now = some t) :
    s.Tread generation t := by
  unfold step at h
  split at h
  · exact tread_of_arm h
  · exact tread_of_wake h
  · exact tread_of_exit h
  · cases h
  · cases h

theorem shift_of_perform (h : s.perform action = some t) : s.Shift t := by
  cases action with
  | start => exact .steered (steer_of_start h)
  | startInVain => exact .steered (steer_of_startInVain h)
  | beginStop =>
    obtain ⟨-, rfl⟩ := beginStop_eq_some_iff.mp h
    exact .steered .begun
  | endStop idle =>
    simp only [perform, Option.ite_none_right_eq_some, Option.some.injEq] at h
    obtain ⟨-, rfl⟩ := h
    exact .steered (.decided idle)
  | close =>
    obtain ⟨-, rfl⟩ := close_eq_some_iff.mp h
    exact .closed
  | arm generation now => exact .trod (tread_of_arm h)
  | wake generation now => exact .trod (tread_of_wake h)
  | endPass generation outcome => exact .trod (tread_of_endPass h)
  | exit generation => exact .trod (tread_of_exit h)

namespace Tread

theorem live (h : s.Tread generation t) : generation ∈ s.threads.keys := by
  cases h <;> exact Table.mem_keys_iff.mpr (Option.isSome_of_eq_some ‹_›)

theorem deciding_eq (h : s.Tread generation t) : t.deciding = s.deciding := by
  cases h <;> rfl

theorem generation_eq (h : s.Tread generation t) : t.generation = s.generation := by
  cases h <;> rfl

theorem shutdown_eq (h : s.Tread generation t) : t.shutdown = s.shutdown := by
  cases h <;> rfl

theorem running_of_running (h : s.Tread generation t) (hrunning : t.running = true) :
    s.running = true := by
  cases h with
  | moved => exact hrunning
  | noticed => exact (Bool.and_eq_true_iff.mp hrunning).1

theorem get?_of_ne (h : s.Tread generation t) {other : Nat} (hother : other ≠ generation) :
    t.threads.get? other = s.threads.get? other := by
  cases h with
  | moved => rw [advance, Table.get?_insert, if_neg hother]
  | noticed => rw [Table.get?_erase, if_neg hother]

theorem isCurrent_of_ending (h : s.Tread generation t)
    (hstage : s.threads.get? generation ≠ some .passing)
    (hending : t.threads.get? generation = some .ending) : s.isCurrent generation = false := by
  cases h with
  | moved thread checked spent =>
    rw [advance, Table.get?_insert, if_pos rfl] at hending
    rcases spent (Option.some.inj hending) with rfl | hcurrent
    · exact absurd thread hstage
    · exact hcurrent
  | noticed thread =>
    rw [Table.get?_erase, if_pos rfl] at hending
    cases hending

end Tread

/-! ## The invariant -/

/-- What holds of a sweeper between any two steps. -/
structure Sound (s : Sweeper) : Prop where
  bounded : ∀ {generation}, generation ∈ s.threads.keys → generation ≤ s.generation
  /-- Whoever sees the sweeper running may rely on a thread of the latest generation. -/
  backed : s.running = true → s.generation ∈ s.threads.keys
  opened : s.running = true → s.shutdown = false

theorem sound_idle (interval : Duration) : (idle interval).Sound := by
  constructor <;> simp [idle]

namespace Sound

theorem steer (h : s.Sound) (hsteer : s.Steer t) : t.Sound := by
  cases hsteer with
  | still => exact h
  | started idle opened =>
    refine ⟨?_, fun _ => Table.mem_keys_insert.mpr (Or.inl rfl), fun _ => opened⟩
    intro generation hlive
    rcases Table.mem_keys_insert.mp hlive with rfl | hold
    · exact Nat.le_refl _
    · exact Nat.le_succ_of_le (h.bounded hold)
  | vain idle => exact ⟨fun hlive => Nat.le_succ_of_le (h.bounded hlive), by simp, by simp⟩
  | begun => exact ⟨h.bounded, h.backed, h.opened⟩
  | decided idle =>
    exact ⟨h.bounded, fun hrunning => h.backed (running_of_endStop hrunning),
      fun hrunning => h.opened (running_of_endStop hrunning)⟩

theorem tread (h : s.Sound) (htread : s.Tread generation t) : t.Sound := by
  have hkeys := Table.keys_insert_of_mem htread.live
  cases htread with
  | moved thread =>
    refine ⟨?_, ?_, h.opened⟩
    · intro other hother
      rw [advance, hkeys] at hother
      exact h.bounded hother
    · intro hrunning
      rw [advance, hkeys]
      exact h.backed hrunning
  | noticed thread =>
    refine ⟨fun hlive => h.bounded (Table.mem_keys_erase.mp hlive).2, ?_, ?_⟩
    · intro hrunning
      simp only [Bool.and_eq_true, Bool.not_eq_eq_eq_not, Bool.not_true,
        decide_eq_false_iff_not] at hrunning
      exact Table.mem_keys_erase.mpr ⟨hrunning.2, h.backed hrunning.1⟩
    · intro hrunning
      exact h.opened (Bool.and_eq_true_iff.mp hrunning).1

theorem close (h : s.Sound) : Sound { s with shutdown := true, running := false } :=
  ⟨h.bounded, by simp, by simp⟩

theorem shift (h : s.Sound) (hshift : s.Shift t) : t.Sound := by
  cases hshift with
  | steered steer => exact h.steer steer
  | closed => exact h.close
  | trod tread => exact h.tread tread

theorem step (h : s.Sound) (hstep : s.perform action = some t) : t.Sound :=
  h.shift (shift_of_perform hstep)

theorem runAll (h : s.Sound) {steps : List SweeperStep} (hrun : s.runAll steps = some t) :
    t.Sound := by
  induction steps generalizing s with
  | nil =>
    cases hrun
    exact h
  | cons action steps ih =>
    obtain ⟨next, hstep, hrest⟩ := Option.bind_eq_some_iff.mp hrun
    exact ih (h.step hstep) hrest

/-- The generation to come is that of no thread, so a start replaces none. -/
theorem next_fresh (h : s.Sound) : s.generation + 1 ∉ s.threads.keys :=
  fun hlive => Nat.not_succ_le_self _ (h.bounded hlive)

/-- The end of a thread that is not current is not noticed, and nothing else that threads do is. -/
theorem unnoticed (h : s.Sound)
    (hretired : s.threads.get? generation = some .ending → s.isCurrent generation = false)
    (htread : s.Tread generation t) :
    t.running = s.running ∧ t.generation = s.generation ∧ t.shutdown = s.shutdown := by
  cases htread with
  | moved => exact ⟨rfl, rfl, rfl⟩
  | noticed thread =>
    refine ⟨?_, rfl, rfl⟩
    cases hrunning : s.running with
    | false => rfl
    | true =>
      have hother : s.generation ≠ generation := by
        intro heq
        have hcurrent := hretired thread
        rw [isCurrent_iff.mpr ⟨h.opened hrunning, hrunning, heq⟩] at hcurrent
        cases hcurrent
      simp [hother]

end Sound

/-! ## Retirement -/

namespace Retired

theorem shift (h : s.Retired generation) (hshift : s.Shift t) : t.Retired generation := by
  obtain ⟨hle, hcurrent⟩ := h
  -- what does not run cannot become current without a start
  have fades : t.generation = s.generation → (t.running = true → s.running = true) →
      (t.shutdown = false → s.shutdown = false) → t.Retired generation := by
    intro hgeneration hrunning hshutdown
    refine ⟨hgeneration ▸ hle, Bool.eq_false_iff.mpr fun hnow => ?_⟩
    obtain ⟨hopen, hruns, heq⟩ := isCurrent_iff.mp hnow
    rw [isCurrent_iff.mpr ⟨hshutdown hopen, hrunning hruns, hgeneration ▸ heq⟩] at hcurrent
    cases hcurrent
  cases hshift with
  | steered steer =>
    cases steer with
    | still => exact ⟨hle, hcurrent⟩
    | started idle opened =>
      refine ⟨Nat.le_succ_of_le hle, Bool.eq_false_iff.mpr fun hnow => ?_⟩
      have heq : s.generation + 1 = generation := (isCurrent_iff.mp hnow).2.2
      omega
    | vain idle => exact ⟨Nat.le_succ_of_le hle, by simp [isCurrent]⟩
    | begun => exact fades rfl id id
    | decided idle => exact fades rfl running_of_endStop id
  | closed => exact fades rfl (by simp) (by simp)
  | trod tread =>
    exact fades tread.generation_eq tread.running_of_running fun hopen =>
      tread.shutdown_eq ▸ hopen

theorem runAll (h : s.Retired generation) {steps : List SweeperStep}
    (hrun : s.runAll steps = some t) : t.Retired generation := by
  induction steps generalizing s with
  | nil =>
    cases hrun
    exact h
  | cons action steps ih =>
    obtain ⟨next, hstep, hrest⟩ := Option.bind_eq_some_iff.mp hrun
    exact ih (h.shift (shift_of_perform hstep)) hrest

end Retired

/-- A pass begins with a look at the state: the thread is current, and nobody holds the lock. -/
theorem isCurrent_of_begins (hstep : s.perform action = some t) (hbegins : s.Begins t generation) :
    s.isCurrent generation = true ∧ s.deciding = false := by
  obtain ⟨hbefore, hafter⟩ := hbegins
  cases shift_of_perform hstep with
  | steered steer =>
    cases steer with
    | started idle opened =>
      rw [Table.get?_insert] at hafter
      split at hafter
      · cases hafter
      · exact absurd hafter hbefore
    | _ => exact absurd hafter hbefore
  | closed => exact absurd hafter hbefore
  | @trod other _ tread =>
    by_cases hother : generation = other
    · subst hother
      cases tread with
      | moved thread checked spent =>
        rw [advance, Table.get?_insert, if_pos rfl] at hafter
        exact checked (Option.some.inj hafter)
      | noticed thread =>
        rw [Table.get?_erase, if_pos rfl] at hafter
        cases hafter
    · rw [tread.get?_of_ne hother] at hafter
      exact absurd hafter hbefore

theorem Retired.done (h : s.Retired generation) : s.Done generation := by
  intro steps t action u hrun hstep hbegins
  have hcurrent := (isCurrent_of_begins hstep hbegins).1
  rw [(h.runAll hrun).2] at hcurrent
  cases hcurrent

theorem shutdown_runAll {steps : List SweeperStep} (h : s.shutdown = true)
    (hrun : s.runAll steps = some t) : t.shutdown = true := by
  induction steps generalizing s with
  | nil =>
    cases hrun
    exact h
  | cons action steps ih =>
    obtain ⟨next, hstep, hrest⟩ := Option.bind_eq_some_iff.mp hrun
    refine ih ?_ hrest
    cases shift_of_perform hstep with
    | steered steer => cases steer <;> exact h
    | closed => rfl
    | trod tread => exact tread.shutdown_eq.trans h

/-- After a shutdown no thread ever begins a pass, not even one that is still to come. -/
theorem done_of_shutdown (h : s.shutdown = true) : s.Done generation := by
  intro steps t action u hrun hstep hbegins
  have hopen := (isCurrent_iff.mp (isCurrent_of_begins hstep hbegins).1).1
  rw [shutdown_runAll h hrun] at hopen
  cases hopen

/-- Closing waits for a decision to stop, and for nothing else. -/
theorem exists_close (h : s.deciding = false) : ∃ t, s.perform .close = some t :=
  ⟨_, close_eq_some_iff.mpr ⟨h, rfl⟩⟩

theorem close_spec (h : s.perform .close = some t) :
    t.running = false ∧ t.shutdown = true ∧ t.threads = s.threads := by
  obtain ⟨-, rfl⟩ := close_eq_some_iff.mp h
  exact ⟨rfl, rfl, rfl⟩

/-! ## Runs -/

/--
However the steps of a sweeper's owner and of its threads interleave, a running sweeper is not
shut down and has exactly one thread of the latest generation behind it.  No thread is of a later
generation, no two are of the same one, and a start adds a thread without replacing another one.  A
thread begins a pass only when a look at the state under its lock finds it current.  One that is
not current begins no further pass, and neither the end of its pass nor its own end changes the
state.  A sweeper can be closed whenever no decision to stop is under way.  It is then shut down and
no longer runs, and none of its threads ever begins a pass again, nor does one that is to come.
-/
theorem running_has_one_thread {interval : Duration} {steps : List SweeperStep}
    (hrun : (idle interval).runAll steps = some s) :
    (s.running = true → s.threads.keys.count s.generation = 1 ∧ s.shutdown = false) ∧
    (s.threads.keys.Nodup ∧ ∀ generation ∈ s.threads.keys, generation ≤ s.generation) ∧
    (∀ t, s.start = some t → t = s ∨ t.threads.keys = s.threads.keys ++ [t.generation]) ∧
    (∀ action t generation, s.perform action = some t → s.Begins t generation →
      s.isCurrent generation = true ∧ s.deciding = false) ∧
    (∀ generation ∈ s.threads.keys, s.isCurrent generation = false →
      s.Done generation ∧ ∀ outcome t,
        s.perform (.endPass generation outcome) = some t ∨ s.perform (.exit generation) = some t →
          t.running = s.running ∧ t.generation = s.generation ∧ t.shutdown = s.shutdown) ∧
    (s.shutdown = true → ∀ generation, s.Done generation) ∧
    (s.deciding = false → ∃ t, s.perform .close = some t) ∧
    ∀ t, s.perform .close = some t →
      t.running = false ∧ t.shutdown = true ∧ t.threads = s.threads ∧
        ∀ generation, t.Done generation := by
  have h := (sound_idle interval).runAll hrun
  refine ⟨?_, ⟨s.threads.nodup_keys, fun generation => h.bounded⟩, ?_, ?_, ?_, ?_, exists_close, ?_⟩
  · intro hrunning
    exact ⟨List.count_eq_one_of_mem s.threads.nodup_keys (h.backed hrunning), h.opened hrunning⟩
  · intro t hstart
    unfold start at hstart
    split at hstart
    · cases hstart
    · split at hstart
      · cases hstart
        exact Or.inl rfl
      · cases hstart
        exact Or.inr (Table.keys_insert_of_notMem h.next_fresh _)
  · exact fun action t generation => isCurrent_of_begins
  · intro generation hlive hcurrent
    refine ⟨Retired.done ⟨h.bounded hlive, hcurrent⟩, fun outcome t hend => ?_⟩
    rcases hend with hpass | hexit
    · exact h.unnoticed (fun _ => hcurrent) (tread_of_endPass hpass)
    · exact h.unnoticed (fun _ => hcurrent) (tread_of_exit hexit)
  · exact fun hshutdown generation => done_of_shutdown hshutdown
  · intro t hclose
    obtain ⟨hrunning, hshutdown, hthreads⟩ := close_spec hclose
    exact ⟨hrunning, hshutdown, hthreads, fun generation => done_of_shutdown hshutdown⟩

/--
A sweeper is stopped and started again while its first thread sleeps; the second one is in a pass
that panics when the first one has come to its end.  If the sweeper is closed during this pass, the
second thread sleeps once more and then comes to its end at the deadline.
-/
def overlap : List SweeperStep :=
  [.start, .arm 1 ⟨0⟩, .beginStop, .endStop true, .start, .arm 2 ⟨0⟩, .wake 2 ⟨7⟩, .wake 1 ⟨7⟩]

theorem running_has_one_thread_overlap :
    ∃ s, (idle ⟨5⟩).runAll overlap = some s ∧ s.threads.keys = [1, 2] ∧ s.running = true ∧
      s.threads.keys.count 2 = 1 ∧ s.Done 1 ∧
      (∃ t, s.perform (.exit 1) = some t ∧ t.running = true) ∧
      (∃ t, s.runAll [.exit 1, .endPass 2 .panic, .exit 2] = some t ∧ t.running = false) ∧
      ∃ t u, s.perform .close = some t ∧ t.running = false ∧ t.shutdown = true ∧
        t.Done 1 ∧ t.Done 2 ∧
        t.runAll [.endPass 2 .again, .arm 2 ⟨7⟩, .wake 2 ⟨12⟩] = some u ∧
        u.threads.get? 2 = some .ending := by
  have hrun : (idle ⟨5⟩).runAll overlap = some _ := rfl
  obtain ⟨hbacked, -, -, -, hretired, -, hclosable, hclosed⟩ := running_has_one_thread hrun
  have hexit := (hretired 1 (by decide) (by decide)).2 .again _ (Or.inr rfl)
  obtain ⟨t, hclose⟩ := hclosable rfl
  obtain ⟨hrunning, hshutdown, -, hdone⟩ := hclosed t hclose
  have hends : ∃ u, t.runAll [.endPass 2 .again, .arm 2 ⟨7⟩, .wake 2 ⟨12⟩] = some u ∧
      u.threads.get? 2 = some .ending := by
    cases hclose
    exact ⟨_, rfl, rfl⟩
  obtain ⟨u, hrest, hending⟩ := hends
  exact ⟨_, hrun, rfl, rfl, (hbacked rfl).1, (hretired 1 (by decide) (by decide)).1,
    ⟨_, rfl, hexit.1⟩, ⟨_, rfl, rfl⟩, t, u, hclose, hrunning, hshutdown, hdone 1, hdone 2, hrest,
    hending⟩

end Sweeper

end TtlCache
