import TtlCache.Proofs.Sweeper.Generations

/-!
# Settling

A timetable settles when its threads have taken all the steps that they can take.  After any one
order it has a single thread at most, which comes to rest within three steps: it falls asleep, or
it wakes, runs a pass and falls asleep again, or it wakes and comes to its end.
-/

namespace TtlCache

namespace Table

variable {κ α : Type} [DecidableEq κ]

theorem rows_insert_empty (key : κ) (value : α) :
    ((empty : Table κ α).insert key value).rows = [(key, value)] :=
  rows_insert_of_notMem (by simp) value

theorem insert_insert_empty (key : κ) (value other : α) :
    (empty.insert key value).insert key other = empty.insert key other := by
  apply ext_rows
  rw [rows_insert_of_mem (mem_keys_insert.mpr (Or.inl rfl)), rows_insert_empty, rows_insert_empty]
  simp

theorem erase_insert_empty (key : κ) (value : α) : (empty.insert key value).erase key = empty := by
  apply ext_rows
  change ((empty.insert key value).rows.filter fun row => !decide (row.1 = key)) = []
  rw [rows_insert_empty]
  simp

end Table

namespace Sweeper

variable {s : Sweeper} {now : Instant}

def lone (s : Sweeper) (stage : SweeperStage) : Sweeper :=
  { s with threads := Table.empty.insert s.generation stage }

def vacant (s : Sweeper) : Sweeper := { s with running := false, threads := .empty }

@[simp] theorem get?_lone (s : Sweeper) (stage : SweeperStage) :
    (s.lone stage).threads.get? s.generation = some stage := by
  rw [lone, Table.get?_insert, if_pos rfl]

@[simp] theorem advance_lone (s : Sweeper) (stage other : SweeperStage) :
    (s.lone stage).advance s.generation other = s.lone other := by
  simp only [lone, advance, Table.insert_insert_empty]

theorem step_arming (h : s.deciding = false) :
    (s.lone .arming).step s.generation now = some (s.lone (.asleep (now.add? s.interval))) := by
  have hopen : (s.lone .arming).deciding = false := h
  simp only [step, arm, get?_lone, hopen, Bool.false_eq_true, if_false, advance_lone]
  rfl

theorem step_asleep (h : s.deciding = false) (deadline : Option Instant) :
    (s.lone (.asleep deadline)).step s.generation now =
      if s.isCurrent s.generation then
        if isDue deadline now then some (s.lone .passing) else none
      else
        some (s.lone .ending) := by
  have hopen : (s.lone (.asleep deadline)).deciding = false := h
  have hcurrent : (s.lone (.asleep deadline)).isCurrent s.generation = s.isCurrent s.generation :=
    rfl
  simp only [step, wake, get?_lone, hopen, hcurrent, Bool.false_eq_true, if_false, advance_lone]
  cases s.isCurrent s.generation <;> rfl

theorem step_ending (h : s.deciding = false) :
    (s.lone .ending).step s.generation now = some s.vacant := by
  have hopen : (s.lone .ending).deciding = false := h
  simp only [step, exit, get?_lone, hopen, Bool.false_eq_true, if_false]
  simp [lone, vacant, h, Table.erase_insert_empty]

theorem endPass_passing (again : Bool) :
    (s.lone .passing).endPass s.generation again =
      some (s.lone (if again then .arming else .ending)) := by
  simp only [endPass, get?_lone, advance_lone]

end Sweeper

namespace Timetable

variable {t u : Timetable}

/-! ## Settling -/

/-- One timetable comes from another one by a number of steps of its threads. -/
inductive Comes : Nat → Timetable → Timetable → Prop
  | refl (t : Timetable) : Comes 0 t t
  | step {steps : Nat} {t next u : Timetable} (first : t.step = some next)
      (rest : Comes steps next u) : Comes (steps + 1) t u

theorem settleFor_of_still (h : t.step = none) (steps : Nat) : t.settleFor steps = t := by
  cases steps with
  | zero => rfl
  | succ steps => rw [settleFor, h]

theorem Comes.settleFor {steps : Nat} (h : Comes steps t u) (extra : Nat) :
    t.settleFor (steps + extra) = u.settleFor extra := by
  induction h with
  | refl t => rw [Nat.zero_add]
  | step first rest ih => rw [Nat.succ_add, Timetable.settleFor, first, ← ih]

/-- There is time for four steps in any case. -/
theorem Comes.settle {steps : Nat} (h : Comes steps t u) (hsteps : steps ≤ 4)
    (hstill : u.step = none) : t.settle = u := by
  obtain ⟨extra, hextra⟩ : ∃ extra, t.settle = t.settleFor (steps + extra) :=
    ⟨_, congrArg (Timetable.settleFor · t)
      (Nat.add_sub_cancel' (Nat.le_trans hsteps (by omega))).symm⟩
  rw [hextra, h.settleFor, settleFor_of_still hstill]

theorem settle_of_still (h : t.step = none) : t.settle = t := (Comes.refl t).settle (by omega) h

/-! ## A thread alone -/

def lone (t : Timetable) (stage : SweeperStage) : Timetable :=
  { t with sweeper := t.sweeper.lone stage }

def vacant (t : Timetable) : Timetable := { t with sweeper := t.sweeper.vacant }

def script (t : Timetable) : List PassOutcome := (t.scripts.get? t.sweeper.generation).getD []

def passed (t : Timetable) : Timetable :=
  { t with
    scripts := t.scripts.insert t.sweeper.generation t.script.tail
    passes := t.passes + 1 }

/-- A sweeper that is told to stop, before its thread notices. -/
def stilled (t : Timetable) : Timetable :=
  { t with sweeper := { t.sweeper with running := false } }

theorem step_vacant (t : Timetable) : t.vacant.step = none := rfl

theorem step_lone (t : Timetable) (stage : SweeperStage) :
    (t.lone stage).step = (t.lone stage).stepThread t.sweeper.generation := by
  have hkeys : (t.lone stage).sweeper.threads.keys = [t.sweeper.generation] :=
    Table.keys_insert_of_notMem (by simp) stage
  rw [step, hkeys, List.findSome?_cons]
  cases (t.lone stage).stepThread t.sweeper.generation <;> rfl

theorem step_lone_of_ne {stage : SweeperStage} (h : stage ≠ .passing) :
    (t.lone stage).step = ((t.sweeper.lone stage).step t.sweeper.generation t.clock).map fun s =>
      { t with sweeper := s } := by
  have hstage : (t.lone stage).sweeper.threads.get? t.sweeper.generation = some stage :=
    Sweeper.get?_lone t.sweeper stage
  rw [step_lone, stepThread, hstage]
  cases stage with
  | passing => exact absurd rfl h
  | _ => rfl

theorem step_arming (h : t.sweeper.deciding = false) :
    (t.lone .arming).step = some (t.lone (.asleep (t.clock.add? t.sweeper.interval))) := by
  rw [step_lone_of_ne (by simp), Sweeper.step_arming h]
  rfl

theorem step_asleep (h : t.sweeper.deciding = false) (deadline : Option Instant) :
    (t.lone (.asleep deadline)).step =
      if t.sweeper.isCurrent t.sweeper.generation then
        if Sweeper.isDue deadline t.clock then some (t.lone .passing) else none
      else
        some (t.lone .ending) := by
  rw [step_lone_of_ne (by simp), Sweeper.step_asleep h]
  split
  · split <;> rfl
  · rfl

theorem step_ending (h : t.sweeper.deciding = false) : (t.lone .ending).step = some t.vacant := by
  rw [step_lone_of_ne (by simp), Sweeper.step_ending h]
  rfl

theorem step_passing (t : Timetable) :
    (t.lone .passing).step = some
      (t.passed.lone (if decide (t.script.headD .again = .again) then .arming else .ending)) := by
  have hstage : (t.lone .passing).sweeper.threads.get? t.sweeper.generation = some .passing :=
    Sweeper.get?_lone t.sweeper .passing
  rw [step_lone, stepThread, hstage]
  simp only [pass, lone, Sweeper.endPass_passing, Option.map_some]
  rfl

/-! ## What the threads come to -/

theorem settle_stopped (h : t.sweeper.deciding = false)
    (hstopped : t.sweeper.isCurrent t.sweeper.generation = false) (deadline : Option Instant) :
    (t.lone (.asleep deadline)).settle = t.vacant := by
  have hwake : (t.lone (.asleep deadline)).step = some (t.lone .ending) := by
    rw [step_asleep h, hstopped]; rfl
  exact (Comes.step hwake (.step (step_ending h) (.refl _))).settle (by omega) t.step_vacant

theorem settle_stilled (h : t.sweeper.deciding = false)
    (hrest : t.vacant = t ∨ ∃ deadline, t.lone (.asleep deadline) = t) :
    t.stilled.settle = t.vacant := by
  rcases hrest with hvacant | ⟨deadline, hlone⟩
  · have hstilled : t.stilled = t.vacant := congrArg stilled hvacant.symm
    rw [hstilled]
    exact settle_of_still (step_vacant t)
  · have hstilled : t.stilled = t.stilled.lone (.asleep deadline) := congrArg stilled hlone.symm
    rw [hstilled]
    exact settle_stopped (t := t.stilled) h (by simp [Sweeper.isCurrent, stilled]) deadline

section Current

variable (h : t.sweeper.deciding = false)
  (hcurrent : t.sweeper.isCurrent t.sweeper.generation = true)
include h hcurrent

theorem step_waiting {deadline : Option Instant} (hearly : Sweeper.isDue deadline t.clock = false) :
    (t.lone (.asleep deadline)).step = none := by
  rw [step_asleep h, hcurrent, hearly]; rfl

theorem settle_armed
    (hearly : Sweeper.isDue (t.clock.add? t.sweeper.interval) t.clock = false) :
    (t.lone .arming).settle = t.lone (.asleep (t.clock.add? t.sweeper.interval)) :=
  (Comes.step (step_arming h) (.refl _)).settle (by omega) (step_waiting h hcurrent hearly)

/-- A pass that is due runs once: the deadline behind it lies ahead again. -/
theorem settle_due {deadline : Option Instant} (hdue : Sweeper.isDue deadline t.clock = true)
    (hearly : Sweeper.isDue (t.clock.add? t.sweeper.interval) t.clock = false) :
    (t.lone (.asleep deadline)).settle =
      if decide (t.script.headD .again = .again) then
        t.passed.lone (.asleep (t.clock.add? t.sweeper.interval))
      else
        t.passed.vacant := by
  have hwake : (t.lone (.asleep deadline)).step = some (t.lone .passing) := by
    rw [step_asleep h, hcurrent, hdue]; rfl
  have hpass := step_passing t
  cases hagain : decide (t.script.headD .again = .again) with
  | true =>
    rw [hagain] at hpass
    have harm : (t.passed.lone .arming).step =
        some (t.passed.lone (.asleep (t.clock.add? t.sweeper.interval))) := step_arming h
    exact (Comes.step hwake (.step hpass (.step harm (.refl _)))).settle (by omega)
      (step_waiting (t := t.passed) h hcurrent hearly)
  | false =>
    rw [hagain] at hpass
    have hend : (t.passed.lone .ending).step = some t.passed.vacant := step_ending h
    exact (Comes.step hwake (.step hpass (.step hend (.refl _)))).settle (by omega)
      t.passed.step_vacant

end Current

end Timetable

end TtlCache
