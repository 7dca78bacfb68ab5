import TtlCache.Proofs.Sweeper.Settling

/-!
# When passes run

On a timetable at rest the thread of a running sweeper sleeps, and no other thread is left.  It
sleeps up to an interval after the last mark of the history, which is the start of the thread or
its last pass, or for good if that lies past the end of time.  So the marks alone tell which
orders bring about a pass, and what it comes to.
-/

namespace TtlCache

namespace Timetable

variable {t : Timetable} {interval : Duration}

/-! ## Orders and marks -/

/-- What is asked of a timetable. -/
inductive Order where
  | start (script : List PassOutcome)
  | stopIf (idle : Bool)
  | advance (elapsed : Duration)
  | close

def obey (t : Timetable) : Order → Timetable
  | .start script => t.start script
  | .stopIf idle => (t.stopIf idle).2
  | .advance elapsed => t.advance elapsed
  | .close => t.close

def obeyAll (t : Timetable) (orders : List Order) : Timetable := orders.foldl obey t

/-- A start that found the sweeper idle, or a pass, with the time of it. -/
inductive Mark where
  | started (script : List PassOutcome) (clock : Instant)
  | passed (clock : Instant)

namespace Mark

def clock : Mark → Instant
  | .started _ clock => clock
  | .passed clock => clock

def isPass : Mark → Bool
  | .started _ _ => false
  | .passed _ => true

/-- The outcomes to come after a mark: a start brings new ones, a pass uses one up. -/
def outcomes (left : List PassOutcome) : Mark → List PassOutcome
  | .started script _ => script
  | .passed _ => left.tail

end Mark

/-- The mark of a start; there is none if the sweeper runs already or is shut down. -/
def starts (t : Timetable) : Order → List Mark
  | .start script =>
      if t.sweeper.running || t.isClosed then [] else [.started script t.clock]
  | .stopIf _ | .advance _ | .close => []

theorem starts_cases (t : Timetable) (order : Order) :
    t.starts order = [] ∨ ∃ script, t.starts order = [.started script t.clock] := by
  cases order with
  | start script =>
    rw [starts]
    split
    · exact .inl rfl
    · exact .inr ⟨script, rfl⟩
  | _ => exact .inl rfl

/-- The marks that an order leaves, as they are seen from outside. -/
def marks (t : Timetable) (order : Order) : List Mark :=
  t.starts order ++
    List.replicate ((t.obey order).passes - t.passes) (.passed (t.obey order).clock)

theorem marks_of_passes_eq {order : Order} (h : (t.obey order).passes = t.passes) :
    t.marks order = t.starts order := by
  rw [marks, h, Nat.sub_self, List.replicate_zero, List.append_nil]

def log (t : Timetable) : List Order → List Mark
  | [] => []
  | order :: later => t.marks order ++ (t.obey order).log later

theorem log_concat (t : Timetable) (orders : List Order) (order : Order) :
    t.log (orders ++ [order]) = t.log orders ++ (t.obeyAll orders).marks order := by
  induction orders generalizing t with
  | nil => exact List.append_nil _
  | cons first orders ih =>
    rw [List.cons_append, log, ih, ← List.append_assoc]
    rfl

def outcomesAfter (history : List Mark) : List PassOutcome := history.foldl Mark.outcomes []

/-- Whether a whole interval has gone by since the last mark; none does past the end of time. -/
def Due (interval : Duration) (history : List Mark) (now : Instant) : Prop :=
  ∃ mark, history.getLast? = some mark ∧
    mark.clock.nanos + interval.nanos ≤ Instant.last.nanos ∧
    mark.clock.nanos + interval.nanos ≤ now.nanos

def deadlineOf (interval : Duration) (history : List Mark) : Option Instant :=
  history.getLast?.bind fun mark => mark.clock.add? interval

variable {history : List Mark}

theorem isDue_add?_iff {now mark : Instant} :
    Sweeper.isDue (mark.add? interval) now = true ↔
      mark.nanos + interval.nanos ≤ Instant.last.nanos ∧
        mark.nanos + interval.nanos ≤ now.nanos := by
  unfold Instant.add?
  split
  · next hfits => simp [Sweeper.isDue, hfits]
  · next hfits => simp [Sweeper.isDue, hfits]

theorem isDue_deadlineOf_iff {now : Instant} :
    Sweeper.isDue (deadlineOf interval history) now = true ↔ Due interval history now := by
  rw [deadlineOf, Due]
  cases history.getLast? with
  | none => simp [Sweeper.isDue]
  | some mark => simp [isDue_add?_iff]

theorem deadlineOf_concat (history : List Mark) (mark : Mark) :
    deadlineOf interval (history ++ [mark]) = mark.clock.add? interval := by
  rw [deadlineOf, List.getLast?_concat]; rfl

theorem outcomesAfter_concat (history : List Mark) (mark : Mark) :
    outcomesAfter (history ++ [mark]) = mark.outcomes (outcomesAfter history) := by
  rw [outcomesAfter, List.foldl_concat, outcomesAfter]

/-! ## The invariant -/

/-- The thread of a running sweeper sleeps up to the deadline that the history sets. -/
structure Sleeps (interval : Duration) (history : List Mark) (t : Timetable) : Prop where
  opened : t.sweeper.shutdown = false
  running : t.sweeper.running = true
  thread : t.lone (.asleep (deadlineOf interval history)) = t
  early : ¬Due interval history t.clock
  begun : history ≠ []
  script_eq : t.script = outcomesAfter history

/-- A mark keeps its distance from the marks before it. -/
def Mark.Follows (interval : Duration) (earlier mark : Mark) : Prop :=
  earlier.clock.nanos ≤ mark.clock.nanos ∧
    (mark.isPass = true → earlier.clock.nanos + interval.nanos ≤ mark.clock.nanos)

/-- What a history records up to a time, with the number of passes until then. -/
structure Recorded (interval : Duration) (history : List Mark) (clock : Instant) (passes : Nat) :
    Prop where
  past : ∀ mark ∈ history, mark.clock.nanos ≤ clock.nanos
  spaced : history.Pairwise (Mark.Follows interval)
  counted : passes = history.countP Mark.isPass

/-- What a timetable at rest has to do with its history. -/
structure Settled (interval : Duration) (history : List Mark) (t : Timetable) : Prop where
  interval_eq : t.sweeper.interval = interval
  undecided : t.sweeper.deciding = false
  idle : t.sweeper.running = false → t.vacant = t
  sleeps : t.sweeper.running = true → Sleeps interval history t
  recorded : Recorded interval history t.clock t.passes

namespace Recorded

variable {clock now : Instant} {passes : Nat}

theorem later (h : Recorded interval history clock passes) (hle : clock.nanos ≤ now.nanos) :
    Recorded interval history now passes :=
  { h with past := fun mark hmark => Nat.le_trans (h.past mark hmark) hle }

theorem concat (h : Recorded interval history clock passes) {mark : Mark}
    (hclock : mark.clock = clock)
    (hpass : mark.isPass = true → ∀ earlier ∈ history,
      earlier.clock.nanos + interval.nanos ≤ clock.nanos) :
    Recorded interval (history ++ [mark]) clock (passes + if mark.isPass then 1 else 0) := by
  subst hclock
  refine ⟨?_, List.pairwise_append.mpr ⟨h.spaced, List.pairwise_singleton _ _, ?_⟩, ?_⟩
  · intro earlier hmem
    rcases List.mem_append.mp hmem with hold | hnew
    · exact h.past earlier hold
    · exact Nat.le_of_eq (by rw [List.mem_singleton.mp hnew])
  · intro earlier hold other hother
    rw [List.mem_singleton.mp hother]
    exact ⟨h.past earlier hold, fun hother => hpass hother earlier hold⟩
  · rw [List.countP_append, List.countP_singleton, h.counted]

/-- No mark is later than the last one, so what is due keeps its distance from all of them. -/
theorem le_of_due (h : Recorded interval history clock passes) (hdue : Due interval history now)
    {mark : Mark} (hmark : mark ∈ history) : mark.clock.nanos + interval.nanos ≤ now.nanos := by
  obtain ⟨last, hlast, -, hle⟩ := hdue
  obtain ⟨before, rfl⟩ := List.getLast?_eq_some_iff.mp hlast
  rcases List.mem_append.mp hmark with hbefore | hsame
  · have horder := (List.pairwise_append.mp h.spaced).2.2 mark hbefore last (by simp)
    exact Nat.le_trans (Nat.add_le_add_right horder.1 _) hle
  · rw [List.mem_singleton.mp hsame]
    exact hle

end Recorded

/-! ## Orders on a timetable at rest -/

theorem settled_initial (interval : Duration) (clock : Instant) :
    Settled interval [] (initial interval clock) := by
  refine ⟨rfl, rfl, fun _ => rfl, fun hrunning => (by cases hrunning), ?_⟩
  constructor <;> simp [initial]

def restarted (t : Timetable) (script : List PassOutcome) : Timetable :=
  { t with
    sweeper := { t.sweeper with running := true, generation := t.sweeper.generation + 1 }
    scripts := t.scripts.insert (t.sweeper.generation + 1) script }

def later (t : Timetable) (elapsed : Duration) : Timetable :=
  { t with clock := ⟨t.clock.nanos + elapsed.nanos⟩ }

def shut (t : Timetable) : Timetable :=
  { t with sweeper := { t.sweeper with shutdown := true } }

theorem isDue_add?_self (hinterval : 0 < interval.nanos) (now : Instant) :
    Sweeper.isDue (now.add? interval) now = false := by
  rw [Bool.eq_false_iff, Ne, isDue_add?_iff]
  omega

theorem Sleeps.isCurrent (h : Sleeps interval history t) :
    t.sweeper.isCurrent t.sweeper.generation = true := by
  simp [Sweeper.isCurrent, h.opened, h.running]

namespace Settled

theorem running_of_shutdown (h : Settled interval history t) (hshut : t.sweeper.shutdown = true) :
    t.sweeper.running = false := by
  rw [Bool.eq_false_iff]
  intro hrunning
  rw [(h.sleeps hrunning).opened] at hshut
  cases hshut

theorem still (h : Settled interval history t) : t.step = none := by
  cases hrunning : t.sweeper.running with
  | false => rw [← h.idle hrunning]; rfl
  | true =>
    have hsleeps := h.sleeps hrunning
    rw [← hsleeps.thread]
    refine step_waiting h.undecided hsleeps.isCurrent ?_
    rw [Bool.eq_false_iff, Ne, isDue_deadlineOf_iff]
    exact hsleeps.early

theorem settle_eq (h : Settled interval history t) : t.settle = t := settle_of_still h.still

/-! ### What the orders do -/

theorem start_busy (h : Settled interval history t) (script : List PassOutcome)
    (hbusy : t.sweeper.running = true ∨ t.isClosed = true) : t.start script = t := by
  have hsweeper : t.sweeper.start = some t.sweeper := by
    rw [Sweeper.start, if_neg (by simp [h.undecided]), if_pos (by simpa [isClosed] using hbusy)]
  rw [start, hsweeper]
  exact (if_pos rfl).trans h.settle_eq

theorem start_idle (h : Settled interval history t) (hinterval : 0 < interval.nanos)
    (script : List PassOutcome) (hidle : t.sweeper.running = false) (hopened : t.isClosed = false) :
    t.start script = (t.restarted script).lone (.asleep (t.clock.add? interval)) := by
  have hthreads : t.sweeper.threads = .empty := by rw [← h.idle hidle]; rfl
  have hsweeper : t.sweeper.start = some ((t.restarted script).lone .arming).sweeper := by
    rw [Sweeper.start, if_neg (by simp [h.undecided]),
      if_neg (by simpa [hidle, isClosed] using hopened), hthreads]
    rfl
  have hcurrent : (t.restarted script).sweeper.isCurrent (t.restarted script).sweeper.generation =
      true := by
    have hshut : t.sweeper.shutdown = false := hopened
    simp [Sweeper.isCurrent, restarted, hshut]
  have hsettle := settle_armed (t := t.restarted script) h.undecided hcurrent
  rw [start, hsweeper]
  refine (if_neg (Nat.succ_ne_self _)).trans ((hsettle ?_).trans ?_)
  · exact h.interval_eq ▸ isDue_add?_self (h.interval_eq ▸ hinterval) t.clock
  · exact congrArg (fun pause => (t.restarted script).lone (.asleep (t.clock.add? pause)))
      h.interval_eq

theorem start_cases (h : Settled interval history t) (hinterval : 0 < interval.nanos)
    (script : List PassOutcome) :
    (t.sweeper.running = true ∨ t.isClosed = true) ∧ t.start script = t ∨
      (t.sweeper.running = false ∧ t.isClosed = false) ∧
        t.start script = (t.restarted script).lone (.asleep (t.clock.add? interval)) := by
  by_cases hbusy : t.sweeper.running = true ∨ t.isClosed = true
  · exact .inl ⟨hbusy, h.start_busy script hbusy⟩
  · obtain ⟨hidle, hopened⟩ := not_or.mp hbusy
    rw [Bool.not_eq_true] at hidle hopened
    exact .inr ⟨⟨hidle, hopened⟩, h.start_idle hinterval script hidle hopened⟩

theorem at_rest (h : Settled interval history t) :
    t.vacant = t ∨ ∃ deadline, t.lone (.asleep deadline) = t := by
  cases hrunning : t.sweeper.running with
  | false => exact .inl (h.idle hrunning)
  | true => exact .inr ⟨_, (h.sleeps hrunning).thread⟩

theorem stopIf_opened (h : Settled interval history t) (idle : Bool)
    (hopened : t.isClosed = false) :
    t.stopIf idle = (some idle, if idle then t.vacant else t) := by
  have hsweeper : t.sweeper.stopIf idle =
      some (idle, { t.sweeper with running := t.sweeper.running && !idle }) := by
    have hundecided := h.undecided
    simp [Sweeper.stopIf, Sweeper.beginStop, Sweeper.endStop, hundecided]
  rw [stopIf, if_neg (by simp [hopened]), hsweeper]
  cases idle with
  | true =>
    have hstilled := settle_stilled h.undecided h.at_rest
    simp only [Bool.not_true, Bool.and_false, if_true]
    exact congrArg (Prod.mk (some true)) hstilled
  | false =>
    simp only [Bool.not_false, Bool.and_true, Bool.false_eq_true, if_false]
    exact congrArg (Prod.mk (some false)) h.settle_eq

theorem stopIf_eq (h : Settled interval history t) (idle : Bool) :
    t.stopIf idle =
      (if t.isClosed then none else some idle, if idle then t.vacant else t) := by
  cases hclosed : t.isClosed with
  | true =>
    have hvacant : t.vacant = t := h.idle (h.running_of_shutdown hclosed)
    rw [stopIf, if_pos hclosed, hvacant]
    simp
  | false => rw [h.stopIf_opened idle hclosed]; rfl

theorem close_eq (h : Settled interval history t) : t.close = t.shut.vacant := by
  have hsweeper : t.sweeper.close = some t.shut.stilled.sweeper := by
    rw [Sweeper.close, if_neg (by simp [h.undecided])]
    rfl
  have hrest : t.shut.vacant = t.shut ∨ ∃ deadline, t.shut.lone (.asleep deadline) = t.shut :=
    h.at_rest.imp (congrArg shut) fun hlone => hlone.imp fun _ => congrArg shut
  rw [close, hsweeper]
  exact settle_stilled (t := t.shut) h.undecided hrest

theorem advance_idle (h : Settled interval history t) (hidle : t.sweeper.running = false)
    (elapsed : Duration) : t.advance elapsed = t.later elapsed := by
  have hvacant : (t.later elapsed).vacant = t.later elapsed :=
    congrArg (later · elapsed) (h.idle hidle)
  refine settle_of_still (t := t.later elapsed) ?_
  rw [← hvacant]
  exact step_vacant _

theorem advance_early (h : Settled interval history t) {elapsed : Duration}
    (hearly : t.sweeper.running = true → ¬Due interval history (t.later elapsed).clock) :
    t.advance elapsed = t.later elapsed := by
  cases hrunning : t.sweeper.running with
  | false => exact h.advance_idle hrunning elapsed
  | true =>
    have hsleeps := h.sleeps hrunning
    have hlone : (t.later elapsed).lone (.asleep (deadlineOf interval history)) = t.later elapsed :=
      congrArg (later · elapsed) hsleeps.thread
    have hstill := step_waiting (t := t.later elapsed) h.undecided hsleeps.isCurrent
      (Bool.eq_false_iff.mpr (mt isDue_deadlineOf_iff.mp (hearly hrunning)))
    refine settle_of_still (t := t.later elapsed) ?_
    rw [← hlone]
    exact hstill

theorem advance_due (h : Settled interval history t) (hinterval : 0 < interval.nanos)
    {elapsed : Duration} (hrunning : t.sweeper.running = true)
    (hdue : Due interval history (t.later elapsed).clock) :
    t.advance elapsed =
      if decide ((outcomesAfter history).headD .again = .again) then
        (t.later elapsed).passed.lone (.asleep ((t.later elapsed).clock.add? interval))
      else
        (t.later elapsed).passed.vacant := by
  have hsleeps := h.sleeps hrunning
  have hlone : (t.later elapsed).lone (.asleep (deadlineOf interval history)) = t.later elapsed :=
    congrArg (later · elapsed) hsleeps.thread
  have hscript : (t.later elapsed).script = outcomesAfter history := hsleeps.script_eq
  have hpause : (t.later elapsed).sweeper.interval = interval := h.interval_eq
  have hsettle := settle_due (t := t.later elapsed) h.undecided hsleeps.isCurrent
    (isDue_deadlineOf_iff.mpr hdue) (by rw [hpause]; exact isDue_add?_self hinterval _)
  rw [hlone, hscript, hpause] at hsettle
  exact hsettle

theorem advance_cases (h : Settled interval history t) (hinterval : 0 < interval.nanos)
    (elapsed : Duration) :
    ¬(t.sweeper.running = true ∧ Due interval history (t.later elapsed).clock) ∧
        t.advance elapsed = t.later elapsed ∨
      (t.sweeper.running = true ∧ Due interval history (t.later elapsed).clock) ∧
        t.advance elapsed =
          if decide ((outcomesAfter history).headD .again = .again) then
            (t.later elapsed).passed.lone (.asleep ((t.later elapsed).clock.add? interval))
          else
            (t.later elapsed).passed.vacant := by
  by_cases hdue : t.sweeper.running = true ∧ Due interval history (t.later elapsed).clock
  · exact .inr ⟨hdue, h.advance_due hinterval hdue.1 hdue.2⟩
  · exact .inl ⟨hdue, h.advance_early fun hrunning hnow => hdue ⟨hrunning, hnow⟩⟩

/-! ### What the orders leave -/

/-- Only an advance of the clock past a deadline brings about a pass. -/
theorem passes_obey (h : Settled interval history t) (hinterval : 0 < interval.nanos)
    {order : Order} (hearly : ∀ elapsed, order = .advance elapsed → t.sweeper.running = true →
      ¬Due interval history (t.later elapsed).clock) :
    (t.obey order).passes = t.passes := by
  cases order with
  | start script =>
    rcases h.start_cases hinterval script with ⟨-, hstart⟩ | ⟨-, hstart⟩
    · exact congrArg passes hstart
    · rw [Timetable.obey, hstart]
      rfl
  | stopIf idle =>
    rw [Timetable.obey, h.stopIf_eq]
    cases idle <;> rfl
  | advance elapsed => rw [Timetable.obey, h.advance_early (hearly elapsed rfl)]; rfl
  | close => rw [Timetable.obey, h.close_eq]; rfl

theorem of_vacant (hpause : t.sweeper.interval = interval) (hundecided : t.sweeper.deciding = false)
    (hrecorded : Recorded interval history t.clock t.passes) :
    Settled interval history t.vacant :=
  ⟨hpause, hundecided, fun _ => rfl, fun hrunning => (by cases hrunning), hrecorded⟩

theorem later (h : Settled interval history t) {elapsed : Duration}
    (hearly : t.sweeper.running = true → ¬Due interval history (t.later elapsed).clock) :
    Settled interval history (t.later elapsed) where
  interval_eq := h.interval_eq
  undecided := h.undecided
  idle hidle := congrArg (Timetable.later · elapsed) (h.idle hidle)
  sleeps hrunning :=
    { h.sleeps hrunning with
      thread := congrArg (Timetable.later · elapsed) (h.sleeps hrunning).thread
      early := hearly hrunning }
  recorded := h.recorded.later (Nat.le_add_right _ _)

theorem of_armed (hinterval : 0 < interval.nanos) {mark : Mark} (hclock : mark.clock = t.clock)
    (hpause : t.sweeper.interval = interval) (hundecided : t.sweeper.deciding = false)
    (hopened : t.sweeper.shutdown = false) (hrunning : t.sweeper.running = true)
    (hscript : t.script = outcomesAfter (history ++ [mark]))
    (hrecorded : Recorded interval (history ++ [mark]) t.clock t.passes) :
    Settled interval (history ++ [mark]) (t.lone (.asleep (t.clock.add? interval))) := by
  refine ⟨hpause, hundecided, fun hidle => ?_,
    fun _ => ⟨hopened, hrunning, ?_, ?_, by simp, hscript⟩, hrecorded⟩
  · exact absurd (hrunning.symm.trans hidle) (by simp)
  · rw [deadlineOf_concat, hclock]
    rfl
  · rw [← isDue_deadlineOf_iff, deadlineOf_concat, hclock]
    exact Bool.eq_false_iff.mp (isDue_add?_self hinterval _)

theorem obey_start (h : Settled interval history t) (hinterval : 0 < interval.nanos)
    (script : List PassOutcome) :
    Settled interval (history ++ t.starts (.start script)) (t.start script) := by
  rcases h.start_cases hinterval script with ⟨hbusy, hstart⟩ | ⟨⟨hidle, hopened⟩, hstart⟩
  · rw [starts, if_pos (by simpa using hbusy), List.append_nil, hstart]
    exact h
  · rw [starts, if_neg (by simp [hidle, hopened]), hstart]
    refine of_armed (t := t.restarted script) hinterval rfl h.interval_eq h.undecided hopened rfl ?_
      (h.recorded.concat rfl fun hpass => (by cases hpass))
    rw [outcomesAfter_concat, Timetable.script, restarted, Table.get?_insert, if_pos rfl]
    rfl

theorem clock_advance (h : Settled interval history t) (hinterval : 0 < interval.nanos)
    (elapsed : Duration) : (t.advance elapsed).clock = (t.later elapsed).clock := by
  rcases h.advance_cases hinterval elapsed with ⟨-, hadvance⟩ | ⟨-, hadvance⟩
  · rw [hadvance]
  · rw [hadvance]
    split <;> rfl

theorem marks_of_due (h : Settled interval history t) (hinterval : 0 < interval.nanos)
    {elapsed : Duration} (hrunning : t.sweeper.running = true)
    (hdue : Due interval history (t.later elapsed).clock) :
    (t.advance elapsed).passes = t.passes + 1 ∧
      t.marks (.advance elapsed) = [.passed (t.later elapsed).clock] := by
  have hpasses : (t.advance elapsed).passes = t.passes + 1 := by
    rw [h.advance_due hinterval hrunning hdue]
    split <;> rfl
  refine ⟨hpasses, ?_⟩
  rw [marks, Timetable.obey, hpasses, h.clock_advance hinterval, Nat.add_sub_cancel_left]
  rfl

theorem running_of_due (h : Settled interval history t) (hinterval : 0 < interval.nanos)
    {elapsed : Duration} (hrunning : t.sweeper.running = true)
    (hdue : Due interval history (t.later elapsed).clock) :
    (t.advance elapsed).sweeper.running = true ↔
      (outcomesAfter history).headD .again = .again := by
  rw [h.advance_due hinterval hrunning hdue]
  split
  · next hagain => exact iff_of_true hrunning (of_decide_eq_true hagain)
  · next hagain => exact iff_of_false Bool.false_ne_true fun heq => hagain (decide_eq_true heq)

theorem obey_due (h : Settled interval history t) (hinterval : 0 < interval.nanos)
    {elapsed : Duration} (hrunning : t.sweeper.running = true)
    (hdue : Due interval history (t.later elapsed).clock) :
    Settled interval (history ++ [.passed (t.later elapsed).clock]) (t.advance elapsed) := by
  have hsleeps := h.sleeps hrunning
  have hrecorded : Recorded interval (history ++ [.passed (t.later elapsed).clock])
      (t.later elapsed).clock (t.passes + 1) :=
    (h.recorded.later (Nat.le_add_right _ _)).concat rfl fun _ _ => h.recorded.le_of_due hdue
  rw [h.advance_due hinterval hrunning hdue]
  split
  · refine of_armed (t := (t.later elapsed).passed) hinterval rfl h.interval_eq h.undecided
      hsleeps.opened hrunning ?_ hrecorded
    rw [outcomesAfter_concat, ← hsleeps.script_eq, Timetable.script, passed, Table.get?_insert,
      if_pos rfl]
    rfl
  · exact of_vacant (t := (t.later elapsed).passed) h.interval_eq h.undecided hrecorded

/-- Whatever is ordered, the history goes on with the marks of it. -/
theorem obey (h : Settled interval history t) (hinterval : 0 < interval.nanos) (order : Order) :
    Settled interval (history ++ t.marks order) (t.obey order) := by
  by_cases hdue : ∃ elapsed, order = .advance elapsed ∧ t.sweeper.running = true ∧
      Due interval history (t.later elapsed).clock
  · obtain ⟨elapsed, rfl, hrunning, hnow⟩ := hdue
    rw [(h.marks_of_due hinterval hrunning hnow).2]
    exact h.obey_due hinterval hrunning hnow
  · have hearly : ∀ elapsed, order = .advance elapsed → t.sweeper.running = true →
        ¬Due interval history (t.later elapsed).clock :=
      fun elapsed horder hrunning hnow => hdue ⟨elapsed, horder, hrunning, hnow⟩
    rw [marks_of_passes_eq (h.passes_obey hinterval hearly)]
    cases order with
    | start script => exact h.obey_start hinterval script
    | stopIf idle =>
      rw [starts, List.append_nil, Timetable.obey, h.stopIf_eq]
      cases idle with
      | true => exact of_vacant h.interval_eq h.undecided h.recorded
      | false => exact h
    | advance elapsed =>
      rw [starts, List.append_nil, Timetable.obey, h.advance_early (hearly elapsed rfl)]
      exact h.later (hearly elapsed rfl)
    | close =>
      rw [starts, List.append_nil, Timetable.obey, h.close_eq]
      exact of_vacant (t := t.shut) h.interval_eq h.undecided h.recorded

theorem obeyAll (h : Settled interval history t) (hinterval : 0 < interval.nanos)
    (orders : List Order) : Settled interval (history ++ t.log orders) (t.obeyAll orders) := by
  induction orders generalizing t history with
  | nil => exact (List.append_nil history).symm ▸ h
  | cons order later ih =>
    rw [log, ← List.append_assoc]
    exact ih (h.obey hinterval order)

theorem isClosed_obey (h : Settled interval history t) (hinterval : 0 < interval.nanos)
    {order : Order} (horder : order ≠ .close) : (t.obey order).isClosed = t.isClosed := by
  cases order with
  | start script =>
    rcases h.start_cases hinterval script with ⟨-, hstart⟩ | ⟨-, hstart⟩
    · rw [Timetable.obey, hstart]
    · rw [Timetable.obey, hstart]
      rfl
  | stopIf idle =>
    rw [Timetable.obey, h.stopIf_eq]
    cases idle <;> rfl
  | advance elapsed =>
    rcases h.advance_cases hinterval elapsed with ⟨-, hadvance⟩ | ⟨-, hadvance⟩
    · rw [Timetable.obey, hadvance]
      rfl
    · rw [Timetable.obey, hadvance]
      split <;> rfl
  | close => exact absurd rfl horder

theorem isClosed_obeyAll (h : Settled interval history t) (hinterval : 0 < interval.nanos)
    (orders : List Order) :
    (t.obeyAll orders).isClosed = true ↔ t.isClosed = true ∨ .close ∈ orders := by
  induction orders generalizing t history with
  | nil => simp [Timetable.obeyAll]
  | cons order later ih =>
    have hlater := ih (h.obey hinterval order)
    rw [List.mem_cons]
    by_cases horder : order = .close
    · have hclosed : (t.obey order).isClosed = true := by
        rw [horder, Timetable.obey, h.close_eq]
        rfl
      exact iff_of_true (hlater.mpr (.inl hclosed)) (.inr (.inl horder.symm))
    · rw [h.isClosed_obey hinterval horder] at hlater
      exact hlater.trans (or_congr_right (or_iff_right (Ne.symm horder)).symm)

/-- An idle sweeper begins no pass before it is started again, and never if it is shut down. -/
theorem passes_of_idle (h : Settled interval history t) (hinterval : 0 < interval.nanos)
    (hidle : t.sweeper.running = false) {later : List Order}
    (hlater : t.isClosed = true ∨ ∀ script, .start script ∉ later) :
    (t.obeyAll later).passes = t.passes := by
  induction later generalizing t history with
  | nil => rfl
  | cons order later ih =>
    have hpasses : (t.obey order).passes = t.passes :=
      h.passes_obey hinterval fun elapsed _ hrunning => absurd (hidle.symm.trans hrunning) (by simp)
    have hstays : (t.obey order).sweeper.running = false ∧
        (t.isClosed = true → (t.obey order).isClosed = true) := by
      cases order with
      | start script =>
        have hclosed : t.isClosed = true :=
          hlater.elim id fun hnever => absurd List.mem_cons_self (hnever script)
        rw [Timetable.obey, h.start_busy script (.inr hclosed)]
        exact ⟨hidle, id⟩
      | stopIf stop =>
        rw [Timetable.obey, h.stopIf_eq]
        cases stop with
        | true => exact ⟨rfl, id⟩
        | false => exact ⟨hidle, id⟩
      | advance elapsed =>
        rw [Timetable.obey, h.advance_idle hidle]
        exact ⟨hidle, id⟩
      | close =>
        rw [Timetable.obey, h.close_eq]
        exact ⟨rfl, fun _ => rfl⟩
    have hnext := hlater.imp hstays.2 fun hnever script hmem =>
      hnever script (List.mem_cons_of_mem order hmem)
    exact (ih (h.obey hinterval order) hstays.1 hnext).trans hpasses

/-- Past the end of time no deadline is reached any more, not even that of a later start. -/
theorem passes_of_endless (h : Settled interval history t) (hinterval : 0 < interval.nanos)
    {mark : Mark} (hlast : history.getLast? = some mark)
    (hend : Instant.last.nanos < mark.clock.nanos + interval.nanos) (later : List Order) :
    (t.obeyAll later).passes = t.passes := by
  induction later generalizing t history mark with
  | nil => rfl
  | cons order later ih =>
    have hpasses : (t.obey order).passes = t.passes := by
      refine h.passes_obey hinterval fun elapsed _ _ hdue => ?_
      obtain ⟨other, hother, hfits, -⟩ := hdue
      rw [hlast, Option.some.injEq] at hother
      subst hother
      omega
    have hlater := h.obey hinterval order
    rw [marks_of_passes_eq hpasses] at hlater
    have hmark : mark.clock.nanos ≤ t.clock.nanos :=
      h.recorded.past mark (List.mem_of_getLast? hlast)
    have hnext : ∃ next, (history ++ t.starts order).getLast? = some next ∧
        Instant.last.nanos < next.clock.nanos + interval.nanos := by
      -- a start sets a deadline that is no earlier
      rcases starts_cases t order with hnone | ⟨script, hstarts⟩
      · exact ⟨mark, by rw [hnone, List.append_nil, hlast], hend⟩
      · rw [hstarts, List.getLast?_concat]
        exact ⟨_, rfl, Nat.lt_of_lt_of_le hend (Nat.add_le_add_right hmark _)⟩
    obtain ⟨next, hnext, hendless⟩ := hnext
    exact (ih hlater hnext hendless).trans hpasses

end Settled

/--
For any orders given to a sweeper with a positive interval, a pass keeps the interval from the start
of its thread and from every earlier pass.  An advance of the clock brings about one pass if the
sweeper runs and the interval since the last mark is over, and none otherwise; the sweeper goes on
running as the script of its thread says.  A start that finds the sweeper running or shut down
changes nothing, any other one begins a new interval.  A decision to stop and a shutdown stop the
sweeper, which then begins no pass until it is started again, and after a shutdown it never is.
Once an interval ends past the end of time there are no more passes at all.
-/
theorem passes_run_on_time (hinterval : 0 < interval.nanos) (clock : Instant)
    (orders : List Order) :
    let t := (initial interval clock).obeyAll orders
    let history := (initial interval clock).log orders
    (t.passes = history.countP Mark.isPass ∧ history.Pairwise (Mark.Follows interval)) ∧
    (t.isClosed = true ↔ .close ∈ orders) ∧
    (∀ elapsed,
      (t.advance elapsed).clock = ⟨t.clock.nanos + elapsed.nanos⟩ ∧
      (t.sweeper.running = true ∧ Due interval history (t.advance elapsed).clock →
        (t.advance elapsed).passes = t.passes + 1 ∧
          ((t.advance elapsed).sweeper.running = true ↔
            (outcomesAfter history).headD .again = .again)) ∧
      (¬(t.sweeper.running = true ∧ Due interval history (t.advance elapsed).clock) →
        (t.advance elapsed).passes = t.passes ∧
          (t.advance elapsed).sweeper.running = t.sweeper.running)) ∧
    (∀ script,
      (t.sweeper.running = true ∨ t.isClosed = true → t.start script = t) ∧
      (t.sweeper.running = false → t.isClosed = false →
        (t.start script).sweeper.running = true ∧ (t.start script).passes = t.passes ∧
          (t.start script).clock = t.clock ∧
          (initial interval clock).log (orders ++ [.start script]) =
            history ++ [.started script t.clock])) ∧
    (∀ idle,
      (t.stopIf idle).1 = (if t.isClosed then none else some idle) ∧
      (t.stopIf idle).2.sweeper.running = (t.sweeper.running && !idle) ∧
      (t.stopIf idle).2.passes = t.passes ∧ (t.stopIf idle).2.clock = t.clock) ∧
    (t.close.sweeper.running = false ∧ t.close.isClosed = true ∧ t.close.passes = t.passes ∧
      t.close.clock = t.clock) ∧
    (t.sweeper.running = false → ∀ later, t.isClosed = true ∨ (∀ script, .start script ∉ later) →
      (t.obeyAll later).passes = t.passes) ∧
    (∀ mark, history.getLast? = some mark →
      Instant.last.nanos < mark.clock.nanos + interval.nanos →
      ∀ later, (t.obeyAll later).passes = t.passes) := by
  intro t history
  have h : Settled interval history t := (settled_initial interval clock).obeyAll hinterval orders
  refine ⟨⟨h.recorded.counted, h.recorded.spaced⟩, ?_, fun elapsed => ?_,
    fun script => ⟨h.start_busy script, ?_⟩, fun idle => ?_, ?_,
    fun hidle later => h.passes_of_idle hinterval hidle,
    fun mark => h.passes_of_endless hinterval⟩
  · exact ((settled_initial interval clock).isClosed_obeyAll hinterval orders).trans
      (or_iff_right Bool.false_ne_true)
  · have hclock := h.clock_advance hinterval elapsed
    refine ⟨hclock, fun ⟨hrunning, hdue⟩ => ?_, fun hnot => ?_⟩
    · rw [hclock] at hdue
      exact ⟨(h.marks_of_due hinterval hrunning hdue).1, h.running_of_due hinterval hrunning hdue⟩
    · rw [hclock] at hnot
      rw [h.advance_early fun hrunning hdue => hnot ⟨hrunning, hdue⟩]
      exact ⟨rfl, rfl⟩
  · intro hidle hopened
    have hstart := h.start_idle hinterval script hidle hopened
    have hpasses : (t.obey (.start script)).passes = t.passes := by rw [obey, hstart]; rfl
    have hmarks : t.marks (.start script) = [.started script t.clock] := by
      rw [marks_of_passes_eq hpasses, starts, hidle, hopened]
      rfl
    rw [log_concat, hmarks, hstart]
    exact ⟨rfl, rfl, rfl, rfl⟩
  · rw [h.stopIf_eq]
    cases idle with
    | true => exact ⟨rfl, (Bool.and_false _).symm, rfl, rfl⟩
    | false => exact ⟨rfl, (Bool.and_true _).symm, rfl, rfl⟩
  · rw [h.close_eq]
    exact ⟨rfl, rfl, rfl, rfl⟩

/--
A thread runs a pass late and another one that ends it; a start in between changes nothing.  The
start after that sets the deadline anew, and a time in which three passes would fit brings one.
-/
def restart : List Order :=
  [.start [.again, .enough], .advance ⟨12⟩, .start [.panic], .stopIf false, .advance ⟨4⟩,
    .advance ⟨1⟩, .advance ⟨100⟩, .start []]

theorem passes_run_on_time_restarted :
    let t := (initial ⟨5⟩ ⟨0⟩).obeyAll restart
    t.passes = 2 ∧ t.start [.panic] = t ∧ (t.advance ⟨4⟩).passes = 2 ∧
      (t.advance ⟨15⟩).passes = 3 ∧ (t.stopIf true).2.sweeper.running = false := by
  intro t
  have hpasses : t.passes = 2 := by decide
  have hrunning : t.sweeper.running = true := by decide
  have hlast : ((initial ⟨5⟩ ⟨0⟩).log restart).getLast? = some (.started [] ⟨117⟩) := rfl
  obtain ⟨-, -, hadvance, hstart, hstop, -⟩ :=
    passes_run_on_time (show 0 < (Duration.mk 5).nanos by decide) ⟨0⟩ restart
  obtain ⟨hsoon, -, hearly⟩ := hadvance ⟨4⟩
  obtain ⟨hlate, hdue, -⟩ := hadvance ⟨15⟩
  refine ⟨hpasses, (hstart _).1 (.inl hrunning), ?_, ?_, (hstop true).2.1.trans (by decide)⟩
  · refine (hearly fun hnow => ?_).1.trans hpasses
    obtain ⟨-, mark, hmark, -, hle⟩ := hnow
    rw [hlast, Option.some.injEq] at hmark
    rw [hsoon, ← hmark] at hle
    exact absurd hle (by decide)
  · have hnow : Due ⟨5⟩ ((initial ⟨5⟩ ⟨0⟩).log restart) (t.advance ⟨15⟩).clock :=
      ⟨_, hlast, by decide, by rw [hlate]; decide⟩
    exact (hdue ⟨hrunning, hnow⟩).1.trans (congrArg (· + 1) hpasses)

end Timetable

end TtlCache
