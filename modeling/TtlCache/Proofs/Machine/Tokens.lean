import TtlCache.Proofs.Machine.Places
import TtlCache.Proofs.Machine.Strides

/-!
# Tokens

Two things are had by one pass at a time: the right to run at all, and the lock on the state of the
sweeper for as long as a decision to stop takes.  The cache tells whether such a token is taken; the
points of all passes tell who has it.  `Machine.Sole` says that both agree.
-/

namespace TtlCache

variable {layout : Layout}

/-- What only one pass has at a time. -/
inductive Token where
  /-- The right to run a pass. -/
  | turn
  /-- The lock on the state of the sweeper. -/
  | verdict
  deriving DecidableEq, Repr

def Pass.has : Token -> Pass -> Bool
  | .turn, .enter | .turn, .queue => false
  | .turn, _ => true
  | .verdict, .sum _ _ => true
  | .verdict, _ => false

def Pass.isLeaving : Pass -> Bool
  | .leave _ => true
  | _ => false

def Access.isWaking : Access -> Bool
  | ⟨_, _, .perform _ (.wake :: _) _⟩ => true
  | _ => false

def Frame.has (token : Token) : Frame -> Bool
  | .pass p => p.has token
  | _ => false

/-- Whether the next step of an operation takes a token, or only looks at what it protects. -/
def Frame.needs : Token -> Frame -> Bool
  | .turn, .pass .queue => true
  | .verdict, .pass .decide => true
  | .verdict, .access a => a.isWaking
  | _, _ => false

def Cache.isTaken (c : Cache layout) : Token -> Bool
  | .turn => c.passLock.isSome
  | .verdict => c.sweeper.deciding

/-- What a step does to a token, by whether the operation had it, it was taken, and is so now. -/
inductive Grip : Bool -> Bool -> Bool -> Bool -> Prop where
  | kept {had taken : Bool} : Grip had taken had taken
  | taken : Grip false false true true
  | given {taken : Bool} : Grip true taken false false

theorem Grip.of_eq {had taken has takenNow : Bool} (hhas : has = had) (htaken : takenNow = taken) :
    Grip had taken has takenNow := by
  subst hhas htaken
  exact .kept

/-! ## Steps -/

theorem Sweeper.deciding_start {s t : Sweeper} (h : s.start = some t) :
    t.deciding = s.deciding := by
  unfold start at h
  split at h
  · cases h
  · split at h <;> cases h <;> rfl

theorem Effect.isTaken_apply {effect : Effect} {c d : Cache layout} (h : effect.apply c = some d)
    (token : Token) : d.isTaken token = c.isTaken token := by
  cases effect with
  | wake =>
    obtain ⟨sweeper, hstart, rfl⟩ := Option.map_eq_some_iff.mp h
    cases token with
    | turn => rfl
    | verdict => exact Sweeper.deciding_start hstart
  | _ => cases h; cases token <;> rfl

theorem Access.isTaken_step {a : Access} {c d : Cache layout} {progress : Progress Access}
    (h : a.step c = some (d, progress)) (token : Token) : d.isTaken token = c.isTaken token := by
  cases stride_of_step h with
  | @look key request ticket =>
    unfold look
    split <;> cases token <;> rfl
  | effect applied => exact Effect.isTaken_apply applied token
  | _ => cases token <;> rfl

namespace Pass

theorem isTaken_giveUp (c : Cache layout) (ticket : Nat) (key : Key) (marks : List Mark)
    (next : Pass) (token : Token) :
    (giveUp c ticket key marks next).1.isTaken token = c.isTaken token := by
  unfold giveUp
  split <;> cases token <;> rfl

/-- A pass on its way through its keys and marks: it has its turn, but not the verdict. -/
structure Runs (p : Pass) : Prop where
  turn : p.has .turn = true
  verdict : p.has .verdict = false
  leaving : p.isLeaving = false

theorem Runs.has_eq {p next : Pass} (h : p.Runs) (hnext : next.Runs) (token : Token) :
    next.has token = p.has token := by
  cases token with
  | turn => exact hnext.turn.trans h.turn.symm
  | verdict => exact hnext.verdict.trans h.verdict.symm

theorem runs_clear (marks : List Mark) : (clear marks).Runs := by
  cases marks <;> exact ⟨rfl, rfl, rfl⟩

theorem runs_endRound (c : Cache layout) (survey : Survey) (round : Round) :
    (endRound c survey round).Runs := by
  cases round with
  | expiry =>
    simp only [endRound]
    split
    · exact ⟨rfl, rfl, rfl⟩
    · exact runs_clear _
  | eviction => exact runs_clear _

theorem runs_weighExcess (c : Cache layout) (survey : Survey) : (weighExcess c survey).Runs := by
  unfold weighExcess
  split
  · exact runs_clear _
  · split
    · exact ⟨rfl, rfl, rfl⟩
    · split
      · exact runs_clear _
      · exact ⟨rfl, rfl, rfl⟩

theorem runs_judgeExpiry (c : Cache layout) (ticket : Nat) (key : Key) (keys : List Key)
    (survey : Survey) : (judgeExpiry c ticket key keys survey).Runs := by
  unfold judgeExpiry
  split
  · exact ⟨rfl, rfl, rfl⟩
  · split <;> exact ⟨rfl, rfl, rfl⟩

theorem runs_judgeEviction (c : Cache layout) (ticket : Nat) (key : Key) (keys : List Key)
    (survey : Survey) : (judgeEviction c ticket key keys survey).Runs := by
  unfold judgeEviction
  split <;> exact ⟨rfl, rfl, rfl⟩

theorem runs_giveUp {c : Cache layout} {ticket : Nat} {key : Key} {marks : List Mark} {next : Pass}
    (h : next.Runs) : (giveUp c ticket key marks next).2.Runs := by
  unfold giveUp
  split
  · exact h
  · exact ⟨rfl, rfl, rfl⟩

/--
The legs of a pass: to its turn, on its way, which concerns no token, to the verdict, from shard to
shard, and out.
-/
inductive Leg (who : Worker) (c : Cache layout) :
    Pass -> Cache layout -> Progress Pass -> Prop where
  | enter : Leg who c .enter { c with passQueue := c.passQueue ++ [who] } (.more .queue)
  | begin (free : c.passLock = none) :
      Leg who c .queue { c with passLock := some who, passQueue := c.passQueue.erase who }
        (.more (.collect c.clock 0 []))
  | onward {p next : Pass} {d : Cache layout} (before : p.Runs) (after : next.Runs)
      (same : ∀ token, d.isTaken token = c.isTaken token) : Leg who c p d (.more next)
  | decide {sweeper : Sweeper} (begun : c.sweeper.beginStop = some sweeper) :
      Leg who c .decide { c with sweeper := sweeper } (.more (.sum 0 0))
  | sum {shard total : Nat} {rows : Table Key Entry} (listed : c.store.shard? shard = some rows) :
      Leg who c (.sum shard total) c (.more (.sum (shard + 1) (total + rows.size)))
  | summed {shard total : Nat} (behind : c.store.shard? shard = none) :
      Leg who c (.sum shard total) { c with sweeper := c.sweeper.endStop (total == 0) }
        (.more (.leave (.flag (total == 0))))
  | unwound {panic : Panic} : Leg who c (.unwind [] panic) c (.more (.leave (.panicked panic)))
  | leave {answer : Answer} : Leg who c (.leave answer) { c with passLock := none } (.done answer)

theorem leg_of_step {p : Pass} {who : Worker} {c d : Cache layout} {progress : Progress Pass}
    (h : p.step who c = some (d, progress)) : Leg who c p d progress := by
  cases stride_of_step h with
  | enter => exact .enter
  | begin free => exact .begin free
  | visited => exact .onward ⟨rfl, rfl, rfl⟩ (runs_endRound c _ _) fun _ => rfl
  | judgeExpiry => exact .onward ⟨rfl, rfl, rfl⟩ (runs_judgeExpiry c _ _ _ _) fun _ => rfl
  | judgeEviction => exact .onward ⟨rfl, rfl, rfl⟩ (runs_judgeEviction c _ _ _ _) fun _ => rfl
  | dismiss =>
    exact .onward ⟨rfl, rfl, rfl⟩ (runs_giveUp ⟨rfl, rfl, rfl⟩) (isTaken_giveUp c _ _ _ _)
  | weigh => exact .onward ⟨rfl, rfl, rfl⟩ (runs_weighExcess c _) fun _ => rfl
  | effect applied =>
    exact .onward ⟨rfl, rfl, rfl⟩ ⟨rfl, rfl, rfl⟩ (Effect.isTaken_apply applied)
  | removed =>
    exact .onward ⟨rfl, rfl, rfl⟩ (runs_giveUp ⟨rfl, rfl, rfl⟩) (isTaken_giveUp c _ _ _ _)
  | free =>
    exact .onward ⟨rfl, rfl, rfl⟩ (runs_clear _) fun token => by cases token <;> rfl
  | decide begun => exact .decide begun
  | sum listed => exact .sum listed
  | summed behind => exact .summed behind
  | unwind =>
    exact .onward ⟨rfl, rfl, rfl⟩ (runs_giveUp ⟨rfl, rfl, rfl⟩) (isTaken_giveUp c _ _ _ _)
  | unwound => exact .unwound
  | leave => exact .leave
  | _ => exact .onward ⟨rfl, rfl, rfl⟩ ⟨rfl, rfl, rfl⟩ fun token => by cases token <;> rfl

theorem grip_step {p : Pass} {who : Worker} {c d : Cache layout} {progress : Progress Pass}
    (h : p.step who c = some (d, progress)) (token : Token) :
    Grip (p.has token) (c.isTaken token) (progress.point?.any (has token)) (d.isTaken token) := by
  cases leg_of_step h with
  | begin free =>
    cases token with
    | turn =>
      have hfree : c.isTaken .turn = false := by simp [Cache.isTaken, free]
      rw [hfree]
      exact .taken
    | verdict => exact .kept
  | onward before after same => exact .of_eq (before.has_eq after token) (same token)
  | decide begun =>
    obtain ⟨hfree, rfl⟩ := Sweeper.beginStop_eq_some_iff.mp begun
    cases token with
    | turn => exact .kept
    | verdict =>
      have hfree : c.isTaken .verdict = false := hfree
      rw [hfree]
      exact .taken
  | summed behind =>
    cases token with
    | turn => exact .kept
    | verdict => exact .given
  | leave =>
    cases token with
    | turn => exact .given
    | verdict => exact .kept
  | _ => cases token <;> exact .kept

end Pass

theorem Frame.grip_step {frame : Frame} {who : Worker} {c d : Cache layout}
    {progress : Progress Frame} (h : frame.step who c = some (d, progress)) (token : Token) :
    Grip (frame.has token) (c.isTaken token) (progress.point?.any (has token))
      (d.isTaken token) := by
  cases stride_of_step h with
  | @access a d progress step =>
    refine .of_eq ?_ (Access.isTaken_step step token)
    cases progress <;> rfl
  | @pass p d progress step =>
    have hgrip := Pass.grip_step step token
    cases progress <;> exact hgrip
  | _ => cases token <;> exact .kept

theorem Frame.Fresh.has_eq {frame : Frame} (h : frame.Fresh) (token : Token) :
    frame.has token = false := by
  cases h <;> cases token <;> rfl

theorem Cache.Alike.isTaken_eq {c d : Cache layout} (h : c.Alike d) (token : Token) :
    d.isTaken token = c.isTaken token := by
  cases token with
  | turn => exact congrArg Option.isSome h.passLock_eq
  | verdict => exact h.deciding_eq

namespace Machine

/-! ## The invariant -/

def has (m : Machine layout) (token : Token) (place : Place) : Bool :=
  (m.frameAt place).any (Frame.has token)

theorem has_iff {m : Machine layout} {token : Token} {place : Place} :
    m.has token place = true ↔ ∃ p, m.frameAt place = some (.pass p) ∧ p.has token = true := by
  constructor
  · intro h
    obtain ⟨frame, hframe, hhas⟩ := (Option.any_eq_true _ _).mp h
    cases frame with
    | pass p => exact ⟨p, hframe, hhas⟩
    | _ => cases hhas
  · rintro ⟨p, hframe, hhas⟩
    rw [has, hframe]
    exact hhas

theorem eq_sum_of_has {p : Pass} (h : p.has .verdict = true) :
    ∃ shard total, p = .sum shard total := by
  cases p with
  | sum shard total => exact ⟨shard, total, rfl⟩
  | _ => cases h

/-- A token is had by one operation at most, and by one exactly if it is taken. -/
structure Sole (m : Machine layout) (token : Token) : Prop where
  unique : ∀ {a b}, m.has token a = true → m.has token b = true → a = b
  taken : ∀ {place}, m.has token place = true → m.cache.isTaken token = true
  had : m.cache.isTaken token = true → ∃ place, m.has token place = true

theorem sole_ofConfig (config : Config) (clock : Instant) (token : Token) :
    (ofConfig layout config clock).Sole token := by
  have hnobody : ∀ place, (ofConfig layout config clock).has token place = false := by
    intro place
    cases place <;> rfl
  refine ⟨fun {a b} ha => ?_, fun {place} hplace => ?_, fun htaken => ?_⟩
  · rw [hnobody] at ha
    cases ha
  · rw [hnobody] at hplace
    cases hplace
  · cases token <;> cases htaken

namespace Sole

variable {m n : Machine layout} {event : Event} {token : Token}

theorem update (h : m.Sole token) {place : Place} (hothers : m.SameBut n place)
    (hgrip : Grip (m.has token place) (m.cache.isTaken token) (n.has token place)
      (n.cache.isTaken token)) : n.Sole token := by
  have same : ∀ other, other ≠ place → n.has token other = m.has token other := by
    intro other hother
    rw [has, has, hothers other hother]
  generalize hhad : m.has token place = had at hgrip
  generalize hwas : m.cache.isTaken token = was at hgrip
  generalize hhas : n.has token place = has at hgrip
  generalize hnow : n.cache.isTaken token = now at hgrip
  cases hgrip with
  | kept =>
    have hsame : ∀ other, n.has token other = m.has token other := by
      intro other
      by_cases hother : other = place
      · rw [hother, hhas, hhad]
      · exact same other hother
    refine ⟨fun {a b} ha hb => ?_, fun {other} hother => ?_, fun htaken => ?_⟩
    · rw [hsame] at ha hb
      exact h.unique ha hb
    · rw [hsame] at hother
      rw [hnow, ← hwas]
      exact h.taken hother
    · rw [hnow, ← hwas] at htaken
      obtain ⟨other, hother⟩ := h.had htaken
      exact ⟨other, (hsame other).trans hother⟩
  | taken =>
    -- nobody else has a token that was free
    have only : ∀ other, n.has token other = true → other = place := by
      intro other hother
      by_contra hne
      rw [same other hne] at hother
      rw [h.taken hother] at hwas
      cases hwas
    exact ⟨fun {a b} ha hb => (only a ha).trans (only b hb).symm, fun _ => hnow,
      fun _ => ⟨place, hhas⟩⟩
  | given =>
    have nobody : ∀ other, n.has token other = false := by
      intro other
      by_cases hother : other = place
      · rw [hother, hhas]
      · rw [same other hother]
        exact Bool.eq_false_iff.mpr fun hhas' => hother (h.unique hhas' hhad)
    refine ⟨fun {a b} ha => ?_, fun {other} hother => ?_, fun htaken => ?_⟩
    · rw [nobody] at ha
      cases ha
    · rw [nobody] at hother
      cases hother
    · rw [hnow] at htaken
      cases htaken

theorem step (h : m.Sole token) (hstep : m.step event = some n) : n.Sole token := by
  cases step_cases hstep with
  | aside frames alike acting =>
    have hsame : ∀ place, n.has token place = m.has token place := by
      intro place
      rw [has, has, frames]
    refine ⟨fun {a b} ha hb => ?_, fun {place} hplace => ?_, fun htaken => ?_⟩
    · rw [hsame] at ha hb
      exact h.unique ha hb
    · rw [hsame] at hplace
      rw [alike.isTaken_eq]
      exact h.taken hplace
    · rw [alike.isTaken_eq] at htaken
      obtain ⟨place, hplace⟩ := h.had htaken
      exact ⟨place, (hsame place).trans hplace⟩
  | opened place frame fresh free now others alike acting =>
    refine h.update others (.of_eq ?_ (alike.isTaken_eq token))
    rw [has, has, free, now]
    exact fresh.has_eq token
  | ended place access next outcome was after now others same acting event =>
    refine h.update others (.of_eq ?_ (by rw [same]))
    rw [has, has, was, now]
    rfl
  | stepped place frame cache progress was step now others alike acting event =>
    refine h.update others ?_
    rw [has, has, was, now, alike.isTaken_eq]
    exact Frame.grip_step step token

end Sole

end Machine

end TtlCache
