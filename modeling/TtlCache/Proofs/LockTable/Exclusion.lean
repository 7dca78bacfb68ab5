import TtlCache.LockTable

/-!
# Exclusion in a lock table

A guard gives its key back in two steps, and between them the key may already have a new record
with a new mutex.  Two mutexes of one key can therefore be locked at the same time.  What keeps
the holders apart is `LockTable.Sound`: every registered guard has the mutex of the record of its
key, a record counts its registered guards and is kept for as long as there is one, and a mutex
is in the possession of at most one guard.  Every step keeps this, so every run does.
-/

namespace TtlCache

inductive LockStep (κ : Type) where
  | register (key : κ)
  | acquire (ticket : Nat)
  | tryLock (key : κ)
  | unregister (ticket : Nat)
  | release (ticket : Nat)
  deriving DecidableEq, Repr

namespace LockTable

variable {κ : Type} [DecidableEq κ]

/--
What a step makes of a table, if it can happen.

A key is given back by its holder, and a mutex is released by a guard that has unregistered.
-/
def step (t : LockTable κ) : LockStep κ -> Option (LockTable κ)
  | .register key => some (t.register key).2
  | .acquire ticket => t.acquire? ticket
  | .tryLock key => some (t.tryLock key).2
  | .unregister ticket =>
      if t.stage? ticket = some .holding then some (t.unregister ticket).2 else none
  | .release ticket => if t.stage? ticket = some .leaving then some (t.release ticket) else none

def runAll (t : LockTable κ) (steps : List (LockStep κ)) : Option (LockTable κ) :=
  steps.foldlM step t

def registered (t : LockTable κ) (key : κ) : Nat :=
  t.guards.rows.countP fun row => decide (row.2.key = key ∧ row.2.stage ≠ .leaving)

/-! ## What the operations do to guards and records -/

omit [DecidableEq κ] in
theorem isLocked_iff {t : LockTable κ} {mutex : Nat} :
    t.isLocked mutex = true ↔
      ∃ ticket guard, t.guards.get? ticket = some guard ∧ guard.mutex = mutex ∧
        guard.stage ≠ .waiting := by
  simp only [isLocked, List.any_eq_true, Bool.and_eq_true, decide_eq_true_eq]
  constructor
  · rintro ⟨row, hrow, hmutex, hstage⟩
    exact ⟨row.1, row.2, Table.get?_eq_some_iff.mpr hrow, hmutex, hstage⟩
  · rintro ⟨ticket, guard, hget, hmutex, hstage⟩
    exact ⟨(ticket, guard), Table.get?_eq_some_iff.mp hget, hmutex, hstage⟩

omit [DecidableEq κ] in
theorem get?_guards_advance (t : LockTable κ) (ticket other : Nat) (stage : GuardStage) :
    (t.advance ticket stage).guards.get? other =
      if other = ticket then (t.guards.get? ticket).map fun guard => { guard with stage := stage }
      else t.guards.get? other :=
  Table.get?_modify t.guards ticket other _

omit [DecidableEq κ] in
theorem guard_of_advance {t : LockTable κ} {ticket other : Nat} {stage : GuardStage}
    {moved : Guard κ} (h : (t.advance ticket stage).guards.get? other = some moved) :
    (other = ticket ∧
        ∃ guard, t.guards.get? ticket = some guard ∧ moved = { guard with stage := stage }) ∨
      (other ≠ ticket ∧ t.guards.get? other = some moved) := by
  rw [get?_guards_advance] at h
  split at h
  · next heq =>
    obtain ⟨guard, hguard, hmoved⟩ := Option.map_eq_some_iff.mp h
    exact Or.inl ⟨heq, guard, hguard, hmoved.symm⟩
  · next hne => exact Or.inr ⟨hne, h⟩

theorem registered_advance {t : LockTable κ} {ticket : Nat} {guard : Guard κ}
    (h : t.guards.get? ticket = some guard) (stage : GuardStage) (key : κ) :
    ((t.advance ticket stage).registered key +
        if guard.key = key ∧ guard.stage ≠ .leaving then 1 else 0) =
      t.registered key + if guard.key = key ∧ stage ≠ .leaving then 1 else 0 := by
  have hcount := Table.countP_insert_of_get? h { guard with stage := stage }
    fun row => decide (row.2.key = key ∧ row.2.stage ≠ .leaving)
  simpa [advance, registered, Table.modify, h] using hcount

theorem registered_pos {t : LockTable κ} {ticket : Nat} {guard : Guard κ}
    (h : t.guards.get? ticket = some guard) (hstage : guard.stage ≠ .leaving) :
    0 < t.registered guard.key := by
  rw [registered, List.countP_pos_iff]
  exact ⟨(ticket, guard), Table.get?_eq_some_iff.mp h, by simp [hstage]⟩

theorem recordFor_of_some {t : LockTable κ} {key : κ} {record : LockRecord}
    (h : t.records.get? key = some record) : t.recordFor key = (record, t) := by
  simp [recordFor, h]

theorem recordFor_of_none {t : LockTable κ} {key : κ} (h : t.records.get? key = none) :
    t.recordFor key =
      ({ mutex := t.nextMutex, waiters := 0 },
        { t with
          records := t.records.insert key { mutex := t.nextMutex, waiters := 0 }
          nextMutex := t.nextMutex + 1 }) := by
  simp [recordFor, h]

/-- The table after a new guard has registered in a stage, whether it waits or not. -/
def join (t : LockTable κ) (key : κ) (stage : GuardStage) : LockTable κ :=
  (((t.recordFor key).2.enlist key).enroll
    { key := key, mutex := (t.recordFor key).1.mutex, stage := stage }).2

theorem nextTicket_recordFor (t : LockTable κ) (key : κ) :
    (t.recordFor key).2.nextTicket = t.nextTicket := by
  unfold recordFor
  split <;> rfl

theorem guards_recordFor (t : LockTable κ) (key : κ) :
    (t.recordFor key).2.guards = t.guards := by
  unfold recordFor
  split <;> rfl

theorem get?_records_recordFor (t : LockTable κ) (key other : κ) :
    (t.recordFor key).2.records.get? other =
      if other = key then some (t.recordFor key).1 else t.records.get? other := by
  cases h : t.records.get? key with
  | none =>
    rw [recordFor_of_none h]
    exact Table.get?_insert t.records key other _
  | some record =>
    rw [recordFor_of_some h]
    by_cases hkey : other = key
    · rw [if_pos hkey, hkey, h]
    · rw [if_neg hkey]

theorem register_eq (t : LockTable κ) (key : κ) :
    t.register key = (t.nextTicket, t.join key .waiting) := by
  rw [← nextTicket_recordFor t key]
  rfl

theorem tryLock_eq (t : LockTable κ) (key : κ) :
    t.tryLock key =
      if (t.recordFor key).2.isLocked (t.recordFor key).1.mutex then
        (none, (t.recordFor key).2)
      else
        (some t.nextTicket, t.join key .holding) := by
  rw [← nextTicket_recordFor t key]
  rfl

theorem guards_join (t : LockTable κ) (key : κ) (stage : GuardStage) :
    (t.join key stage).guards =
      t.guards.insert t.nextTicket
        { key := key, mutex := (t.recordFor key).1.mutex, stage := stage } := by
  rw [← nextTicket_recordFor t key, ← guards_recordFor t key]
  rfl

theorem get?_guards_join (t : LockTable κ) (key : κ) (stage : GuardStage) (ticket : Nat) :
    (t.join key stage).guards.get? ticket =
      if ticket = t.nextTicket then
        some { key := key, mutex := (t.recordFor key).1.mutex, stage := stage }
      else t.guards.get? ticket := by
  rw [guards_join, Table.get?_insert]

theorem get?_records_join (t : LockTable κ) (key other : κ) (stage : GuardStage) :
    (t.join key stage).records.get? other =
      if other = key then
        some { (t.recordFor key).1 with waiters := (t.recordFor key).1.waiters + 1 }
      else t.records.get? other := by
  have hget := Table.get?_modify (t.recordFor key).2.records key other
    fun record => { record with waiters := record.waiters + 1 }
  rw [get?_records_recordFor, get?_records_recordFor, if_pos rfl] at hget
  by_cases hkey : other = key
  · rw [if_pos hkey] at hget ⊢
    exact hget
  · rw [if_neg hkey, if_neg hkey] at hget
    rw [if_neg hkey]
    exact hget

theorem nextTicket_join (t : LockTable κ) (key : κ) (stage : GuardStage) :
    (t.join key stage).nextTicket = t.nextTicket + 1 := by
  rw [← nextTicket_recordFor t key]
  rfl

theorem nextMutex_join (t : LockTable κ) (key : κ) (stage : GuardStage) :
    (t.join key stage).nextMutex = (t.recordFor key).2.nextMutex := rfl

theorem registered_join {t : LockTable κ} (h : t.nextTicket ∉ t.guards.keys) (key other : κ)
    {stage : GuardStage} (hstage : stage ≠ .leaving) :
    (t.join key stage).registered other =
      t.registered other + if key = other then 1 else 0 := by
  rw [registered, guards_join, Table.countP_insert_of_notMem h, registered]
  simp [hstage]

omit [DecidableEq κ] in
theorem acquire?_eq_some_iff {t u : LockTable κ} {ticket : Nat} :
    t.acquire? ticket = some u ↔
      ∃ guard, t.guards.get? ticket = some guard ∧ guard.stage = .waiting ∧
        t.isLocked guard.mutex = false ∧ u = t.advance ticket .holding := by
  unfold acquire?
  cases t.guards.get? ticket with
  | none => simp
  | some guard =>
    simp only [Bool.and_eq_true, decide_eq_true_eq, Bool.not_eq_true', Option.some.injEq]
    rw [Option.ite_none_right_eq_some]
    constructor
    · rintro ⟨⟨hstage, hfree⟩, hsome⟩
      exact ⟨guard, rfl, hstage, hfree, (Option.some.inj hsome).symm⟩
    · rintro ⟨_, rfl, hstage, hfree, rfl⟩
      exact ⟨⟨hstage, hfree⟩, rfl⟩

omit [DecidableEq κ] in
theorem stage?_eq_some_iff {t : LockTable κ} {ticket : Nat} {stage : GuardStage} :
    t.stage? ticket = some stage ↔
      ∃ guard, t.guards.get? ticket = some guard ∧ guard.stage = stage := by
  rw [stage?, Option.map_eq_some_iff]

/-! ## The invariant -/

/-- What holds of a lock table between any two steps. -/
structure Sound (t : LockTable κ) : Prop where
  ticket_lt : ∀ {ticket guard}, t.guards.get? ticket = some guard → ticket < t.nextTicket
  mutex_lt : ∀ {ticket guard}, t.guards.get? ticket = some guard → guard.mutex < t.nextMutex
  record_lt : ∀ {key record}, t.records.get? key = some record → record.mutex < t.nextMutex
  /-- A registered guard has the mutex of the record of its key. -/
  recorded : ∀ {ticket guard}, t.guards.get? ticket = some guard → guard.stage ≠ .leaving →
    ∃ record, t.records.get? guard.key = some record ∧ record.mutex = guard.mutex
  counted : ∀ {key record}, t.records.get? key = some record → record.waiters = t.registered key
  wanted : ∀ {key record}, t.records.get? key = some record → 0 < record.waiters
  /-- A mutex is in the possession of at most one guard. -/
  exclusive : ∀ {a b guard other}, t.guards.get? a = some guard → t.guards.get? b = some other →
    guard.stage ≠ .waiting → other.stage ≠ .waiting → guard.mutex = other.mutex → a = b

theorem sound_empty : (empty : LockTable κ).Sound := by
  constructor <;> intros <;> simp_all [empty]

namespace Sound

variable {t : LockTable κ}

theorem nextTicket_fresh (h : t.Sound) : t.nextTicket ∉ t.guards.keys := by
  intro hmem
  obtain ⟨guard, hguard⟩ := Option.isSome_iff_exists.mp (Table.mem_keys_iff.mp hmem)
  exact Nat.lt_irrefl _ (h.ticket_lt hguard)

theorem registered_of_none (h : t.Sound) {key : κ} (hkey : t.records.get? key = none) :
    t.registered key = 0 := by
  rw [registered, List.countP_eq_zero]
  intro row hrow hreg
  obtain ⟨hkey', hstage⟩ := of_decide_eq_true hreg
  obtain ⟨record, hrecord, -⟩ := h.recorded (Table.get?_eq_some_iff.mpr hrow) hstage
  rw [hkey', hkey] at hrecord
  cases hrecord

theorem nextMutex_free (h : t.Sound) : t.isLocked t.nextMutex = false := by
  rw [← Bool.not_eq_true, isLocked_iff]
  rintro ⟨ticket, guard, hguard, hmutex, -⟩
  exact Nat.lt_irrefl _ (hmutex ▸ h.mutex_lt hguard)

theorem waiters_recordFor (h : t.Sound) (key : κ) :
    (t.recordFor key).1.waiters = t.registered key := by
  cases hkey : t.records.get? key with
  | none => rw [recordFor_of_none hkey, h.registered_of_none hkey]
  | some record => rw [recordFor_of_some hkey, h.counted hkey]

theorem mutex_recordFor_lt (h : t.Sound) (key : κ) :
    (t.recordFor key).1.mutex < (t.recordFor key).2.nextMutex := by
  cases hkey : t.records.get? key with
  | none =>
    rw [recordFor_of_none hkey]
    exact Nat.lt_succ_self _
  | some record =>
    rw [recordFor_of_some hkey]
    exact h.record_lt hkey

theorem nextMutex_le_recordFor (t : LockTable κ) (key : κ) :
    t.nextMutex ≤ (t.recordFor key).2.nextMutex := by
  cases hkey : t.records.get? key with
  | none =>
    rw [recordFor_of_none hkey]
    exact Nat.le_succ _
  | some record =>
    exact Nat.le_of_eq (by rw [recordFor_of_some hkey])

/-- A record whose mutex is locked was there before, so a refused attempt changes nothing. -/
theorem recordFor_of_locked (h : t.Sound) {key : κ}
    (hlocked : (t.recordFor key).2.isLocked (t.recordFor key).1.mutex = true) :
    (t.recordFor key).2 = t := by
  cases hkey : t.records.get? key with
  | none =>
    rw [recordFor_of_none hkey] at hlocked
    exact absurd hlocked (by simpa [isLocked] using h.nextMutex_free)
  | some record => rw [recordFor_of_some hkey]

/-! ### Steps -/

theorem join (h : t.Sound) (key : κ) {stage : GuardStage} (hstage : stage ≠ .leaving)
    (hfree : stage = .holding → t.isLocked (t.recordFor key).1.mutex = false) :
    (t.join key stage).Sound where
  ticket_lt := by
    intro ticket guard hguard
    rw [get?_guards_join] at hguard
    rw [nextTicket_join]
    split at hguard
    · omega
    · exact Nat.lt_succ_of_lt (h.ticket_lt hguard)
  mutex_lt := by
    intro ticket guard hguard
    rw [get?_guards_join] at hguard
    rw [nextMutex_join]
    split at hguard
    · cases hguard
      exact h.mutex_recordFor_lt key
    · exact Nat.lt_of_lt_of_le (h.mutex_lt hguard) (nextMutex_le_recordFor t key)
  record_lt := by
    intro other record hrecord
    rw [get?_records_join] at hrecord
    rw [nextMutex_join]
    split at hrecord
    · cases hrecord
      exact h.mutex_recordFor_lt key
    · exact Nat.lt_of_lt_of_le (h.record_lt hrecord) (nextMutex_le_recordFor t key)
  recorded := by
    intro ticket guard hguard hreg
    rw [get?_guards_join] at hguard
    rw [get?_records_join]
    split at hguard
    · cases hguard
      exact ⟨_, if_pos rfl, rfl⟩
    · obtain ⟨record, hrecord, hmutex⟩ := h.recorded hguard hreg
      by_cases hkey : guard.key = key
      · rw [hkey] at hrecord
        rw [if_pos hkey, recordFor_of_some hrecord]
        exact ⟨_, rfl, hmutex⟩
      · rw [if_neg hkey]
        exact ⟨record, hrecord, hmutex⟩
  counted := by
    intro other record hrecord
    rw [get?_records_join] at hrecord
    rw [registered_join h.nextTicket_fresh key other hstage]
    by_cases hkey : other = key
    · rw [if_pos hkey] at hrecord
      cases hrecord
      rw [if_pos hkey.symm, hkey, ← h.waiters_recordFor key]
    · rw [if_neg hkey] at hrecord
      rw [if_neg (Ne.symm hkey)]
      exact h.counted hrecord
  wanted := by
    intro other record hrecord
    rw [get?_records_join] at hrecord
    split at hrecord
    · cases hrecord
      exact Nat.succ_pos _
    · exact h.wanted hrecord
  exclusive := by
    -- nobody else possesses the mutex of a new guard that does not wait
    have alone : ∀ {ticket guard}, t.guards.get? ticket = some guard → guard.stage ≠ .waiting →
        stage ≠ .waiting → guard.mutex ≠ (t.recordFor key).1.mutex := by
      intro ticket guard hguard hpossess hnew hmutex
      have hholding : stage = .holding := by cases stage <;> simp_all
      have hlocked := isLocked_iff.mpr ⟨ticket, guard, hguard, hmutex, hpossess⟩
      rw [hfree hholding] at hlocked
      cases hlocked
    intro a b guard other ha hb hsa hsb hmutex
    rw [get?_guards_join] at ha hb
    by_cases hanew : a = t.nextTicket <;> by_cases hbnew : b = t.nextTicket
    · rw [hanew, hbnew]
    · rw [if_pos hanew] at ha
      rw [if_neg hbnew] at hb
      cases ha
      exact absurd hmutex.symm (alone hb hsb hsa)
    · rw [if_neg hanew] at ha
      rw [if_pos hbnew] at hb
      cases hb
      exact absurd hmutex (alone ha hsa hsb)
    · rw [if_neg hanew] at ha
      rw [if_neg hbnew] at hb
      exact h.exclusive ha hb hsa hsb hmutex

theorem ticket_lt_advance (h : t.Sound) {ticket other : Nat} {stage : GuardStage} {moved : Guard κ}
    (hmoved : (t.advance ticket stage).guards.get? other = some moved) : other < t.nextTicket := by
  rcases guard_of_advance hmoved with ⟨rfl, was, hwas, -⟩ | ⟨-, hwas⟩
  · exact h.ticket_lt hwas
  · exact h.ticket_lt hwas

theorem mutex_lt_advance (h : t.Sound) {ticket other : Nat} {stage : GuardStage} {moved : Guard κ}
    (hmoved : (t.advance ticket stage).guards.get? other = some moved) :
    moved.mutex < t.nextMutex := by
  rcases guard_of_advance hmoved with ⟨-, was, hwas, rfl⟩ | ⟨-, hwas⟩
  · have hlt := h.mutex_lt hwas
    exact hlt
  · exact h.mutex_lt hwas

theorem acquire (h : t.Sound) {ticket : Nat} {guard : Guard κ}
    (hguard : t.guards.get? ticket = some guard) (hstage : guard.stage = .waiting)
    (hfree : t.isLocked guard.mutex = false) : (t.advance ticket .holding).Sound where
  ticket_lt := h.ticket_lt_advance
  mutex_lt := h.mutex_lt_advance
  record_lt := h.record_lt
  recorded := by
    intro other moved hmoved hreg
    rcases guard_of_advance hmoved with ⟨-, was, hwas, rfl⟩ | ⟨-, hwas⟩
    · rw [hguard] at hwas
      cases hwas
      have hrecorded := h.recorded hguard (by simp [hstage])
      exact hrecorded
    · exact h.recorded hwas hreg
  counted := by
    intro key record hrecord
    have hmoved := registered_advance hguard .holding key
    have hcounted := h.counted hrecord
    simp only [hstage, ne_eq, reduceCtorEq, not_false_eq_true, and_true] at hmoved
    omega
  wanted := h.wanted
  exclusive := by
    -- nobody else possesses the mutex that was free
    have alone : ∀ {other possessor}, t.guards.get? other = some possessor →
        possessor.stage ≠ .waiting → possessor.mutex ≠ guard.mutex := by
      intro other possessor hpossessor hpossess hmutex
      have hlocked := isLocked_iff.mpr ⟨other, possessor, hpossessor, hmutex, hpossess⟩
      rw [hfree] at hlocked
      cases hlocked
    intro a b first second ha hb hsa hsb hmutex
    rcases guard_of_advance ha with ⟨haticket, was, hwas, rfl⟩ | ⟨-, hfirst⟩
    · rcases guard_of_advance hb with ⟨hbticket, -⟩ | ⟨-, hsecond⟩
      · rw [haticket, hbticket]
      · rw [hguard] at hwas
        cases hwas
        exact absurd hmutex.symm (alone hsecond hsb)
    · rcases guard_of_advance hb with ⟨-, was, hwas, rfl⟩ | ⟨-, hsecond⟩
      · rw [hguard] at hwas
        cases hwas
        exact absurd hmutex (alone hfirst hsa)
      · exact h.exclusive hfirst hsecond hsa hsb hmutex

/-- The last registered guard takes the record with it; any other one is taken off its count. -/
theorem unregister_eq {ticket : Nat} {guard : Guard κ} {record : LockRecord}
    (hguard : t.guards.get? ticket = some guard)
    (hrecord : t.records.get? guard.key = some record) (hwaiters : 0 < record.waiters) :
    t.unregister ticket =
      (none,
        { t.advance ticket .leaving with
          records :=
            if record.waiters = 1 then t.records.erase guard.key
            else t.records.insert guard.key { record with waiters := record.waiters - 1 } }) := by
  obtain ⟨mutex, waiters⟩ := record
  simp only [unregister, hguard, hrecord]
  cases waiters with
  | zero => exact absurd hwaiters (Nat.lt_irrefl 0)
  | succ waiters =>
    cases waiters with
    | zero => rfl
    | succ waiters => simp [advance]

theorem get?_records_unregister {ticket : Nat} {guard : Guard κ} {record : LockRecord}
    (hguard : t.guards.get? ticket = some guard)
    (hrecord : t.records.get? guard.key = some record) (hwaiters : 0 < record.waiters) (key : κ) :
    (t.unregister ticket).2.records.get? key =
      if key = guard.key then
        if record.waiters = 1 then none else some { record with waiters := record.waiters - 1 }
      else t.records.get? key := by
  rw [unregister_eq hguard hrecord hwaiters]
  by_cases hone : record.waiters = 1
  · simp only [if_pos hone, Table.get?_erase]
  · simp only [if_neg hone, Table.get?_insert]

theorem guards_unregister {ticket : Nat} {guard : Guard κ} {record : LockRecord}
    (hguard : t.guards.get? ticket = some guard)
    (hrecord : t.records.get? guard.key = some record) (hwaiters : 0 < record.waiters) :
    (t.unregister ticket).2.guards = (t.advance ticket .leaving).guards := by
  rw [unregister_eq hguard hrecord hwaiters]

theorem registered_unregister {ticket : Nat} {guard : Guard κ} {record : LockRecord}
    (hguard : t.guards.get? ticket = some guard)
    (hrecord : t.records.get? guard.key = some record) (hwaiters : 0 < record.waiters)
    (hstage : guard.stage = .holding) (key : κ) :
    ((t.unregister ticket).2.registered key + if guard.key = key then 1 else 0) =
      t.registered key := by
  have hmoved := registered_advance hguard .leaving key
  rw [registered, guards_unregister hguard hrecord hwaiters, ← registered]
  simpa [hstage] using hmoved

omit [DecidableEq κ] in
/-- A holder that unregisters keeps its mutex, and no other guard gets one. -/
theorem possessor_of_leaving {ticket other : Nat} {guard moved : Guard κ}
    (hguard : t.guards.get? ticket = some guard) (hstage : guard.stage = .holding)
    (hmoved : (t.advance ticket .leaving).guards.get? other = some moved)
    (hpossess : moved.stage ≠ .waiting) :
    ∃ was, t.guards.get? other = some was ∧ was.stage ≠ .waiting ∧ was.mutex = moved.mutex := by
  rcases guard_of_advance hmoved with ⟨rfl, was, hwas, rfl⟩ | ⟨-, hwas⟩
  · rw [hguard] at hwas
    cases hwas
    exact ⟨guard, hguard, by simp [hstage], rfl⟩
  · exact ⟨moved, hwas, hpossess, rfl⟩

/-- A holder that unregisters meets no panic. -/
theorem unregister (h : t.Sound) {ticket : Nat} {guard : Guard κ}
    (hguard : t.guards.get? ticket = some guard) (hstage : guard.stage = .holding) :
    (t.unregister ticket).1 = none ∧ (t.unregister ticket).2.Sound := by
  obtain ⟨record, hrecord, -⟩ := h.recorded hguard (by simp [hstage])
  have hwaiters := h.wanted hrecord
  have heq := unregister_eq hguard hrecord hwaiters
  have hguards := guards_unregister hguard hrecord hwaiters
  have hrecords := get?_records_unregister hguard hrecord hwaiters
  have hcounts := registered_unregister hguard hrecord hwaiters hstage
  refine ⟨by rw [heq], ?_⟩
  constructor
  case ticket_lt =>
    intro other moved hmoved
    rw [hguards] at hmoved
    rw [heq]
    exact h.ticket_lt_advance hmoved
  case mutex_lt =>
    intro other moved hmoved
    rw [hguards] at hmoved
    rw [heq]
    exact h.mutex_lt_advance hmoved
  case record_lt =>
    intro key kept hkept
    rw [hrecords] at hkept
    rw [heq]
    split at hkept
    · split at hkept
      · cases hkept
      · cases hkept
        have hlt := h.record_lt hrecord
        exact hlt
    · exact h.record_lt hkept
  case recorded =>
    intro other moved hmoved hreg
    rw [hguards] at hmoved
    rcases guard_of_advance hmoved with ⟨-, was, -, rfl⟩ | ⟨hne, hwas⟩
    · exact absurd rfl hreg
    · obtain ⟨kept, hkept, hmutex⟩ := h.recorded hwas hreg
      rw [hrecords]
      by_cases hkey : moved.key = guard.key
      · -- the record stays, as this guard is still counted in it
        have hpos : 0 < (t.unregister ticket).2.registered moved.key :=
          registered_pos (by rw [hguards, get?_guards_advance, if_neg hne, hwas]) hreg
        have hcount := hcounts moved.key
        rw [if_pos hkey.symm, hkey, ← h.counted hrecord] at hcount
        rw [hkey] at hkept hpos
        rw [hrecord] at hkept
        cases hkept
        rw [if_pos hkey, if_neg (by omega)]
        exact ⟨_, rfl, hmutex⟩
      · rw [if_neg hkey]
        exact ⟨kept, hkept, hmutex⟩
  case counted =>
    intro key kept hkept
    have hcount := hcounts key
    rw [hrecords] at hkept
    by_cases hkey : key = guard.key
    · have hall := h.counted hrecord
      rw [if_pos hkey] at hkept
      rw [if_pos hkey.symm, hkey] at hcount
      rw [hkey]
      split at hkept
      · cases hkept
      · cases hkept
        show record.waiters - 1 = _
        omega
    · rw [if_neg hkey] at hkept
      rw [if_neg (Ne.symm hkey)] at hcount
      rw [h.counted hkept]
      omega
  case wanted =>
    intro key kept hkept
    rw [hrecords] at hkept
    split at hkept
    · split at hkept
      · cases hkept
      · cases hkept
        show 0 < record.waiters - 1
        omega
    · exact h.wanted hkept
  case exclusive =>
    -- whoever possesses a mutex now possessed it before
    intro a b first second ha hb hsa hsb hmutex
    rw [hguards] at ha hb
    obtain ⟨wasFirst, hfirst, hpossessFirst, hmutexFirst⟩ :=
      possessor_of_leaving hguard hstage ha hsa
    obtain ⟨wasSecond, hsecond, hpossessSecond, hmutexSecond⟩ :=
      possessor_of_leaving hguard hstage hb hsb
    exact h.exclusive hfirst hsecond hpossessFirst hpossessSecond
      (by rw [hmutexFirst, hmutexSecond, hmutex])

theorem release (h : t.Sound) {ticket : Nat} {guard : Guard κ}
    (hguard : t.guards.get? ticket = some guard) (hstage : guard.stage = .leaving) :
    (t.release ticket).Sound := by
  have back : ∀ {other kept}, (t.release ticket).guards.get? other = some kept →
      t.guards.get? other = some kept := by
    intro other kept hkept
    rw [LockTable.release, Table.get?_erase] at hkept
    split at hkept
    · cases hkept
    · exact hkept
  have hcounts : ∀ key, (t.release ticket).registered key = t.registered key := by
    intro key
    have hcount := Table.countP_erase_of_get? hguard
      fun row => decide (row.2.key = key ∧ row.2.stage ≠ .leaving)
    simpa [LockTable.release, registered, hstage] using hcount
  constructor
  case ticket_lt => exact fun hkept => h.ticket_lt (back hkept)
  case mutex_lt => exact fun hkept => h.mutex_lt (back hkept)
  case record_lt => exact h.record_lt
  case recorded => exact fun hkept => h.recorded (back hkept)
  case counted =>
    intro key record hrecord
    rw [hcounts]
    exact h.counted hrecord
  case wanted => exact h.wanted
  case exclusive => exact fun ha hb => h.exclusive (back ha) (back hb)

theorem tryLock (h : t.Sound) (key : κ) :
    t.tryLock key = (none, t) ∨
      (t.isLocked (t.recordFor key).1.mutex = false ∧
        t.tryLock key = (some t.nextTicket, t.join key .holding)) := by
  have hsame : (t.recordFor key).2.isLocked (t.recordFor key).1.mutex =
      t.isLocked (t.recordFor key).1.mutex := by
    rw [isLocked, guards_recordFor, ← isLocked]
  rw [tryLock_eq]
  cases hlocked : t.isLocked (t.recordFor key).1.mutex with
  | true =>
    rw [hlocked] at hsame
    rw [if_pos hsame, h.recordFor_of_locked hsame]
    exact Or.inl rfl
  | false =>
    rw [hlocked] at hsame
    rw [if_neg (by simp [hsame])]
    exact Or.inr ⟨rfl, rfl⟩

theorem step (h : t.Sound) {action : LockStep κ} {u : LockTable κ}
    (hstep : t.step action = some u) : u.Sound := by
  cases action with
  | register key =>
    simp only [LockTable.step, register_eq, Option.some.injEq] at hstep
    subst hstep
    exact h.join key (by simp) (by simp)
  | acquire ticket =>
    obtain ⟨guard, hguard, hstage, hfree, rfl⟩ := acquire?_eq_some_iff.mp hstep
    exact h.acquire hguard hstage hfree
  | tryLock key =>
    simp only [LockTable.step, Option.some.injEq] at hstep
    subst hstep
    rcases h.tryLock key with hrefused | ⟨hfree, htaken⟩
    · rw [hrefused]
      exact h
    · rw [htaken]
      exact h.join key (by simp) fun _ => hfree
  | unregister ticket =>
    simp only [LockTable.step, Option.ite_none_right_eq_some, Option.some.injEq] at hstep
    obtain ⟨hstage, rfl⟩ := hstep
    obtain ⟨guard, hguard, hholding⟩ := stage?_eq_some_iff.mp hstage
    exact (h.unregister hguard hholding).2
  | release ticket =>
    simp only [LockTable.step, Option.ite_none_right_eq_some, Option.some.injEq] at hstep
    obtain ⟨hstage, rfl⟩ := hstep
    obtain ⟨guard, hguard, hleaving⟩ := stage?_eq_some_iff.mp hstage
    exact h.release hguard hleaving

theorem runAll (h : t.Sound) {actions : List (LockStep κ)} {u : LockTable κ}
    (hrun : t.runAll actions = some u) : u.Sound := by
  induction actions generalizing t with
  | nil =>
    cases hrun
    exact h
  | cons action actions ih =>
    obtain ⟨next, hstep, hrest⟩ := Option.bind_eq_some_iff.mp hrun
    exact ih (h.step hstep) hrest

/-- At most one guard of a key holds it: both would have the mutex of its record. -/
theorem holder_unique (h : t.Sound) {a b : Nat} {guard other : Guard κ}
    (ha : t.guards.get? a = some guard) (hb : t.guards.get? b = some other)
    (hguard : guard.stage = .holding) (hother : other.stage = .holding)
    (hkey : guard.key = other.key) : a = b := by
  obtain ⟨record, hrecord, hmutex⟩ := h.recorded ha (by simp [hguard])
  obtain ⟨same, hsame, hsameMutex⟩ := h.recorded hb (by simp [hother])
  rw [← hkey, hrecord] at hsame
  cases hsame
  exact h.exclusive ha hb (by simp [hguard]) (by simp [hother]) (by rw [← hmutex, hsameMutex])

end Sound

/-! ## Runs -/

/--
However the steps of any number of guards interleave, a key has at most one holder; a registered
guard finds the record of its key, with the mutex that it has or waits for; a record counts its
registered guards; and a holder that unregisters meets no panic.
-/
theorem runs_keep_holders_apart {actions : List (LockStep κ)} {t : LockTable κ}
    (hrun : (empty : LockTable κ).runAll actions = some t) :
    (∀ a b guard other, t.guards.get? a = some guard → t.guards.get? b = some other →
      guard.stage = .holding → other.stage = .holding → guard.key = other.key → a = b) ∧
    (∀ ticket guard, t.guards.get? ticket = some guard → guard.stage ≠ .leaving →
      ∃ record, t.records.get? guard.key = some record ∧ record.mutex = guard.mutex) ∧
    (∀ key record, t.records.get? key = some record → record.waiters = t.registered key) ∧
    (∀ ticket, t.stage? ticket = some .holding → (t.unregister ticket).1 = none) := by
  have h := sound_empty.runAll hrun
  refine ⟨fun a b guard other => h.holder_unique, fun ticket guard => h.recorded,
    fun key record => h.counted, ?_⟩
  intro ticket hstage
  obtain ⟨guard, hguard, hholding⟩ := stage?_eq_some_iff.mp hstage
  exact (h.unregister hguard hholding).1

/--
A key is given back and taken again before its first mutex is released, so that two mutexes of
the key are locked; a third guard waits for the newer one, and one attempt has been refused.
-/
theorem runs_keep_holders_apart_retaken :
    ∃ t : LockTable Nat,
      (empty : LockTable Nat).runAll
          [.register 7, .acquire 0, .unregister 0, .register 7, .acquire 1, .register 7,
            .tryLock 7] = some t ∧
        t.isLocked 0 = true ∧ t.isLocked 1 = true ∧ t.registered 7 = 2 ∧
        (∀ a b guard other, t.guards.get? a = some guard → t.guards.get? b = some other →
          guard.stage = .holding → other.stage = .holding → guard.key = other.key → a = b) ∧
        (t.unregister 1).1 = none := by
  have hrun : (empty : LockTable Nat).runAll
      [.register 7, .acquire 0, .unregister 0, .register 7, .acquire 1, .register 7,
        .tryLock 7] = some _ := rfl
  have happart := runs_keep_holders_apart hrun
  exact ⟨_, hrun, by decide, by decide, by decide, happart.1, happart.2.2.2 1 (by decide)⟩

end LockTable

end TtlCache
