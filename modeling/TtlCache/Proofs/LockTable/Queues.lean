import TtlCache.Proofs.LockTable.Mutexes
import Mathlib.Logic.Function.Basic

/-!
# A lock table as a table of queues

To its callers a lock table is one queue of takers for every key: the head of the queue holds the
key, the others wait in the order in which they came.  `LockTable.queues` reads the queues off the
guards, and a table answers every sequence of calls as its queues do.

The mutexes and records behind the queues line up because whole calls leave no guard between its
last two steps: the guards of a key are its holder and then waiting ones (`LockTable.Lined`), and
they all have the mutex of the record of the key.
-/

namespace TtlCache

/-- A call of a client of a lock table; a guard that is given back is known by key and ticket. -/
inductive LockCall (κ : Type) where
  | lock (key : κ)
  | tryLock (key : κ)
  | giveBack (key : κ) (ticket : Nat)
  deriving DecidableEq, Repr

inductive LockReply where
  | held (ticket : Nat)
  | queued (ticket : Nat)
  | refused
  | released (panic : Option Panic)
  deriving DecidableEq, Repr

def answers {σ γ ρ : Type} (serve : σ -> γ -> Option (ρ × σ)) (s : σ) :
    List γ -> Option (List ρ × σ)
  | [] => some ([], s)
  | call :: calls =>
    (serve s call).bind fun (reply, t) =>
      (answers serve t calls).map fun (replies, last) => (reply :: replies, last)

/-- The takers of every key, its holder first. -/
structure Queues (κ : Type) where
  takers : κ -> List Nat
  nextTicket : Nat

namespace Queues

variable {κ : Type}

def empty : Queues κ where
  takers := fun _ => []
  nextTicket := 0

variable [DecidableEq κ]

/-- A new taker goes to the end of the queue of its key. -/
def join (q : Queues κ) (key : κ) : Queues κ where
  takers := Function.update q.takers key (q.takers key ++ [q.nextTicket])
  nextTicket := q.nextTicket + 1

/-- The holder of a key goes, and the next taker of the key is its holder. -/
def leave (q : Queues κ) (key : κ) : Queues κ :=
  { q with takers := Function.update q.takers key (q.takers key).tail }

def serve (q : Queues κ) : LockCall κ -> Option (LockReply × Queues κ)
  | .lock key =>
    some (if q.takers key = [] then .held q.nextTicket else .queued q.nextTicket, q.join key)
  | .tryLock key =>
    some (if q.takers key = [] then (.held q.nextTicket, q.join key) else (.refused, q))
  | .giveBack key ticket =>
    if (q.takers key).head? = some ticket then some (.released none, q.leave key) else none

end Queues

namespace LockTable

variable {κ : Type} [DecidableEq κ] {t : LockTable κ}

/-- The guards of a key with their tickets, in the order in which they registered. -/
def line (t : LockTable κ) (key : κ) : List (Nat × Guard κ) :=
  t.guards.rows.filter fun row => decide (row.2.key = key)

def queues (t : LockTable κ) : Queues κ where
  takers := fun key => (t.line key).map Prod.fst
  nextTicket := t.nextTicket

def holds (t : LockTable κ) (key : κ) (ticket : Nat) : Bool :=
  (t.guards.get? ticket).any fun guard => decide (guard.key = key ∧ guard.stage = .holding)

def waits (t : LockTable κ) (key : κ) (ticket : Nat) : Bool :=
  (t.guards.get? ticket).any fun guard => decide (guard.key = key ∧ guard.stage = .waiting)

/-- Serves a call; only the holder of a key can give it back. -/
def serve (t : LockTable κ) : LockCall κ -> Option (LockReply × LockTable κ)
  | .lock key =>
    let (ticket, locked) := t.lock key
    some (if locked.holds key ticket then .held ticket else .queued ticket, locked)
  | .tryLock key =>
    match t.tryLock key with
    | (some ticket, locked) => some (.held ticket, locked)
    | (none, kept) => some (.refused, kept)
  | .giveBack key ticket =>
    if t.holds key ticket then
      let (panic, unlocked) := t.unlock ticket
      some (.released panic, unlocked)
    else
      none

/-! ## Lines -/

theorem mem_line {key : κ} {row : Nat × Guard κ} :
    row ∈ t.line key ↔ t.guards.get? row.1 = some row.2 ∧ row.2.key = key := by
  rw [line, List.mem_filter, decide_eq_true_eq, Table.get?_eq_some_iff]

theorem nodup_line (t : LockTable κ) (key : κ) : ((t.line key).map Prod.fst).Nodup :=
  (List.filter_sublist.map Prod.fst).nodup t.guards.distinct

theorem holds_iff {key : κ} {ticket : Nat} :
    t.holds key ticket = true ↔
      ∃ guard, t.guards.get? ticket = some guard ∧ guard.key = key ∧ guard.stage = .holding := by
  simp [holds, Option.any_eq_true]

theorem waits_iff {key : κ} {ticket : Nat} :
    t.waits key ticket = true ↔
      ∃ guard, t.guards.get? ticket = some guard ∧ guard.key = key ∧ guard.stage = .waiting := by
  simp [waits, Option.any_eq_true]

theorem line_join (h : t.Sound) (key other : κ) (stage : GuardStage) :
    (t.join key stage).line other =
      if other = key then
        t.line key ++
          [(t.nextTicket, { key := key, mutex := (t.recordFor key).1.mutex, stage := stage })]
      else t.line other := by
  rw [line, guards_join, Table.rows_insert_of_notMem h.nextTicket_fresh, List.filter_append]
  by_cases hkey : other = key
  · rw [if_pos hkey, hkey]
    simp [line]
  · rw [if_neg hkey]
    simp [line, Ne.symm hkey]

def staged (ticket : Nat) (stage : GuardStage) (row : Nat × Guard κ) : Nat × Guard κ :=
  if row.1 = ticket then (row.1, { row.2 with stage := stage }) else row

omit [DecidableEq κ] in
@[simp] theorem staged_fst (ticket : Nat) (stage : GuardStage) (row : Nat × Guard κ) :
    (staged ticket stage row).1 = row.1 := by
  unfold staged
  split <;> rfl

omit [DecidableEq κ] in
@[simp] theorem staged_key (ticket : Nat) (stage : GuardStage) (row : Nat × Guard κ) :
    (staged ticket stage row).2.key = row.2.key := by
  unfold staged
  split <;> rfl

omit [DecidableEq κ] in
theorem rows_advance (t : LockTable κ) (ticket : Nat) (stage : GuardStage) :
    (t.advance ticket stage).guards.rows = t.guards.rows.map (staged ticket stage) :=
  Table.rows_modify t.guards ticket _

theorem line_advance (t : LockTable κ) (ticket : Nat) (stage : GuardStage) (key : κ) :
    (t.advance ticket stage).line key = (t.line key).map (staged ticket stage) := by
  rw [line, rows_advance, List.filter_map, line]
  congr 1
  apply List.filter_congr
  intro row _
  simp

/-! ## The invariant -/

/-- A line is a holder and then waiting guards. -/
def Attended : List (Nat × Guard κ) -> Prop
  | [] => True
  | holder :: rest => holder.2.stage = .holding ∧ ∀ row ∈ rest, row.2.stage = .waiting

structure Lined (t : LockTable κ) : Prop where
  sound : t.Sound
  unshared : t.Unshared
  attended : ∀ key, Attended (t.line key)

theorem lined_empty : (empty : LockTable κ).Lined where
  sound := sound_empty
  unshared := unshared_empty
  attended := fun _ => trivial

omit [DecidableEq κ] in
theorem Attended.stage_ne {rows : List (Nat × Guard κ)} (h : Attended rows) {row : Nat × Guard κ}
    (hrow : row ∈ rows) : row.2.stage ≠ .leaving := by
  cases rows with
  | nil => cases hrow
  | cons holder rest =>
    rcases List.mem_cons.mp hrow with rfl | hrest
    · rw [h.1]
      nofun
    · rw [h.2 row hrest]
      nofun

omit [DecidableEq κ] in
/-- Whoever waits comes to the end; whoever comes first holds at once. -/
theorem Attended.append {rows : List (Nat × Guard κ)} (h : Attended rows) {row : Nat × Guard κ}
    (hrow : row.2.stage = if rows = [] then .holding else .waiting) : Attended (rows ++ [row]) := by
  cases rows with
  | nil => exact ⟨hrow, nofun⟩
  | cons holder rest =>
    refine ⟨h.1, fun other hother => ?_⟩
    rcases List.mem_append.mp hother with hrest | hlast
    · exact h.2 other hrest
    · rw [List.mem_singleton.mp hlast, hrow]
      rfl

namespace Lined

theorem stage_ne (h : t.Lined) {ticket : Nat} {guard : Guard κ}
    (hguard : t.guards.get? ticket = some guard) : guard.stage ≠ .leaving := by
  have hmem : (ticket, guard) ∈ t.line guard.key := mem_line.mpr ⟨hguard, rfl⟩
  exact (h.attended guard.key).stage_ne hmem

theorem mutex_eq_iff (h : t.Lined) {a b : Nat} {guard other : Guard κ}
    (ha : t.guards.get? a = some guard) (hb : t.guards.get? b = some other) :
    guard.mutex = other.mutex ↔ guard.key = other.key := by
  constructor
  · exact h.unshared.key_eq h.sound ha hb (h.stage_ne ha) (h.stage_ne hb)
  · intro hkey
    obtain ⟨record, hrecord, hmutex⟩ := h.sound.recorded ha (h.stage_ne ha)
    obtain ⟨same, hsame, hmutex'⟩ := h.sound.recorded hb (h.stage_ne hb)
    rw [hkey, hsame] at hrecord
    rw [← hmutex, ← hmutex', Option.some.inj hrecord]

theorem line_eq_of_holding (h : t.Lined) {ticket : Nat} {guard : Guard κ}
    (hguard : t.guards.get? ticket = some guard) (hstage : guard.stage = .holding) :
    ∃ rest, t.line guard.key = (ticket, guard) :: rest := by
  have hmem : (ticket, guard) ∈ t.line guard.key := mem_line.mpr ⟨hguard, rfl⟩
  have hattended := h.attended guard.key
  cases hline : t.line guard.key with
  | nil =>
    rw [hline] at hmem
    cases hmem
  | cons holder rest =>
    rw [hline] at hmem hattended
    rcases List.mem_cons.mp hmem with rfl | hrest
    · exact ⟨rest, rfl⟩
    · have hwaiting := hattended.2 _ hrest
      rw [hstage] at hwaiting
      cases hwaiting

theorem holds_iff_head (h : t.Lined) {key : κ} {ticket : Nat} :
    t.holds key ticket = true ↔ (t.queues.takers key).head? = some ticket := by
  rw [holds_iff]
  constructor
  · rintro ⟨guard, hguard, rfl, hstage⟩
    obtain ⟨rest, hline⟩ := h.line_eq_of_holding hguard hstage
    simp [queues, hline]
  · intro hhead
    have hattended := h.attended key
    cases hline : t.line key with
    | nil => simp [queues, hline] at hhead
    | cons holder rest =>
      rw [hline] at hattended
      have hrow := mem_line.mp (hline ▸ List.mem_cons_self : holder ∈ t.line key)
      have hticket : holder.1 = ticket := by simpa [queues, hline] using hhead
      exact ⟨holder.2, hticket ▸ hrow.1, hrow.2, hattended.1⟩

theorem waits_iff_mem_tail (h : t.Lined) {key : κ} {ticket : Nat} :
    t.waits key ticket = true ↔ ticket ∈ (t.queues.takers key).tail := by
  have hattended := h.attended key
  rw [waits_iff]
  cases hline : t.line key with
  | nil =>
    simp only [queues, hline, List.map_nil, List.tail_nil, List.not_mem_nil, iff_false]
    rintro ⟨guard, hguard, hkey, -⟩
    have hmem : (ticket, guard) ∈ t.line key := mem_line.mpr ⟨hguard, hkey⟩
    rw [hline] at hmem
    cases hmem
  | cons holder rest =>
    rw [hline] at hattended
    simp only [queues, hline, List.map_cons, List.tail_cons, List.mem_map]
    constructor
    · rintro ⟨guard, hguard, hkey, hstage⟩
      have hmem : (ticket, guard) ∈ t.line key := mem_line.mpr ⟨hguard, hkey⟩
      rw [hline] at hmem
      rcases List.mem_cons.mp hmem with rfl | hrest
      · rw [hattended.1] at hstage
        cases hstage
      · exact ⟨_, hrest, rfl⟩
    · rintro ⟨row, hrow, rfl⟩
      obtain ⟨hguard, hkey⟩ := mem_line.mp (hline ▸ List.mem_cons_of_mem holder hrow)
      exact ⟨row.2, hguard, hkey, hattended.2 row hrow⟩

theorem isLocked_recordFor (h : t.Lined) (key : κ) :
    t.isLocked (t.recordFor key).1.mutex = true ↔ t.line key ≠ [] := by
  rw [isLocked_iff]
  constructor
  · rintro ⟨ticket, guard, hguard, hmutex, hstage⟩
    cases hkey : t.records.get? key with
    | none =>
      rw [recordFor_of_none hkey] at hmutex
      exact absurd (h.sound.mutex_lt hguard) (hmutex ▸ Nat.lt_irrefl _)
    | some record =>
      rw [recordFor_of_some hkey] at hmutex
      obtain ⟨own, hown, hsame⟩ := h.sound.recorded hguard (h.stage_ne hguard)
      have hkeys := h.unshared _ _ _ _ hown hkey (hsame.trans hmutex)
      exact List.ne_nil_of_mem (mem_line.mpr ⟨hguard, hkeys⟩ : (ticket, guard) ∈ t.line key)
  · intro hne
    obtain ⟨holder, rest, hline⟩ := List.exists_cons_of_ne_nil hne
    have hattended := h.attended key
    rw [hline] at hattended
    obtain ⟨hguard, hkey⟩ := mem_line.mp (hline ▸ List.mem_cons_self : holder ∈ t.line key)
    obtain ⟨record, hrecord, hmutex⟩ := h.sound.recorded hguard (h.stage_ne hguard)
    rw [hkey] at hrecord
    rw [recordFor_of_some hrecord]
    exact ⟨holder.1, holder.2, hguard, hmutex.symm, by rw [hattended.1]; nofun⟩

end Lined

/-! ## Taking a key -/

theorem queues_join (h : t.Sound) (key : κ) (stage : GuardStage) :
    (t.join key stage).queues = t.queues.join key := by
  simp only [queues, Queues.join, nextTicket_join, Queues.mk.injEq, and_true]
  funext other
  rw [line_join h]
  by_cases hkey : other = key
  · rw [if_pos hkey, hkey, Function.update_self, List.map_append]
    rfl
  · rw [if_neg hkey, Function.update_of_ne hkey]

/-- A guard that acquires its mutex at once might as well have come with it. -/
theorem advance_join (h : t.Sound) (key : κ) :
    (t.join key .waiting).advance t.nextTicket .holding = t.join key .holding := by
  have hguards : ((t.join key .waiting).advance t.nextTicket .holding).guards =
      (t.join key .holding).guards := by
    apply Table.ext_rows
    rw [rows_advance, guards_join, guards_join, Table.rows_insert_of_notMem h.nextTicket_fresh,
      Table.rows_insert_of_notMem h.nextTicket_fresh, List.map_append]
    congr 1
    · rw [List.map_congr_left (g := id), List.map_id]
      intro row hrow
      have hlt := h.ticket_lt (Table.get?_eq_some_iff.mpr hrow)
      exact if_neg (Nat.ne_of_lt hlt)
    · simp [staged]
  calc (t.join key .waiting).advance t.nextTicket .holding
      = { t.join key .holding with
          guards := ((t.join key .waiting).advance t.nextTicket .holding).guards } := rfl
    _ = t.join key .holding := by rw [hguards]

theorem isLocked_join_waiting (h : t.Sound) (key : κ) (mutex : Nat) :
    (t.join key .waiting).isLocked mutex = t.isLocked mutex := by
  rw [isLocked, guards_join, Table.rows_insert_of_notMem h.nextTicket_fresh, List.any_append,
    isLocked]
  simp

theorem holds_join (t : LockTable κ) (key : κ) (stage : GuardStage) :
    (t.join key stage).holds key t.nextTicket = decide (stage = .holding) := by
  simp [holds, get?_guards_join]

theorem takers_eq_nil_iff {key : κ} : t.queues.takers key = [] ↔ t.line key = [] :=
  List.map_eq_nil_iff

theorem lock_eq (h : t.Sound) (key : κ) :
    t.lock key =
      (t.nextTicket,
        t.join key (if t.isLocked (t.recordFor key).1.mutex then .waiting else .holding)) := by
  have hget := get?_guards_join t key .waiting t.nextTicket
  rw [if_pos rfl] at hget
  cases hlocked : t.isLocked (t.recordFor key).1.mutex with
  | true =>
    have hnone : (t.join key .waiting).acquire? t.nextTicket = none := by
      simp [acquire?, hget, isLocked_join_waiting h, hlocked]
    simp [lock, register_eq, hnone]
  | false =>
    have hsome : (t.join key .waiting).acquire? t.nextTicket = some (t.join key .holding) :=
      acquire?_eq_some_iff.mpr
        ⟨_, hget, rfl, (isLocked_join_waiting h key _).trans hlocked, (advance_join h key).symm⟩
    simp [lock, register_eq, hsome]

namespace Lined

theorem join (h : t.Lined) (key : κ) {stage : GuardStage}
    (hstage : stage = if t.line key = [] then .holding else .waiting) :
    (t.join key stage).Lined where
  sound := by
    refine h.sound.join key (by rw [hstage]; split <;> nofun) fun hholding => ?_
    have hnil : t.line key = [] := by
      by_contra hne
      rw [hholding, if_neg hne] at hstage
      cases hstage
    rw [← Bool.not_eq_true, h.isLocked_recordFor, hnil]
    simp
  unshared := h.unshared.join h.sound key stage
  attended := by
    intro other
    rw [line_join h.sound]
    by_cases hkey : other = key
    · rw [if_pos hkey]
      exact (h.attended key).append hstage
    · rw [if_neg hkey]
      exact h.attended other

theorem lock_eq (h : t.Lined) (key : κ) :
    t.lock key =
      (t.nextTicket, t.join key (if t.line key = [] then .holding else .waiting)) := by
  rw [LockTable.lock_eq h.sound]
  have hlocked := h.isLocked_recordFor key
  by_cases hnil : t.line key = []
  · rw [if_pos hnil, if_neg (by rw [hlocked]; exact not_not_intro hnil)]
  · rw [if_neg hnil, if_pos (hlocked.mpr hnil)]

theorem tryLock_eq (h : t.Lined) (key : κ) :
    t.tryLock key =
      if t.line key = [] then (some t.nextTicket, t.join key .holding) else (none, t) := by
  have hlocked := h.isLocked_recordFor key
  have hsame : (t.recordFor key).2.isLocked (t.recordFor key).1.mutex =
      t.isLocked (t.recordFor key).1.mutex := by
    rw [isLocked, guards_recordFor, ← isLocked]
  rw [LockTable.tryLock_eq, hsame]
  by_cases hnil : t.line key = []
  · rw [if_pos hnil, if_neg (by rw [hlocked]; exact not_not_intro hnil)]
  · rw [if_neg hnil, if_pos (hlocked.mpr hnil),
      h.sound.recordFor_of_locked (hsame.trans (hlocked.mpr hnil))]

end Lined

/-! ## Giving a key back -/

/-- The table between a holder's departure and the arrival of the next one. -/
def vacated (t : LockTable κ) (ticket : Nat) : LockTable κ := (t.unregister ticket).2.release ticket

theorem rows_vacated (t : LockTable κ) (ticket : Nat) :
    (t.vacated ticket).guards.rows = t.guards.rows.filter fun row => !decide (row.1 = ticket) := by
  have hguards : (t.vacated ticket).guards = (t.advance ticket .leaving).guards.erase ticket := by
    rw [vacated, release, guards_unregister]
  simp only [hguards, Table.erase, rows_advance, List.filter_map, Function.comp_def, staged_fst]
  rw [List.map_congr_left (g := id), List.map_id]
  intro row hrow
  have hne := (List.mem_filter.mp hrow).2
  exact if_neg (by simpa using hne)

theorem nextTicket_vacated (t : LockTable κ) (ticket : Nat) :
    (t.vacated ticket).nextTicket = t.nextTicket := by
  show (t.unregister ticket).2.nextTicket = t.nextTicket
  unfold unregister
  split
  · rfl
  · dsimp only
    split
    · rfl
    · split <;> rfl

theorem line_vacated (t : LockTable κ) (ticket : Nat) (key : κ) :
    (t.vacated ticket).line key = (t.line key).filter fun row => !decide (row.1 = ticket) := by
  rw [line, rows_vacated, line, List.filter_filter, List.filter_filter]
  apply List.filter_congr
  intro row _
  exact Bool.and_comm _ _

/-- The line of a key after its head: the first of those who wait holds the key. -/
def promoted : List (Nat × Guard κ) -> List (Nat × Guard κ)
  | [] => []
  | next :: rest => (next.1, { next.2 with stage := .holding }) :: rest

omit [DecidableEq κ] in
theorem map_fst_promoted (rows : List (Nat × Guard κ)) :
    (promoted rows).map Prod.fst = rows.map Prod.fst := by
  cases rows <;> rfl

omit [DecidableEq κ] in
theorem Attended.promoted_tail {rows : List (Nat × Guard κ)} (h : Attended rows) :
    Attended (promoted rows.tail) := by
  match rows, h with
  | [], _ => trivial
  | [_], _ => trivial
  | _ :: next :: rest, ⟨_, hwaiting⟩ =>
    exact ⟨rfl, fun row hrow => hwaiting row (List.mem_cons_of_mem next hrow)⟩

namespace Lined

variable {ticket : Nat} {guard : Guard κ}

theorem line_vacated_of_holding (h : t.Lined) (hguard : t.guards.get? ticket = some guard)
    (hstage : guard.stage = .holding) (key : κ) :
    (t.vacated ticket).line key =
      if key = guard.key then (t.line key).tail else t.line key := by
  rw [line_vacated]
  by_cases hkey : key = guard.key
  · obtain ⟨rest, hline⟩ := h.line_eq_of_holding hguard hstage
    have hnodup := t.nodup_line guard.key
    rw [if_pos hkey, hkey, hline, List.tail_cons, List.filter_cons_of_neg (by simp),
      List.filter_eq_self]
    rw [hline, List.map_cons, List.nodup_cons] at hnodup
    intro row hrow
    simp only [Bool.not_eq_eq_eq_not, Bool.not_true, decide_eq_false_iff_not]
    exact fun heq => hnodup.1 (List.mem_map.mpr ⟨row, hrow, heq⟩)
  · rw [if_neg hkey, List.filter_eq_self]
    intro row hrow
    obtain ⟨hrow, hrowKey⟩ := mem_line.mp hrow
    simp only [Bool.not_eq_eq_eq_not, Bool.not_true, decide_eq_false_iff_not]
    intro heq
    rw [heq, hguard, Option.some.injEq] at hrow
    exact hkey (hrowKey.symm.trans (congrArg Guard.key hrow.symm))

theorem sound_vacated (h : t.Lined) (hguard : t.guards.get? ticket = some guard)
    (hstage : guard.stage = .holding) : (t.vacated ticket).Sound := by
  have hleaving : (t.unregister ticket).2.guards.get? ticket =
      some { guard with stage := .leaving } := by
    rw [guards_unregister, get?_guards_advance, if_pos rfl, hguard]
    rfl
  exact (h.sound.unregister hguard hstage).2.release hleaving rfl

theorem guard_vacated (h : t.Lined) (hguard : t.guards.get? ticket = some guard)
    (hstage : guard.stage = .holding) {other : Nat} {kept : Guard κ}
    (hkept : (t.vacated ticket).guards.get? other = some kept)
    (hmutex : kept.mutex = guard.mutex) :
    (other, kept) ∈ (t.line guard.key).tail ∧ kept.stage = .waiting := by
  have hrow := Table.get?_eq_some_iff.mp hkept
  rw [rows_vacated, List.mem_filter] at hrow
  have hkey := (h.mutex_eq_iff (Table.get?_eq_some_iff.mpr hrow.1) hguard).mp hmutex
  have hmem : (other, kept) ∈ (t.vacated ticket).line guard.key := mem_line.mpr ⟨hkept, hkey⟩
  rw [h.line_vacated_of_holding hguard hstage, if_pos rfl] at hmem
  obtain ⟨rest, hline⟩ := h.line_eq_of_holding hguard hstage
  have hattended := h.attended guard.key
  rw [hline] at hattended hmem ⊢
  exact ⟨hmem, hattended.2 _ hmem⟩

theorem longestWaiter_vacated (h : t.Lined) (hguard : t.guards.get? ticket = some guard)
    (hstage : guard.stage = .holding) :
    (t.vacated ticket).longestWaiter guard.mutex = (t.line guard.key).tail.head?.map Prod.fst := by
  have hsame : ∀ row ∈ (t.vacated ticket).guards.rows,
      (decide (row.2.mutex = guard.mutex) && decide (row.2.stage = .waiting)) =
        decide (row.2.key = guard.key) := by
    intro row hrow
    have hkept := Table.get?_eq_some_iff.mpr hrow
    rw [rows_vacated, List.mem_filter] at hrow
    have hkeys := h.mutex_eq_iff (Table.get?_eq_some_iff.mpr hrow.1) hguard
    by_cases hmutex : row.2.mutex = guard.mutex
    · have hwaiting := (h.guard_vacated hguard hstage hkept hmutex).2
      simp [hmutex, hwaiting, hkeys.mp hmutex]
    · simp [hmutex, mt hkeys.mpr hmutex]
  rw [longestWaiter, ← List.head?_filter, List.filter_congr hsame]
  show ((t.vacated ticket).line guard.key).head?.map Prod.fst = _
  rw [h.line_vacated_of_holding hguard hstage, if_pos rfl]

/-- Whoever has waited longest for a mutex that was given back acquires it. -/
theorem acquire?_vacated (h : t.Lined) (hguard : t.guards.get? ticket = some guard)
    (hstage : guard.stage = .holding) {next : Nat × Guard κ} {rest : List (Nat × Guard κ)}
    (hline : (t.line guard.key).tail = next :: rest) :
    (t.vacated ticket).guards.get? next.1 = some next.2 ∧ next.2.stage = .waiting ∧
      (t.vacated ticket).isLocked next.2.mutex = false := by
  have hmem : next ∈ (t.vacated ticket).line guard.key := by
    rw [h.line_vacated_of_holding hguard hstage, if_pos rfl, hline]
    exact List.mem_cons_self
  obtain ⟨hnext, hkey⟩ := mem_line.mp hmem
  have hnextBefore := Table.get?_eq_some_iff.mp hnext
  rw [rows_vacated, List.mem_filter] at hnextBefore
  have hmutex := (h.mutex_eq_iff (Table.get?_eq_some_iff.mpr hnextBefore.1) hguard).mpr hkey
  refine ⟨hnext, (h.guard_vacated hguard hstage hnext hmutex).2, ?_⟩
  rw [← Bool.not_eq_true, isLocked_iff]
  rintro ⟨other, kept, hkept, hsame, hpossess⟩
  exact hpossess (h.guard_vacated hguard hstage hkept (hsame.trans hmutex)).2

theorem line_handed (h : t.Lined) (hguard : t.guards.get? ticket = some guard)
    (hstage : guard.stage = .holding) {next : Nat × Guard κ} {rest : List (Nat × Guard κ)}
    (hline : (t.line guard.key).tail = next :: rest) (key : κ) :
    ((t.vacated ticket).advance next.1 .holding).line key =
      if key = guard.key then (next.1, { next.2 with stage := .holding }) :: rest
      else t.line key := by
  -- the ticket stands in the line of its key only, and once
  have hvacated := h.line_vacated_of_holding hguard hstage
  have hnodup := (t.vacated ticket).nodup_line guard.key
  have hnext : next ∈ (t.vacated ticket).line guard.key := by
    rw [hvacated, if_pos rfl, hline]
    exact List.mem_cons_self
  have unmoved : ∀ rows : List (Nat × Guard κ), (∀ row ∈ rows, row.1 ≠ next.1) →
      rows.map (staged next.1 .holding) = rows := by
    intro rows hrows
    rw [List.map_congr_left (g := id), List.map_id]
    exact fun row hrow => if_neg (hrows row hrow)
  rw [line_advance]
  by_cases hkey : key = guard.key
  · rw [hvacated, if_pos rfl, hline, List.map_cons, List.nodup_cons] at hnodup
    rw [hvacated, if_pos hkey, if_pos hkey, hkey, hline, List.map_cons, unmoved rest]
    · simp [staged]
    · exact fun row hrow heq => hnodup.1 (List.mem_map.mpr ⟨row, hrow, heq⟩)
  · rw [unmoved _ fun row hrow heq => ?_, hvacated, if_neg hkey, if_neg hkey]
    obtain ⟨hrow, hrowKey⟩ := mem_line.mp hrow
    obtain ⟨hsame, hnextKey⟩ := mem_line.mp hnext
    rw [heq, hsame, Option.some.injEq] at hrow
    exact hkey (by rw [← hrowKey, ← hrow, hnextKey])

/-- Giving a key back hands it to its next taker and leaves the other lines as they were. -/
theorem line_unlock (h : t.Lined) (hguard : t.guards.get? ticket = some guard)
    (hstage : guard.stage = .holding) :
    (t.unlock ticket).1 = none ∧ (t.unlock ticket).2.Sound ∧ (t.unlock ticket).2.Unshared ∧
      (t.unlock ticket).2.nextTicket = t.nextTicket ∧
      ∀ key, (t.unlock ticket).2.line key =
        if key = guard.key then promoted (t.line key).tail else t.line key := by
  have hunlock : t.unlock ticket =
      ((t.unregister ticket).1, (t.vacated ticket).handOver guard.mutex) := by
    simp only [LockTable.unlock, hguard]
    rfl
  have hsound := h.sound_vacated hguard hstage
  have hunshared : (t.vacated ticket).Unshared := h.unshared.unregister ticket
  have hticket := nextTicket_vacated t ticket
  rw [hunlock, handOver, h.longestWaiter_vacated hguard hstage]
  refine ⟨(h.sound.unregister hguard hstage).1, ?_⟩
  cases hline : (t.line guard.key).tail with
  | nil =>
    rw [List.head?_nil, Option.map_none]
    refine ⟨hsound, hunshared, hticket, fun key => ?_⟩
    rw [h.line_vacated_of_holding hguard hstage]
    by_cases hkey : key = guard.key
    · rw [if_pos hkey, if_pos hkey, hkey, hline]
      rfl
    · rw [if_neg hkey, if_neg hkey]
  | cons next rest =>
    obtain ⟨hnext, hwaiting, hfree⟩ := h.acquire?_vacated hguard hstage hline
    have hacquire := acquire?_eq_some_iff.mpr ⟨next.2, hnext, hwaiting, hfree, rfl⟩
    rw [List.head?_cons, Option.map_some]
    simp only [hacquire, Option.getD_some]
    refine ⟨hsound.acquire hnext hwaiting hfree, hunshared, hticket, fun key => ?_⟩
    rw [h.line_handed hguard hstage hline]
    by_cases hkey : key = guard.key
    · rw [if_pos hkey, if_pos hkey, hkey, hline]
      rfl
    · rw [if_neg hkey, if_neg hkey]

theorem unlock (h : t.Lined) (hguard : t.guards.get? ticket = some guard)
    (hstage : guard.stage = .holding) :
    (t.unlock ticket).1 = none ∧ (t.unlock ticket).2.Lined ∧
      (t.unlock ticket).2.queues = t.queues.leave guard.key := by
  obtain ⟨hpanic, hsound, hunshared, hticket, hline⟩ := h.line_unlock hguard hstage
  refine ⟨hpanic, ⟨hsound, hunshared, fun key => ?_⟩, ?_⟩
  · rw [hline]
    split
    · exact (h.attended key).promoted_tail
    · exact h.attended key
  · simp only [queues, Queues.leave, hticket, Queues.mk.injEq, and_true]
    funext key
    rw [hline]
    by_cases hkey : key = guard.key
    · rw [if_pos hkey, hkey, Function.update_self, map_fst_promoted, List.map_tail]
    · rw [if_neg hkey, Function.update_of_ne hkey]

/-! ### Calls and runs -/

/-- A table answers a call as its queues do, and stands for the queues after it. -/
theorem serve (h : t.Lined) (call : LockCall κ) :
    (t.serve call).map (fun (reply, u) => (reply, u.queues)) = t.queues.serve call ∧
      ∀ reply u, t.serve call = some (reply, u) → u.Lined := by
  cases call with
  | lock key =>
    have hjoin := h.join key rfl
    have hqueues := queues_join h.sound key (if t.line key = [] then .holding else .waiting)
    simp only [LockTable.serve, h.lock_eq, holds_join, Queues.serve, takers_eq_nil_iff]
    refine ⟨?_, ?_⟩
    · rw [Option.map_some, hqueues]
      by_cases hnil : t.line key = []
      · simp [hnil, queues]
      · simp [hnil, queues]
    · rintro reply u hserved
      cases hserved
      exact hjoin
  | tryLock key =>
    simp only [LockTable.serve, h.tryLock_eq, Queues.serve, takers_eq_nil_iff]
    by_cases hnil : t.line key = []
    · have hjoin := h.join key (if_pos hnil).symm
      simp only [if_pos hnil, Option.map_some, queues_join h.sound]
      refine ⟨rfl, ?_⟩
      rintro reply u hserved
      cases hserved
      exact hjoin
    · simp only [if_neg hnil, Option.map_some]
      refine ⟨trivial, ?_⟩
      rintro reply u hserved
      cases hserved
      exact h
  | giveBack key ticket =>
    simp only [LockTable.serve, Queues.serve, ← h.holds_iff_head]
    by_cases hholds : t.holds key ticket = true
    · obtain ⟨guard, hguard, rfl, hstage⟩ := holds_iff.mp hholds
      obtain ⟨hpanic, hlined, hqueues⟩ := h.unlock hguard hstage
      simp only [if_pos hholds, Option.map_some, hpanic, hqueues]
      refine ⟨trivial, ?_⟩
      rintro reply u hserved
      cases hserved
      exact hlined
    · simp only [if_neg hholds, Option.map_none]
      exact ⟨trivial, nofun⟩

theorem answers (h : t.Lined) (calls : List (LockCall κ)) :
    (answers LockTable.serve t calls).map (fun (replies, u) => (replies, u.queues)) =
        answers Queues.serve t.queues calls ∧
      ∀ replies u, TtlCache.answers LockTable.serve t calls = some (replies, u) → u.Lined := by
  induction calls generalizing t with
  | nil =>
    refine ⟨rfl, ?_⟩
    rintro replies u ⟨⟩
    exact h
  | cons call calls ih =>
    obtain ⟨hanswer, hlined⟩ := h.serve call
    simp only [TtlCache.answers, ← hanswer]
    cases hserve : t.serve call with
    | none => exact ⟨rfl, nofun⟩
    | some served =>
      obtain ⟨hrest, hlast⟩ := ih (hlined served.1 served.2 hserve)
      simp only [Option.map_some, Option.bind_some, ← hrest, Option.map_map]
      refine ⟨rfl, ?_⟩
      intro replies u hrun
      obtain ⟨⟨others, last⟩, hothers, heq⟩ := Option.map_eq_some_iff.mp hrun
      cases heq
      exact hlast _ _ hothers

theorem registered_eq (h : t.Lined) (key : κ) : t.registered key = (t.line key).length := by
  rw [registered, line, List.countP_eq_length_filter]
  congr 1
  apply List.filter_congr
  intro row hrow
  have hstage := h.stage_ne (Table.get?_eq_some_iff.mpr hrow)
  simp [hstage]

theorem exists_holder_iff (h : t.Lined) (key : κ) :
    (∃ ticket, t.holds key ticket = true) ↔ t.line key ≠ [] := by
  simp only [h.holds_iff_head]
  cases hline : t.line key <;> simp [queues, hline]

theorem mem_keys_records (h : t.Lined) (key : κ) :
    key ∈ t.records.keys ↔ ∃ ticket, t.holds key ticket = true := by
  rw [h.exists_holder_iff, Table.mem_keys_iff]
  constructor
  · intro hsome
    obtain ⟨record, hrecord⟩ := Option.isSome_iff_exists.mp hsome
    have hcounted := h.sound.counted hrecord
    rw [h.registered_eq] at hcounted
    exact List.ne_nil_of_length_pos (hcounted ▸ h.sound.wanted hrecord)
  · intro hne
    obtain ⟨holder, hholder⟩ := List.exists_mem_of_ne_nil _ hne
    obtain ⟨hguard, hkey⟩ := mem_line.mp hholder
    obtain ⟨record, hrecord, -⟩ := h.sound.recorded hguard (h.stage_ne hguard)
    rw [hkey] at hrecord
    rw [hrecord]
    rfl

end Lined

/-- What a client may rely on between two calls. -/
structure Orderly (t : LockTable κ) : Prop where
  exclusive : ∀ key a b, t.holds key a = true → t.holds key b = true → a = b
  holder : ∀ key ticket, t.holds key ticket = true ↔ (t.queues.takers key).head? = some ticket
  waiting : ∀ key ticket, t.waits key ticket = true ↔ ticket ∈ (t.queues.takers key).tail
  /-- An attempt at a key that has a holder is refused and leaves the table as it was. -/
  refused : ∀ key, (∃ ticket, t.holds key ticket = true) → t.tryLock key = (none, t)
  size : ∃ keys : List κ, keys.Nodup ∧ t.size = keys.length ∧
    ∀ key, key ∈ keys ↔ ∃ ticket, t.holds key ticket = true
  /-- A record counts the holder and everybody who waits. -/
  waiters : ∀ key record, t.records.get? key = some record →
    record.waiters = 1 + (t.queues.takers key).tail.length
  idle : (∀ key ticket, t.holds key ticket = false) → t.records = .empty

theorem Lined.orderly (h : t.Lined) : t.Orderly where
  exclusive := by
    intro key a b ha hb
    rw [h.holds_iff_head] at ha hb
    exact Option.some.inj (ha.symm.trans hb)
  holder := fun _ _ => h.holds_iff_head
  waiting := fun _ _ => h.waits_iff_mem_tail
  refused := by
    intro key hholder
    rw [h.tryLock_eq, if_neg ((h.exists_holder_iff key).mp hholder)]
  size := ⟨t.records.keys, t.records.nodup_keys, t.records.length_keys.symm, h.mem_keys_records⟩
  waiters := by
    intro key record hrecord
    have hpos := h.sound.wanted hrecord
    rw [h.sound.counted hrecord, h.registered_eq] at hpos ⊢
    simp only [queues, List.length_tail, List.length_map]
    omega
  idle := by
    intro hfree
    apply Table.ext_rows
    refine List.eq_nil_iff_forall_not_mem.mpr fun row hrow => ?_
    have hmem : row.1 ∈ t.records.keys := List.mem_map_of_mem hrow
    obtain ⟨ticket, hholds⟩ := (h.mem_keys_records row.1).mp hmem
    rw [hfree] at hholds
    cases hholds

/--
Whatever keys are taken, tried and given back, and in whichever order, a lock table gives the
replies of its queues: a taker holds its key at once when the key has no holder and goes to the
end of the queue of that key otherwise, an attempt succeeds when the key has no holder, and a key
that is given back goes to the taker that has waited longest.  Every call leaves an orderly table.
-/
theorem runs_serve_in_order (calls : List (LockCall κ)) :
    (answers serve (empty : LockTable κ) calls).map (fun (replies, t) => (replies, t.queues)) =
        answers Queues.serve Queues.empty calls ∧
      ∀ replies t, answers serve (empty : LockTable κ) calls = some (replies, t) → t.Orderly := by
  obtain ⟨hanswers, hlined⟩ := lined_empty.answers calls
  exact ⟨hanswers, fun replies t hrun => (hlined replies t hrun).orderly⟩

/-- Two takers of one key and one of another; the second taker waits and gets the key in the end. -/
theorem runs_serve_in_order_two_keys :
    ∃ t : LockTable Nat,
      answers serve (empty : LockTable Nat)
          [.lock 7, .lock 7, .tryLock 7, .lock 8, .lock 7, .giveBack 7 0] =
        some ([.held 0, .queued 1, .refused, .held 2, .queued 3, .released none], t) ∧
      answers Queues.serve Queues.empty
          [.lock 7, .lock 7, .tryLock 7, .lock 8, .lock 7, .giveBack 7 0] =
        some ([.held 0, .queued 1, .refused, .held 2, .queued 3, .released none], t.queues) ∧
      t.queues.takers 7 = [1, 3] ∧ t.queues.takers 8 = [2] ∧ t.Orderly := by
  have hrun : answers serve (empty : LockTable Nat)
      [.lock 7, .lock 7, .tryLock 7, .lock 8, .lock 7, .giveBack 7 0] = some (_, _) := rfl
  obtain ⟨hanswers, horderly⟩ := runs_serve_in_order
    [.lock (7 : Nat), .lock 7, .tryLock 7, .lock 8, .lock 7, .giveBack 7 0]
  rw [hrun] at hanswers
  exact ⟨_, hrun, hanswers.symm, by decide, by decide, horderly _ _ hrun⟩

end LockTable

end TtlCache
