import TtlCache.Proofs.LockTable.Exclusion

/-!
# Mutexes of records

Every record gets a mutex of its own, so a guard that waits is kept waiting by guards of its key
only: by its holder, or by one that has unregistered already and is about to release the mutex.
-/

namespace TtlCache

namespace LockTable

variable {κ : Type} [DecidableEq κ] {t u : LockTable κ}

/-- No two keys have records with the same mutex. -/
def Unshared (t : LockTable κ) : Prop :=
  ∀ (key other : κ) (record same : LockRecord), t.records.get? key = some record →
    t.records.get? other = some same → record.mutex = same.mutex → key = other

theorem unshared_empty : (empty : LockTable κ).Unshared := by
  intro key other record same hrecord
  cases hrecord

theorem guards_unregister (t : LockTable κ) (ticket : Nat) :
    (t.unregister ticket).2.guards = (t.advance ticket .leaving).guards := by
  unfold unregister
  cases hguard : t.guards.get? ticket with
  | none => simp [advance, Table.modify, hguard]
  | some guard =>
    simp only
    split
    · rfl
    · split <;> rfl

omit [DecidableEq κ] in
theorem mem_keys_advance {ticket other : Nat} {stage : GuardStage} :
    other ∈ (t.advance ticket stage).guards.keys ↔ other ∈ t.guards.keys := by
  rw [Table.mem_keys_iff, Table.mem_keys_iff, get?_guards_advance]
  split
  · next heq => rw [heq, Option.isSome_map]
  · rfl

namespace Unshared

theorem of_mutexes (h : t.Unshared)
    (hmutexes : ∀ {key record}, u.records.get? key = some record →
      ∃ was, t.records.get? key = some was ∧ was.mutex = record.mutex) : u.Unshared := by
  intro key other record same hrecord hsame heq
  obtain ⟨first, hfirst, hmutex⟩ := hmutexes hrecord
  obtain ⟨second, hsecond, hmutex'⟩ := hmutexes hsame
  exact h _ _ _ _ hfirst hsecond ((hmutex.trans heq).trans hmutex'.symm)

theorem join (h : t.Unshared) (hsound : t.Sound) (key : κ) (stage : GuardStage) :
    (t.join key stage).Unshared := by
  -- the record of the key had its mutex before, or has a new one
  have hmutex : ∀ {other record}, other ≠ key → t.records.get? other = some record →
      record.mutex ≠ (t.recordFor key).1.mutex := by
    intro other record hother hrecord heq
    cases hkey : t.records.get? key with
    | none =>
      rw [recordFor_of_none hkey] at heq
      exact Nat.ne_of_lt (hsound.record_lt hrecord) heq
    | some own =>
      rw [recordFor_of_some hkey] at heq
      exact hother (h _ _ _ _ hrecord hkey heq)
  intro first second record same hrecord hsame heq
  rw [get?_records_join] at hrecord hsame
  by_cases hfirst : first = key
  · by_cases hsecond : second = key
    · exact hfirst.trans hsecond.symm
    · rw [if_pos hfirst] at hrecord
      rw [if_neg hsecond] at hsame
      cases hrecord
      exact absurd heq.symm (hmutex hsecond hsame)
  · rw [if_neg hfirst] at hrecord
    by_cases hsecond : second = key
    · rw [if_pos hsecond] at hsame
      cases hsame
      exact absurd heq (hmutex hfirst hrecord)
    · rw [if_neg hsecond] at hsame
      exact h _ _ _ _ hrecord hsame heq

theorem unregister (h : t.Unshared) (ticket : Nat) : (t.unregister ticket).2.Unshared := by
  refine h.of_mutexes fun {key record} hrecord => ?_
  unfold LockTable.unregister at hrecord
  split at hrecord
  · exact ⟨record, hrecord, rfl⟩
  · next guard hguard =>
    split at hrecord
    · exact ⟨record, hrecord, rfl⟩
    · next own hown =>
      split at hrecord
      · exact ⟨record, hrecord, rfl⟩
      · rw [Table.get?_erase] at hrecord
        split at hrecord
        · cases hrecord
        · exact ⟨record, hrecord, rfl⟩
      · rw [Table.get?_insert] at hrecord
        split at hrecord
        · next hkey =>
          cases hrecord
          exact ⟨own, hkey ▸ hown, rfl⟩
        · exact ⟨record, hrecord, rfl⟩

/-- Who keeps a guard waiting has or had the same key. -/
theorem key_eq (h : t.Unshared) (hsound : t.Sound) {a b : Nat} {guard other : Guard κ}
    (ha : t.guards.get? a = some guard) (hb : t.guards.get? b = some other)
    (hguard : guard.stage ≠ .leaving) (hother : other.stage ≠ .leaving)
    (hmutex : guard.mutex = other.mutex) : guard.key = other.key := by
  obtain ⟨record, hrecord, hown⟩ := hsound.recorded ha hguard
  obtain ⟨same, hsame, hown'⟩ := hsound.recorded hb hother
  exact h _ _ _ _ hrecord hsame ((hown.trans hmutex).trans hown'.symm)

end Unshared

omit [DecidableEq κ] in
theorem possessor_of_acquire?_eq_none {ticket : Nat} {guard : Guard κ}
    (hguard : t.guards.get? ticket = some guard) (hstage : guard.stage = .waiting)
    (hnone : t.acquire? ticket = none) :
    ∃ other possessor, t.guards.get? other = some possessor ∧ possessor.mutex = guard.mutex ∧
      possessor.stage ≠ .waiting := by
  cases hlocked : t.isLocked guard.mutex with
  | true => exact isLocked_iff.mp hlocked
  | false =>
    rw [acquire?_eq_some_iff.mpr ⟨guard, hguard, hstage, hlocked, rfl⟩] at hnone
    cases hnone

end LockTable

end TtlCache
