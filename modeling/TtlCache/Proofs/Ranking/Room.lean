import TtlCache.Evictor

/-!
# How many keys there is room for

The buckets of a table are doubled when the keys pass seven eighths of a power of two, and what the
table takes jumps.  The same jump is the first one past the largest block for the rows of either
policy, so both have the same greatest capacity; a chain for that many keys fits into a block.
-/

namespace TtlCache

namespace Room

variable {count row : Nat}

/-- The greatest capacity of a ranking. -/
def mostKeys : Nat := 7 <<< 54

theorem bucketsFor_le (h : count ≤ mostKeys) : bucketsFor count ≤ 1 <<< 57 := by
  rw [mostKeys] at h
  rw [bucketsFor]
  split
  case isTrue => decide
  split
  case isTrue => decide
  case isFalse hmany =>
    have hlog : (count * 8 / 7 - 1).log2 < 57 := (Nat.log2_lt (by omega)).mpr (by omega)
    rw [Nat.one_shiftLeft, Nat.one_shiftLeft]
    exact Nat.pow_le_pow_right (by decide) hlog

theorem le_bucketsFor (h : mostKeys < count) : 1 <<< 58 ≤ bucketsFor count := by
  rw [mostKeys] at h
  have hlog : 57 ≤ (count * 8 / 7 - 1).log2 := (Nat.le_log2 (by omega)).mpr (by omega)
  rw [bucketsFor, if_neg (by omega), if_neg (by omega), Nat.one_shiftLeft, Nat.one_shiftLeft]
  exact Nat.pow_le_pow_right (by decide) (Nat.succ_le_succ hlog)

/-- For rows of 31 to 62 bytes a table has room for the same number of keys. -/
theorem reserveTable_eq (hleast : 31 ≤ row) (hmost : row ≤ 62) (count : Nat) :
    reserveTable row count = if mostKeys < count then .error .tableTooLarge else .ok () := by
  have hfits : mostBytes < tableBytes row (bucketsFor count) ↔ mostKeys < count := by
    rw [tableBytes, mostBytes]
    constructor
    · refine fun hlarge => Nat.lt_of_not_le fun h => ?_
      have hbytes : (row + 1) * bucketsFor count ≤ 63 * 1 <<< 57 :=
        Nat.mul_le_mul (by omega) (bucketsFor_le h)
      omega
    · intro h
      have hbytes : 32 * 1 <<< 58 ≤ (row + 1) * bucketsFor count :=
        Nat.mul_le_mul (by omega) (le_bucketsFor h)
      omega
  simp only [reserveTable, hfits]

end Room

namespace Policy

variable {policy : Policy} {capacity : Nat} {α : Type} {fresh made : α}

/-- What is wrong with a capacity; a chain is laid out before the table of its slots. -/
def flaw? (policy : Policy) (capacity : Nat) : Option Panic :=
  if capacity = 0 then
    some .zeroCapacity
  else if policy = .recency ∧ Room.mostBytes < 56 * capacity then
    some .listTooLarge
  else if Room.mostKeys < capacity then
    some .tableTooLarge
  else
    none

theorem flaw?_eq_none_iff :
    policy.flaw? capacity = none ↔ capacity ≠ 0 ∧ capacity ≤ Room.mostKeys := by
  have hlist : Room.mostBytes < 56 * capacity → Room.mostKeys < capacity := by
    rw [Room.mostBytes, Room.mostKeys]; omega
  rw [flaw?]
  split
  case isTrue hzero => simp [hzero]
  split
  case isTrue hnodes => simp [hlist hnodes.2]
  split
  case isTrue hkeys => simp [hkeys]
  case isFalse hzero _ hkeys => simp [hzero, Nat.le_of_not_lt hkeys]

def makes (policy : Policy) (capacity : Nat) (fresh : α) : Except Panic α :=
  match policy.flaw? capacity with
  | some panic => .error panic
  | none => .ok fresh

theorem makes_eq_ok_iff :
    policy.makes capacity fresh = .ok made ↔ policy.flaw? capacity = none ∧ fresh = made := by
  rw [makes]
  cases policy.flaw? capacity <;> simp

theorem makes_of_le (policy : Policy) (fresh : α) (h : 0 < capacity)
    (hroom : capacity ≤ Room.mostKeys) : policy.makes capacity fresh = .ok fresh :=
  makes_eq_ok_iff.mpr ⟨flaw?_eq_none_iff.mpr ⟨Nat.ne_of_gt h, hroom⟩, rfl⟩

theorem makes_of_lt (policy : Policy) (fresh : α) (h : Room.mostKeys < capacity) :
    ∃ panic, policy.makes capacity fresh = .error panic := by
  cases hmade : policy.makes capacity fresh with
  | error panic => exact ⟨panic, rfl⟩
  | ok made =>
    have hroom := (flaw?_eq_none_iff.mp (makes_eq_ok_iff.mp hmade).1).2
    exact absurd h (Nat.not_lt.mpr hroom)

end Policy

namespace Recency

def fresh (capacity : Nat) : Recency :=
  { capacity := capacity, order := .empty, positions := .empty }

theorem ofCapacity_eq (capacity : Nat) :
    ofCapacity capacity = Policy.recency.makes capacity (fresh capacity) := by
  rw [ofCapacity, Room.reserveList, Room.reserveTable_eq (by decide) (by decide), Policy.makes,
    Policy.flaw?]
  by_cases hzero : capacity = 0
  · simp [hzero]
  · by_cases hnodes : Room.mostBytes < 56 * capacity
    · simp [hzero, hnodes, bind, Except.bind]
    · by_cases hkeys : Room.mostKeys < capacity <;>
        simp [hzero, hnodes, hkeys, bind, Except.bind, pure, Except.pure, fresh]

end Recency

namespace Frequency

def fresh (capacity : Nat) : Frequency :=
  { capacity := capacity, standings := .empty, buckets := .empty }

theorem ofCapacity_eq (capacity : Nat) :
    ofCapacity capacity = Policy.frequency.makes capacity (fresh capacity) := by
  rw [ofCapacity, Room.reserveTable_eq (by decide) (by decide), Policy.makes, Policy.flaw?]
  by_cases hzero : capacity = 0
  · simp [hzero]
  · by_cases hkeys : Room.mostKeys < capacity <;>
      simp [hzero, hkeys, bind, Except.bind, pure, Except.pure, fresh]

end Frequency

namespace Ranking

def fresh (capacity : Nat) : Policy → Ranking
  | .recency => .recency (.fresh capacity)
  | .frequency => .frequency (.fresh capacity)

@[simp] theorem policy_fresh (capacity : Nat) (policy : Policy) :
    (fresh capacity policy).policy = policy := by
  cases policy <;> rfl

@[simp] theorem capacity_fresh (capacity : Nat) (policy : Policy) :
    (fresh capacity policy).capacity = capacity := by
  cases policy <;> rfl

theorem ofPolicy_eq (policy : Policy) (capacity : Nat) :
    ofPolicy policy capacity = policy.makes capacity (fresh capacity policy) := by
  cases policy with
  | recency =>
    rw [ofPolicy, Recency.ofCapacity_eq, Policy.makes, Policy.makes]
    cases Policy.recency.flaw? capacity <;> rfl
  | frequency =>
    rw [ofPolicy, Frequency.ofCapacity_eq, Policy.makes, Policy.makes]
    cases Policy.frequency.flaw? capacity <;> rfl

end Ranking

namespace Evictor

variable {policy : Policy} {capacity : Nat} {preload : List Key} {rule : ExcessRule}
  {evictor : Evictor}

theorem builtIn_eq (policy : Policy) (capacity : Nat) :
    builtIn policy capacity =
      policy.makes capacity { ranking := .fresh capacity policy, custom := none } := by
  rw [builtIn, Ranking.ofPolicy_eq, Policy.makes, Policy.makes]
  cases policy.flaw? capacity <;> rfl

theorem made_eq (policy : Policy) (capacity : Nat) (preload : List Key) (rule : ExcessRule) :
    made policy capacity preload rule =
      policy.makes capacity
        { ranking := preload.foldl Ranking.used (.fresh capacity policy), custom := some rule } := by
  rw [made, Ranking.ofPolicy_eq, Policy.makes, Policy.makes]
  cases policy.flaw? capacity <;> rfl

theorem eq_of_builtIn (h : builtIn policy capacity = .ok evictor) :
    evictor = { ranking := .fresh capacity policy, custom := none } := by
  rw [builtIn_eq, Policy.makes_eq_ok_iff] at h
  exact h.2.symm

theorem eq_of_made (h : made policy capacity preload rule = .ok evictor) :
    evictor =
      { ranking := preload.foldl Ranking.used (.fresh capacity policy), custom := some rule } := by
  rw [made_eq, Policy.makes_eq_ok_iff] at h
  exact h.2.symm

end Evictor

end TtlCache
