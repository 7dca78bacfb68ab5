import TtlCache.Chain
import TtlCache.Ranking.Room
import TtlCache.Ranking.Walk
import TtlCache.Table

/-!
# Ranking by frequency

Every number of uses that occurs has a bucket: a chain of the keys used that often, in the order
in which they reached the number.  A walk goes through the buckets from the lowest number upwards,
so keys used equally often come in the order of their last use.
-/

namespace TtlCache

/-- Where a key stands: how often it was used, and its slot in the bucket of that number. -/
structure Standing where
  frequency : Nat
  slot : Nat
  deriving DecidableEq, Repr

structure Frequency where
  capacity : Nat
  standings : Table Key Standing
  buckets : Table Nat (Chain Key)

namespace Frequency

/--
A ranking without keys that means to keep `capacity` of them.

A key and its standing take 40 bytes; buckets are opened when they are needed.
-/
def ofCapacity (capacity : Nat) : Except Panic Frequency :=
  if capacity = 0 then
    .error .zeroCapacity
  else do
    Room.reserveTable 40 capacity
    return { capacity := capacity, standings := .empty, buckets := .empty }

/-- Appends a key to the bucket of a frequency, which is opened if need be, and tells its slot. -/
def push (f : Frequency) (frequency : Nat) (key : Key) : Nat × Frequency :=
  let (slot, bucket) := ((f.buckets.get? frequency).getD .empty).push key
  (slot, { f with buckets := f.buckets.insert frequency bucket })

/-- Takes a standing out of its bucket and tells the key there; an emptied bucket is closed. -/
def detach (f : Frequency) (standing : Standing) : Option Key × Frequency :=
  match f.buckets.get? standing.frequency with
  | none => (none, f)
  | some bucket =>
    let (key, rest) := bucket.remove standing.slot
    let buckets :=
      if rest.isEmpty then
        f.buckets.erase standing.frequency
      else
        f.buckets.insert standing.frequency rest
    (key, { f with buckets := buckets })

def note (f : Frequency) (key : Key) (standing : Standing) : Frequency :=
  { f with standings := f.standings.insert key standing }

/-- Records a use: the key enters the bucket of the next frequency. -/
def used (f : Frequency) (key : Key) : Frequency :=
  match f.standings.get? key with
  | none =>
    let (slot, entered) := f.push 1 key
    entered.note key { frequency := 1, slot := slot }
  | some standing =>
    let (owned, left) := f.detach standing
    let (slot, entered) := left.push (standing.frequency + 1) (owned.getD key)
    entered.note key { frequency := standing.frequency + 1, slot := slot }

def remove (f : Frequency) (key : Key) : Frequency :=
  match f.standings.get? key with
  | none => f
  | some standing =>
    let left := (f.detach standing).2
    { left with standings := left.standings.erase key }

def size (f : Frequency) : Nat := f.standings.size

def excess (f : Frequency) : Nat := f.size - f.capacity

/-! ## Walking through the buckets -/

def occupiedAbove (f : Frequency) (frequency : Nat) : List Nat :=
  f.buckets.keys.filter fun other => decide (frequency < other)

def bucketAbove (f : Frequency) (frequency : Nat) : Option (Nat × Chain Key) := do
  let higher <- (f.occupiedAbove frequency).min?
  let bucket <- f.buckets.get? higher
  return (higher, bucket)

theorem mem_occupiedAbove_of_bucketAbove {f : Frequency} {frequency higher : Nat}
    {bucket : Chain Key} (h : f.bucketAbove frequency = some (higher, bucket)) :
    higher ∈ f.occupiedAbove frequency := by
  simp only [bucketAbove, Option.bind_eq_bind, Option.bind_eq_some_iff] at h
  obtain ⟨least, hleast, _, _, heq⟩ := h
  cases heq
  exact List.min?_mem hleast

/-- Going up to the next bucket leaves fewer buckets above. -/
theorem length_occupiedAbove_lt {f : Frequency} {frequency higher : Nat}
    (h : higher ∈ f.occupiedAbove frequency) :
    (f.occupiedAbove higher).length < (f.occupiedAbove frequency).length := by
  have hlt : frequency < higher := by
    simpa using (List.mem_filter.mp h).2
  have hsub :
      f.occupiedAbove higher =
        (f.occupiedAbove frequency).filter fun other => decide (higher < other) := by
    simp only [occupiedAbove, List.filter_filter]
    apply List.filter_congr
    intro other _
    by_cases hother : higher < other
    · simp [hother, Nat.lt_trans hlt hother]
    · simp [hother]
  rw [hsub, List.length_filter_lt_length_iff_exists]
  exact ⟨higher, h, by simp⟩

/-- Where a walk stands: in a bucket, on a slot of it or behind its last one. -/
structure Cursor where
  frequency : Option Nat
  slot : Option Nat
  deriving DecidableEq, Repr

def start (f : Frequency) : Cursor :=
  match f.buckets.keys.min? with
  | none => { frequency := none, slot := none }
  | some lowest =>
      { frequency := some lowest, slot := (f.buckets.get? lowest).bind Chain.front }

/--
The key in a slot of a bucket, and the cursor on the slot that follows.

Behind the last slot of the bucket the walk goes on in the next bucket above.
-/
def nextIn (f : Frequency) (frequency : Nat) (slot : Option Nat) : Option Key × Cursor :=
  match slot with
  | some slot =>
    match f.buckets.get? frequency with
    | none => (none, { frequency := some frequency, slot := some slot })
    | some bucket => (bucket.get? slot, { frequency := some frequency, slot := bucket.next? slot })
  | none =>
    match _found : f.bucketAbove frequency with
    | none => (none, { frequency := none, slot := none })
    | some (higher, bucket) => f.nextIn higher bucket.front
termination_by (f.occupiedAbove frequency).length
decreasing_by exact length_occupiedAbove_lt (mem_occupiedAbove_of_bucketAbove _found)

def next (f : Frequency) (cursor : Cursor) : Option Key × Cursor :=
  match cursor.frequency with
  | none => (none, cursor)
  | some frequency => f.nextIn frequency cursor.slot

def worst (f : Frequency) : List Key := (walk f.next (f.size + 1) f.start).1

end Frequency

end TtlCache
