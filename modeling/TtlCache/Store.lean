import TtlCache.Entry
import TtlCache.Table

/-!
# The store

Entries are spread over shards, so that different keys need not wait for each other.  A layout
says how many shards there are and where a key belongs; an entry stands in the shard of its key
and nowhere else.  In which order a shard lists its rows is left open.
-/

namespace TtlCache

structure Layout where
  shards : Nat
  place : Key -> Fin shards

namespace Layout

def flat : Layout where
  shards := 1
  place := fun _ => 0

/-- Keys spread over sixteen shards by their hash. -/
def hashed : Layout where
  shards := 16
  place := fun key => ⟨key.hash.toNat % 16, Nat.mod_lt _ (by decide)⟩

end Layout

structure Store (layout : Layout) where
  shards : Vector (Table Key Entry) layout.shards

namespace Store

variable {layout : Layout}

def empty : Store layout := ⟨Vector.replicate layout.shards .empty⟩

def shardOf (s : Store layout) (key : Key) : Table Key Entry := s.shards[layout.place key]

def setShardOf (s : Store layout) (key : Key) (shard : Table Key Entry) : Store layout :=
  ⟨s.shards.set (layout.place key) shard⟩

def get? (s : Store layout) (key : Key) : Option Entry := (s.shardOf key).get? key

def insert (s : Store layout) (key : Key) (entry : Entry) : Store layout :=
  s.setShardOf key ((s.shardOf key).insert key entry)

def erase (s : Store layout) (key : Key) : Store layout :=
  s.setShardOf key ((s.shardOf key).erase key)

def shard? (s : Store layout) (number : Nat) : Option (Table Key Entry) := s.shards[number]?

def size (s : Store layout) : Nat :=
  s.shards.toList.foldl (fun total shard => total + shard.size) 0

/-- All keys that have an entry, shard by shard. -/
def keys (s : Store layout) : List Key := s.shards.toList.flatMap Table.keys

/-- Lays out the rows of a shard anew; the rows themselves must stay the same. -/
def reorder? (s : Store layout) (number : Nat) (rows : Table Key Entry) : Option (Store layout) :=
  if h : number < layout.shards then
    if rows.rows.isPerm s.shards[number].rows then
      some ⟨s.shards.set number rows⟩
    else
      none
  else
    none

/-! ## Operations and their lookups -/

theorem shardOf_setShardOf (s : Store layout) (key k : Key) (shard : Table Key Entry) :
    (s.setShardOf key shard).shardOf k =
      if layout.place k = layout.place key then shard else s.shardOf k := by
  simp only [shardOf, setShardOf, Fin.getElem_fin, Vector.getElem_set, Fin.ext_iff, eq_comm]

@[simp] theorem get?_empty (key : Key) : (empty : Store layout).get? key = none := by
  simp [get?, shardOf, empty]

theorem get?_insert (s : Store layout) (key k : Key) (entry : Entry) :
    (s.insert key entry).get? k = if k = key then some entry else s.get? k := by
  rw [get?, insert, shardOf_setShardOf]
  by_cases hplace : layout.place k = layout.place key
  · have hshard : s.shardOf key = s.shardOf k := by simp only [shardOf, hplace]
    rw [if_pos hplace, Table.get?_insert, get?, hshard]
  · have hk : k ≠ key := fun heq => hplace (heq ▸ rfl)
    rw [if_neg hplace, if_neg hk, get?]

theorem get?_erase (s : Store layout) (key k : Key) :
    (s.erase key).get? k = if k = key then none else s.get? k := by
  rw [get?, erase, shardOf_setShardOf]
  by_cases hplace : layout.place k = layout.place key
  · have hshard : s.shardOf key = s.shardOf k := by simp only [shardOf, hplace]
    rw [if_pos hplace, Table.get?_erase, get?, hshard]
  · have hk : k ≠ key := fun heq => hplace (heq ▸ rfl)
    rw [if_neg hplace, if_neg hk, get?]

theorem get?_reorder? {s t : Store layout} {number : Nat} {rows : Table Key Entry}
    (h : s.reorder? number rows = some t) (key : Key) : t.get? key = s.get? key := by
  unfold reorder? at h
  split at h
  · split at h
    · next hnumber hperm =>
      cases h
      simp only [get?, shardOf, Fin.getElem_fin, Vector.getElem_set]
      split
      · next heq =>
        apply Option.ext
        intro entry
        rw [Table.get?_eq_some_iff, Table.get?_eq_some_iff, (List.isPerm_iff.mp hperm).mem_iff]
        simp only [heq]
      · rfl
    · cases h
  · cases h

end Store

end TtlCache
