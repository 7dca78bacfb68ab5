import Mathlib.Data.List.Nodup
import Mathlib.Data.List.Perm.Subperm
import TtlCache.Proofs.Machine.Visits

/-!
# The keys of a store

As long as every key stands in its shard, the shards together list every stored key once.  What is
said of the number of entries follows from that.
-/

namespace TtlCache

variable {layout : Layout}

namespace Store

variable {s : Store layout}

theorem shard?_eq_some_iff {number : Nat} {rows : Table Key Entry} :
    s.shard? number = some rows ↔ s.shards.toList[number]? = some rows := by
  rw [shard?, Vector.getElem?_toList]

theorem mem_keys_iff_exists {key : Key} :
    key ∈ s.keys ↔ ∃ number rows, s.shard? number = some rows ∧ key ∈ rows.keys := by
  rw [keys, List.mem_flatMap]
  constructor
  · rintro ⟨rows, hrows, hkey⟩
    obtain ⟨number, hnumber⟩ := List.mem_iff_getElem?.mp hrows
    exact ⟨number, rows, shard?_eq_some_iff.mpr hnumber, hkey⟩
  · rintro ⟨number, rows, hrows, hkey⟩
    exact ⟨rows, List.mem_of_getElem? (shard?_eq_some_iff.mp hrows), hkey⟩

theorem length_keys (s : Store layout) : s.keys.length = s.size := by
  have hfold : ∀ (tables : List (Table Key Entry)) (total : Nat),
      tables.foldl (fun sum table => sum + table.size) total =
        total + (tables.flatMap Table.keys).length := by
    intro tables
    induction tables with
    | nil => intro total; rfl
    | cons table tables ih =>
      intro total
      rw [List.foldl_cons, ih, List.flatMap_cons, List.length_append, Table.length_keys]
      omega
  rw [size, hfold, Nat.zero_add]
  rfl

namespace Placed

theorem shard_eq (h : s.Placed) {key : Key} {number : Nat} {rows : Table Key Entry}
    (hrows : s.shard? number = some rows) (hkey : key ∈ rows.keys) : rows = s.shardOf key := by
  have hplace := h _ _ _ hrows hkey
  have hshard := s.shard?_shardOf key
  rw [hplace, hrows] at hshard
  exact Option.some.inj hshard

theorem mem_keys (h : s.Placed) {key : Key} : key ∈ s.keys ↔ (s.get? key).isSome = true := by
  rw [mem_keys_iff_exists, get?, ← Table.mem_keys_iff]
  constructor
  · rintro ⟨number, rows, hrows, hkey⟩
    rwa [← h.shard_eq hrows hkey]
  · exact fun hkey => ⟨_, _, s.shard?_shardOf key, hkey⟩

theorem nodup_keys (h : s.Placed) : s.keys.Nodup := by
  rw [keys, List.nodup_flatMap]
  refine ⟨fun rows _ => rows.nodup_keys, ?_⟩
  rw [List.pairwise_iff_getElem]
  intro a b ha hb hlt key hfirst hsecond
  have hplace : ∀ number (hnumber : number < s.shards.toList.length),
      key ∈ s.shards.toList[number].keys → (layout.place key).val = number :=
    fun number hnumber hkey =>
      h _ _ _ (shard?_eq_some_iff.mpr (List.getElem?_eq_getElem hnumber)) hkey
  exact Nat.ne_of_lt hlt ((hplace a ha hfirst).symm.trans (hplace b hb hsecond))

/-- Stores with the same keys, in whatever shards, list them in some order. -/
theorem keys_perm {other : Layout} {t : Store other} (h : s.Placed) (ht : t.Placed)
    (hsame : ∀ key, (t.get? key).isSome = (s.get? key).isSome) : t.keys.Perm s.keys := by
  rw [List.perm_ext_iff_of_nodup ht.nodup_keys h.nodup_keys]
  intro key
  rw [ht.mem_keys, h.mem_keys, hsame]

theorem insert (h : s.Placed) (key : Key) (entry : Entry) : (s.insert key entry).Placed :=
  h.touch (.inserted key entry)

theorem erase (h : s.Placed) (key : Key) : (s.erase key).Placed := h.touch (.erased key)

theorem size_insert_of_none (h : s.Placed) {key : Key} (hkey : s.get? key = none) (entry : Entry) :
    (s.insert key entry).size = s.size + 1 := by
  have hperm : (s.insert key entry).keys.Perm (key :: s.keys) := by
    rw [List.perm_ext_iff_of_nodup (h.insert key entry).nodup_keys
      (List.nodup_cons.mpr ⟨by simp [h.mem_keys, hkey], h.nodup_keys⟩)]
    intro k
    rw [(h.insert key entry).mem_keys, get?_insert, List.mem_cons, h.mem_keys]
    by_cases hk : k = key
    · simp [hk]
    · simp [hk]
  rw [← length_keys, hperm.length_eq, List.length_cons, length_keys]

theorem size_insert_of_isSome (h : s.Placed) {key : Key} (hkey : (s.get? key).isSome = true)
    (entry : Entry) : (s.insert key entry).size = s.size := by
  have hperm : (s.insert key entry).keys.Perm s.keys := by
    refine h.keys_perm (h.insert key entry) fun k => ?_
    rw [get?_insert]
    by_cases hk : k = key
    · simp [hk, hkey]
    · simp [hk]
  rw [← length_keys, hperm.length_eq, length_keys]

theorem size_erase_of_isSome (h : s.Placed) {key : Key} (hkey : (s.get? key).isSome = true) :
    (s.erase key).size + 1 = s.size := by
  have hperm : s.keys.Perm (key :: (s.erase key).keys) := by
    rw [List.perm_ext_iff_of_nodup h.nodup_keys (List.nodup_cons.mpr
      ⟨by simp [(h.erase key).mem_keys, get?_erase], (h.erase key).nodup_keys⟩)]
    intro k
    rw [h.mem_keys, List.mem_cons, (h.erase key).mem_keys, get?_erase]
    by_cases hk : k = key
    · simp [hk, hkey]
    · simp [hk]
  rw [← length_keys s, hperm.length_eq, List.length_cons, length_keys]

theorem size_le_size_insert (h : s.Placed) (key : Key) (entry : Entry) :
    s.size ≤ (s.insert key entry).size := by
  cases hkey : s.get? key with
  | none => exact (h.size_insert_of_none hkey entry).symm ▸ Nat.le_succ _
  | some old =>
    exact Nat.le_of_eq (h.size_insert_of_isSome (Option.isSome_of_eq_some hkey) entry).symm

theorem size_le_size_erase (h : s.Placed) (key : Key) : s.size ≤ (s.erase key).size + 1 := by
  cases hkey : s.get? key with
  | none =>
    have hperm : (s.erase key).keys.Perm s.keys := by
      refine h.keys_perm (h.erase key) fun k => ?_
      rw [get?_erase]
      by_cases hk : k = key
      · simp [hk, hkey]
      · simp [hk]
    rw [← length_keys s, ← hperm.length_eq, length_keys]
    exact Nat.le_succ _
  | some entry => exact Nat.le_of_eq (h.size_erase_of_isSome (Option.isSome_of_eq_some hkey)).symm

end Placed

theorem size_reorder? {t : Store layout} {number : Nat} {rows : Table Key Entry} (h : s.Placed)
    (hreorder : s.reorder? number rows = some t) : t.size = s.size := by
  have hperm := h.keys_perm (h.reorder hreorder) fun key => by rw [get?_reorder? hreorder]
  rw [← length_keys, hperm.length_eq, length_keys]

end Store

end TtlCache
