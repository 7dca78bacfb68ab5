import Mathlib.Data.List.Nodup
import Mathlib.Data.List.Perm.Subperm
import TtlCache.Proofs.Ranking.Recency

/-!
# The order of frequencies

A ranking by frequency has one chain of keys for every number of uses that occurs, and a table of
where every key stands.  The two say the same: a key has a standing exactly if the node there
holds the key.  A walk goes through the occupied frequencies in ascending order, so the ranking
lists every tracked key once.
-/

namespace TtlCache

theorem min?_eq_head?_of_perm {numbers sorted : List Nat} (hperm : numbers.Perm sorted)
    (hsorted : sorted.Pairwise (· ≤ ·)) : numbers.min? = sorted.head? := by
  cases sorted with
  | nil => rw [hperm.eq_nil]; rfl
  | cons least rest =>
    rw [List.head?_cons, List.min?_eq_some_iff]
    refine ⟨hperm.mem_iff.mpr List.mem_cons_self, fun number hnumber => ?_⟩
    rcases List.mem_cons.mp (hperm.mem_iff.mp hnumber) with rfl | hrest
    · exact Nat.le_refl _
    · exact List.rel_of_pairwise_cons hsorted hrest

namespace Frequency

/-- The slots and keys of the bucket of a frequency, oldest first. -/
def bucketItems (f : Frequency) (frequency : Nat) : List (Nat × Key) :=
  ((f.buckets.get? frequency).map Chain.items).getD []

def bucketKeys (f : Frequency) (frequency : Nat) : List Key :=
  (f.bucketItems frequency).map Prod.snd

/-- The occupied frequencies in ascending order. -/
def levels (f : Frequency) : List Nat := f.buckets.keys.mergeSort fun a b => decide (a ≤ b)

/-- Every bucket is a chain in order, and none is empty. -/
def Stocked (f : Frequency) : Prop :=
  ∀ ⦃frequency bucket⦄, f.buckets.get? frequency = some bucket →
    bucket.Holds bucket.items ∧ bucket.items ≠ []

/-- The buckets are in order, and they and the table of standings say the same. -/
structure Sound (f : Frequency) : Prop where
  stocked : f.Stocked
  standing : ∀ {key standing}, f.standings.get? key = some standing ↔
    (standing.slot, key) ∈ f.bucketItems standing.frequency

theorem bucketItems_of_some {f : Frequency} {frequency : Nat} {bucket : Chain Key}
    (h : f.buckets.get? frequency = some bucket) : f.bucketItems frequency = bucket.items := by
  simp [bucketItems, h]

theorem bucketItems_of_none {f : Frequency} {frequency : Nat}
    (h : f.buckets.get? frequency = none) : f.bucketItems frequency = [] := by
  simp [bucketItems, h]

theorem sound_fresh (capacity : Nat) : (fresh capacity).Sound := by
  constructor <;> simp [Stocked, bucketItems, fresh]

/-! ## Walking -/

theorem levels_perm (f : Frequency) : f.levels.Perm f.buckets.keys := List.mergeSort_perm _ _

theorem levels_sorted (f : Frequency) : f.levels.Pairwise (· < ·) := by
  have hle : f.levels.Pairwise (· ≤ ·) := by
    have hsorted : f.levels.Pairwise fun a b => decide (a ≤ b) = true :=
      List.pairwise_mergeSort (by simp; omega) (by simp; omega) f.buckets.keys
    exact hsorted.imp fun h => of_decide_eq_true h
  have hnodup : f.levels.Nodup := f.levels_perm.nodup_iff.mpr f.buckets.nodup_keys
  exact (hle.and hnodup).imp fun h => Nat.lt_of_le_of_ne h.1 h.2

theorem start_eq (f : Frequency) :
    f.start =
      match f.levels with
      | [] => { frequency := none, slot := none }
      | lowest :: _ =>
          { frequency := some lowest, slot := (f.buckets.get? lowest).bind Chain.front } := by
  have hmin := min?_eq_head?_of_perm f.levels_perm.symm (f.levels_sorted.imp Nat.le_of_lt)
  unfold start
  rw [hmin]
  cases f.levels <;> rfl

/-- The next bucket above an occupied frequency is the one of the next level. -/
theorem bucketAbove_eq {f : Frequency} {lower upper : List Nat} {frequency : Nat}
    (h : f.levels = lower ++ frequency :: upper) :
    f.bucketAbove frequency =
      upper.head?.bind fun higher =>
        (f.buckets.get? higher).map fun bucket => (higher, bucket) := by
  have hsorted := f.levels_sorted
  have hfilter : f.levels.filter (fun other => decide (frequency < other)) = upper := by
    rw [h, List.pairwise_append, List.pairwise_cons] at hsorted
    obtain ⟨-, ⟨habove, -⟩, hbelow⟩ := hsorted
    have hlower : lower.filter (fun other => decide (frequency < other)) = [] := by
      rw [List.filter_eq_nil_iff]
      intro other hother
      have hlt := hbelow other hother frequency List.mem_cons_self
      simp
      omega
    have hupper : upper.filter (fun other => decide (frequency < other)) = upper := by
      rw [List.filter_eq_self]
      intro other hother
      exact decide_eq_true (habove other hother)
    rw [h, List.filter_append, hlower, List.filter_cons_of_neg (by simp), hupper]
    rfl
  have hperm : (f.occupiedAbove frequency).Perm upper := by
    have hfiltered := f.levels_perm.symm.filter fun other => decide (frequency < other)
    rwa [hfilter] at hfiltered
  have hupper : upper.Pairwise (· ≤ ·) := by
    have hsub := hfilter ▸ f.levels_sorted.filter _
    exact hsub.imp Nat.le_of_lt
  unfold bucketAbove
  rw [min?_eq_head?_of_perm hperm hupper]
  cases upper with
  | nil => rfl
  | cons higher rest => cases h : f.buckets.get? higher <;> simp [h]

theorem nextIn_some {f : Frequency} {frequency : Nat} {bucket : Chain Key}
    (h : f.buckets.get? frequency = some bucket) (slot : Nat) :
    f.nextIn frequency (some slot) =
      (bucket.get? slot, { frequency := some frequency, slot := bucket.next? slot }) := by
  rw [nextIn, h]

theorem nextIn_none {f : Frequency} {frequency : Nat} (h : f.bucketAbove frequency = none) :
    f.nextIn frequency none = (none, { frequency := none, slot := none }) := by
  rw [nextIn]
  split
  · rfl
  · next heq => rw [h] at heq; cases heq

theorem nextIn_above {f : Frequency} {frequency higher : Nat} {bucket : Chain Key}
    (h : f.bucketAbove frequency = some (higher, bucket)) :
    f.nextIn frequency none = f.nextIn higher bucket.front := by
  rw [nextIn]
  split
  · next heq => rw [h] at heq; cases heq
  · next heq =>
    rw [h] at heq
    cases heq
    rfl

namespace Sound

variable {f : Frequency}

theorem exists_bucket (h : f.Sound) {frequency : Nat} (hlevel : frequency ∈ f.levels) :
    ∃ bucket item rest, f.buckets.get? frequency = some bucket ∧ bucket.Holds (item :: rest) ∧
      f.bucketItems frequency = item :: rest := by
  have hmem := f.levels_perm.mem_iff.mp hlevel
  obtain ⟨bucket, hbucket⟩ := Option.isSome_iff_exists.mp (Table.mem_keys_iff.mp hmem)
  obtain ⟨hholds, hne⟩ := h.stocked hbucket
  obtain ⟨item, rest, hitems⟩ := List.exists_cons_of_ne_nil hne
  rw [hitems] at hholds
  exact ⟨bucket, item, rest, hbucket, hholds, by rw [bucketItems_of_some hbucket, hitems]⟩

theorem nextIn_item (h : f.Sound) {frequency : Nat} {before rest : List (Nat × Key)}
    {item : Nat × Key} (hitems : f.bucketItems frequency = before ++ item :: rest) :
    f.nextIn frequency (some item.1) =
      (some item.2, { frequency := some frequency, slot := Chain.firstSlot rest }) := by
  cases hbucket : f.buckets.get? frequency with
  | none => simp [bucketItems_of_none hbucket] at hitems
  | some bucket =>
    rw [bucketItems_of_some hbucket] at hitems
    have hnode := (h.stocked hbucket).1.node hitems
    rw [nextIn_some hbucket, Chain.get?, Chain.next?, hnode]
    rfl

theorem meets_bucket (h : f.Sound) {frequency : Nat} {before after : List (Nat × Key)}
    {beyond : List Key} (hitems : f.bucketItems frequency = before ++ after)
    (hbeyond : Meets f.next { frequency := some frequency, slot := none } beyond) :
    Meets f.next { frequency := some frequency, slot := Chain.firstSlot after }
      (after.map Prod.snd ++ beyond) := by
  induction after generalizing before with
  | nil => exact hbeyond
  | cons item rest ih =>
    have hitems' : f.bucketItems frequency = (before ++ [item]) ++ rest := by simp [hitems]
    exact .item (h.nextIn_item hitems) (ih hitems')

theorem meets_above (h : f.Sound) {frequency : Nat} {lower upper : List Nat}
    (hlevels : f.levels = lower ++ frequency :: upper) :
    Meets f.next { frequency := some frequency, slot := none } (upper.flatMap f.bucketKeys) := by
  induction upper generalizing lower frequency with
  | nil => exact .ended (nextIn_none (bucketAbove_eq hlevels)) rfl
  | cons higher upper ih =>
    have hmem : higher ∈ f.levels := by simp [hlevels]
    obtain ⟨bucket, item, rest, hbucket, hholds, hfirst⟩ := h.exists_bucket hmem
    have hfront : bucket.front = some item.1 := hholds.front_eq
    have habove := bucketAbove_eq hlevels
    -- the walk goes on behind the first slot of the next bucket
    have hstep : f.next { frequency := some frequency, slot := none } =
        (some item.2, { frequency := some higher, slot := Chain.firstSlot rest }) := by
      have hnext : f.nextIn frequency none = f.nextIn higher bucket.front :=
        nextIn_above (by simpa [hbucket] using habove)
      have hitem := h.nextIn_item (List.nil_append (item :: rest) ▸ hfirst)
      rw [hfront] at hnext
      exact hnext.trans hitem
    have hlevels' : f.levels = (lower ++ [frequency]) ++ higher :: upper := by simp [hlevels]
    have hitems' : f.bucketItems higher = [item] ++ rest := hfirst
    have hkeys : f.bucketKeys higher = item.2 :: rest.map Prod.snd := by
      simp [bucketKeys, hfirst]
    rw [List.flatMap_cons, hkeys, List.cons_append]
    exact .item hstep (h.meets_bucket hitems' (ih hlevels'))

theorem meets_levels (h : f.Sound) : Meets f.next f.start (f.levels.flatMap f.bucketKeys) := by
  rw [start_eq]
  cases hlevels : f.levels with
  | nil => exact .ended rfl rfl
  | cons lowest upper =>
    have hlowest : lowest ∈ f.levels := by simp [hlevels]
    obtain ⟨bucket, item, rest, hbucket, hholds, hitems⟩ := h.exists_bucket hlowest
    have hfront : (f.buckets.get? lowest).bind Chain.front = Chain.firstSlot (item :: rest) := by
      simp [hbucket, hholds.front_eq]
    have hkeys : f.bucketKeys lowest = (item :: rest).map Prod.snd := by rw [bucketKeys, hitems]
    rw [List.flatMap_cons, hkeys]
    simp only [hfront]
    exact h.meets_bucket (List.nil_append (item :: rest) ▸ hitems)
      (h.meets_above (List.nil_append (lowest :: upper) ▸ hlevels))

theorem standing_of_mem (h : f.Sound) {key : Key} {frequency slot : Nat}
    (hslot : (slot, key) ∈ f.bucketItems frequency) :
    f.standings.get? key = some { frequency := frequency, slot := slot } :=
  h.standing.mpr hslot

theorem standing_unique (h : f.Sound) {key : Key} {frequency other slot place : Nat}
    (hslot : (slot, key) ∈ f.bucketItems frequency)
    (hplace : (place, key) ∈ f.bucketItems other) : frequency = other ∧ slot = place := by
  have hsame := Option.some.inj ((h.standing_of_mem hslot).symm.trans (h.standing_of_mem hplace))
  exact ⟨congrArg Standing.frequency hsame, congrArg Standing.slot hsame⟩

theorem nodup_slots (h : f.Sound) (frequency : Nat) :
    ((f.bucketItems frequency).map Prod.fst).Nodup := by
  cases hbucket : f.buckets.get? frequency with
  | none =>
    rw [bucketItems_of_none hbucket]
    exact List.nodup_nil
  | some bucket =>
    rw [bucketItems_of_some hbucket]
    exact (h.stocked hbucket).1.distinct

theorem nodup_listing (h : f.Sound) : (f.levels.flatMap f.bucketKeys).Nodup := by
  rw [List.nodup_flatMap]
  constructor
  · intro frequency _
    exact nodup_map_snd (h.nodup_slots frequency) fun ha hb => (h.standing_unique ha hb).2
  · refine f.levels_sorted.imp ?_
    intro a b hlt key ha hb
    obtain ⟨⟨slot, _⟩, hslot, rfl⟩ := List.mem_map.mp ha
    obtain ⟨⟨place, _⟩, hplace, rfl⟩ := List.mem_map.mp hb
    exact absurd (h.standing_unique hslot hplace).1 (Nat.ne_of_lt hlt)

theorem mem_listing (h : f.Sound) {key : Key} :
    key ∈ f.levels.flatMap f.bucketKeys ↔ key ∈ f.standings.keys := by
  rw [List.mem_flatMap, Table.mem_keys_iff, Option.isSome_iff_exists]
  constructor
  · rintro ⟨frequency, -, hkey⟩
    obtain ⟨⟨slot, _⟩, hslot, rfl⟩ := List.mem_map.mp hkey
    exact ⟨_, h.standing_of_mem hslot⟩
  · rintro ⟨standing, hstanding⟩
    have hslot := h.standing.mp hstanding
    refine ⟨standing.frequency, ?_, List.mem_map.mpr ⟨_, hslot, rfl⟩⟩
    rw [f.levels_perm.mem_iff, Table.mem_keys_iff]
    cases hbucket : f.buckets.get? standing.frequency with
    | none => simp [bucketItems_of_none hbucket] at hslot
    | some bucket => rfl

/-- The ranking lists all buckets in ascending order. -/
theorem worst_eq (h : f.Sound) : f.worst = f.levels.flatMap f.bucketKeys := by
  have hlength : (f.levels.flatMap f.bucketKeys).length ≤ f.size + 1 := by
    have hsub : f.levels.flatMap f.bucketKeys ⊆ f.standings.keys := fun _ => h.mem_listing.mp
    have hle := (List.subperm_of_subset h.nodup_listing hsub).length_le
    rw [Table.length_keys] at hle
    exact Nat.le_succ_of_le hle
  exact h.meets_levels.walk_eq hlength

theorem meets_worst (h : f.Sound) : Meets f.next f.start f.worst := by
  rw [h.worst_eq]
  exact h.meets_levels

theorem nodup_worst (h : f.Sound) : f.worst.Nodup := by
  rw [h.worst_eq]
  exact h.nodup_listing

theorem mem_worst (h : f.Sound) {key : Key} : key ∈ f.worst ↔ key ∈ f.standings.keys := by
  rw [h.worst_eq]
  exact h.mem_listing

end Sound

/-! ## Uses -/

/-- The ranking `left` is `f` with a key taken out of its bucket, but not yet out of the table. -/
structure Vacated (f left : Frequency) (key : Key) : Prop where
  stocked : left.Stocked
  standings_eq : left.standings = f.standings
  bucketItems_eq : ∀ frequency, left.bucketItems frequency =
    (f.bucketItems frequency).filter fun item => decide (item.2 ≠ key)

namespace Sound

variable {f : Frequency}

theorem vacated_of_none (h : f.Sound) {key : Key} (hkey : f.standings.get? key = none) :
    f.Vacated f key where
  stocked := h.stocked
  standings_eq := rfl
  bucketItems_eq := by
    intro frequency
    rw [eq_comm, List.filter_eq_self]
    intro item hitem
    refine decide_eq_true fun heq => ?_
    obtain ⟨slot, _⟩ := item
    cases heq
    rw [h.standing_of_mem hitem] at hkey
    cases hkey

theorem filter_bucketItems (h : f.Sound) {frequency slot : Nat} {key : Key}
    {before after : List (Nat × Key)}
    (hitems : f.bucketItems frequency = before ++ (slot, key) :: after) :
    (f.bucketItems frequency).filter (fun item => decide (item.2 ≠ key)) = before ++ after := by
  have hkeys : ((f.bucketItems frequency).map Prod.snd).Nodup :=
    nodup_map_snd (h.nodup_slots frequency) fun ha hb => (h.standing_unique ha hb).2
  rw [hitems, List.map_append, List.map_cons, List.nodup_append, List.nodup_cons] at hkeys
  obtain ⟨-, ⟨hafter, -⟩, hbefore⟩ := hkeys
  rw [hitems, List.filter_append, List.filter_cons_of_neg (by simp), ← List.filter_append,
    List.filter_eq_self]
  intro item hitem
  refine decide_eq_true fun heq => ?_
  rcases List.mem_append.mp hitem with hmem | hmem
  · exact hbefore item.2 (List.mem_map_of_mem hmem) key List.mem_cons_self heq
  · exact hafter (List.mem_map.mpr ⟨item, hmem, heq⟩)

theorem filter_bucketItems_of_ne (h : f.Sound) {frequency other slot : Nat} {key : Key}
    (hslot : (slot, key) ∈ f.bucketItems frequency) (hother : other ≠ frequency) :
    (f.bucketItems other).filter (fun item => decide (item.2 ≠ key)) = f.bucketItems other := by
  rw [List.filter_eq_self]
  intro item hitem
  refine decide_eq_true fun heq => ?_
  obtain ⟨place, _⟩ := item
  cases heq
  exact hother (h.standing_unique hitem hslot).1

/-- Taking a key out of its bucket tells the key and leaves the others in their order. -/
theorem detach (h : f.Sound) {key : Key} {standing : Standing}
    (hstanding : f.standings.get? key = some standing) :
    (f.detach standing).1 = some key ∧ f.Vacated (f.detach standing).2 key := by
  have hslot := h.standing.mp hstanding
  obtain ⟨before, after, hitems⟩ := List.append_of_mem hslot
  cases hbucket : f.buckets.get? standing.frequency with
  | none => simp [bucketItems_of_none hbucket] at hslot
  | some bucket =>
    have hholds := (h.stocked hbucket).1
    rw [← bucketItems_of_some hbucket, hitems] at hholds
    obtain ⟨hkey, hrest⟩ := hholds.remove
    have hempty : (bucket.remove standing.slot).2.isEmpty = true ↔ before ++ after = [] := by
      rw [Chain.isEmpty, beq_iff_eq, hrest.length_eq, List.length_eq_zero_iff]
    have hget : ∀ frequency, (f.detach standing).2.buckets.get? frequency =
        if frequency = standing.frequency then
          if before ++ after = [] then none else some (bucket.remove standing.slot).2
        else f.buckets.get? frequency := by
      intro frequency
      simp only [Frequency.detach, hbucket]
      by_cases hnil : before ++ after = []
      · rw [if_pos (hempty.mpr hnil), if_pos hnil, Table.get?_erase]
      · rw [if_neg (mt hempty.mp hnil), if_neg hnil, Table.get?_insert]
    refine ⟨by simp [Frequency.detach, hbucket, hkey], ?_⟩
    constructor
    case stocked =>
      intro frequency other hother
      rw [hget] at hother
      split at hother
      · split at hother
        · cases hother
        · next hne =>
          cases hother
          rw [hrest.items_eq]
          exact ⟨hrest, hne⟩
      · exact h.stocked hother
    case standings_eq => simp [Frequency.detach, hbucket]
    case bucketItems_eq =>
      intro frequency
      by_cases hfrequency : frequency = standing.frequency
      · rw [hfrequency, h.filter_bucketItems hitems]
        by_cases hnil : before ++ after = []
        · rw [bucketItems_of_none (by rw [hget, if_pos rfl, if_pos hnil]), hnil]
        · rw [bucketItems_of_some (by rw [hget, if_pos rfl, if_neg hnil]), hrest.items_eq]
      · rw [h.filter_bucketItems_of_ne hslot hfrequency, bucketItems, hget, if_neg hfrequency,
          ← bucketItems]

end Sound

theorem Stocked.push {f : Frequency} (h : f.Stocked) (frequency : Nat) (key : Key) :
    (f.push frequency key).2.Stocked ∧
      ∀ other, (f.push frequency key).2.bucketItems other =
        if other = frequency then
          f.bucketItems frequency ++ [((f.push frequency key).1, key)]
        else f.bucketItems other := by
  obtain ⟨bucket, hbucket, hholds⟩ : ∃ bucket : Chain Key,
      (f.buckets.get? frequency).getD .empty = bucket ∧
        bucket.Holds (f.bucketItems frequency) := by
    cases hget : f.buckets.get? frequency with
    | none =>
      rw [bucketItems_of_none hget]
      exact ⟨_, rfl, Chain.Holds.empty⟩
    | some bucket =>
      rw [bucketItems_of_some hget]
      exact ⟨_, rfl, (h hget).1⟩
  obtain ⟨-, hpushed⟩ := hholds.push key
  have hslot : (f.push frequency key).1 = (bucket.push key).1 := by rw [← hbucket]; rfl
  have hget : ∀ other, (f.push frequency key).2.buckets.get? other =
      if other = frequency then some (bucket.push key).2 else f.buckets.get? other := by
    intro other
    rw [← hbucket]
    exact Table.get?_insert f.buckets frequency other _
  constructor
  · intro other stocked hstocked
    rw [hget] at hstocked
    split at hstocked
    · cases hstocked
      rw [hpushed.items_eq]
      exact ⟨hpushed, by simp⟩
    · exact h hstocked
  · intro other
    by_cases hother : other = frequency
    · rw [bucketItems_of_some (by rw [hget, if_pos hother]), if_pos hother, hpushed.items_eq, hslot]
    · rw [bucketItems, hget, if_neg hother, if_neg hother, ← bucketItems]

namespace Sound

variable {f : Frequency}

theorem enter (h : f.Sound) {left : Frequency} {key : Key} (hleft : f.Vacated left key)
    (frequency : Nat) :
    ((left.push frequency key).2.note key
      { frequency := frequency, slot := (left.push frequency key).1 }).Sound := by
  obtain ⟨hstocked, hitems⟩ := hleft.stocked.push frequency key
  constructor
  case stocked => exact hstocked
  case standing =>
    intro k standing
    have hget : ((left.push frequency key).2.note key
        { frequency := frequency, slot := (left.push frequency key).1 }).standings.get? k =
          if k = key then some { frequency := frequency, slot := (left.push frequency key).1 }
          else f.standings.get? k := by
      rw [← hleft.standings_eq]
      exact Table.get?_insert left.standings key k _
    have hkept : ∀ {slot other}, (slot, k) ∈ left.bucketItems other ↔
        k ≠ key ∧ (slot, k) ∈ f.bucketItems other := by
      intro slot other
      rw [hleft.bucketItems_eq, List.mem_filter, decide_eq_true_eq, and_comm]
    change _ ↔ (standing.slot, k) ∈ (left.push frequency key).2.bucketItems standing.frequency
    rw [hget, hitems]
    obtain ⟨other, slot⟩ := standing
    by_cases hk : k = key
    · subst hk
      by_cases hother : other = frequency
      · simp [hother, hkept, eq_comm]
      · simp [hother, hkept, Ne.symm hother]
    · rw [if_neg hk, h.standing]
      by_cases hother : other = frequency
      · simp [hk, hother, hkept]
      · simp [hk, hother, hkept]

/-- A use tracks its key and leaves the other keys tracked as they were. -/
theorem used (h : f.Sound) (key : Key) :
    (f.used key).Sound ∧ ∀ k, k ∈ (f.used key).worst ↔ k = key ∨ k ∈ f.worst := by
  obtain ⟨left, frequency, hleft, hused⟩ : ∃ left frequency, f.Vacated left key ∧
      f.used key = (left.push frequency key).2.note key
        { frequency := frequency, slot := (left.push frequency key).1 } := by
    cases hkey : f.standings.get? key with
    | none => exact ⟨f, 1, h.vacated_of_none hkey, by simp [Frequency.used, hkey]⟩
    | some standing =>
      obtain ⟨howned, hvacated⟩ := h.detach hkey
      exact ⟨_, standing.frequency + 1, hvacated, by simp [Frequency.used, hkey, howned]⟩
  have hsound := h.enter hleft frequency
  rw [hused]
  refine ⟨hsound, fun k => ?_⟩
  have hstandings : (left.push frequency key).2.standings = f.standings := hleft.standings_eq
  rw [hsound.mem_worst, h.mem_worst, note, Table.mem_keys_insert, hstandings]

theorem remove (h : f.Sound) (key : Key) :
    (f.remove key).Sound ∧ ∀ k, k ∈ (f.remove key).worst ↔ k ≠ key ∧ k ∈ f.worst := by
  cases hkey : f.standings.get? key with
  | none =>
    have hsame : f.remove key = f := by simp [Frequency.remove, hkey]
    rw [hsame]
    refine ⟨h, fun k => ⟨fun hk => ⟨?_, hk⟩, And.right⟩⟩
    rintro rfl
    rw [h.mem_worst, Table.mem_keys_iff, hkey] at hk
    cases hk
  | some standing =>
    obtain ⟨-, hleft⟩ := h.detach hkey
    have hremoved : f.remove key =
        { (f.detach standing).2 with standings := f.standings.erase key } := by
      simp [Frequency.remove, hkey, hleft.standings_eq]
    have hsound : (f.remove key).Sound := by
      rw [hremoved]
      constructor
      case stocked => exact hleft.stocked
      case standing =>
        intro k standing'
        change _ ↔ (standing'.slot, k) ∈ (f.detach standing).2.bucketItems standing'.frequency
        rw [Table.get?_erase, hleft.bucketItems_eq, List.mem_filter, decide_eq_true_eq]
        by_cases hk : k = key
        · simp [hk]
        · simp [hk, h.standing]
    refine ⟨hsound, fun k => ?_⟩
    rw [hsound.mem_worst, h.mem_worst, hremoved, Table.mem_keys_erase]

end Sound

end Frequency

end TtlCache
