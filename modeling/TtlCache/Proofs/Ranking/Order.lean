import TtlCache.Proofs.Ranking.Tracking

/-!
# Orders

What a ranking by frequency makes of a use and of a removal, bucket by bucket: a used key leaves its
bucket and becomes the last one of the next bucket, and all other keys stay as they are.  What two
rankings answer depends only on their buckets, not on the slots and chains in which the keys are
kept; rankings that agree on them go on to agree whatever they are told.
-/

namespace TtlCache

namespace Frequency

/-- How often a key has been used; a key that is not ranked has not been used. -/
def count (f : Frequency) (key : Key) : Nat :=
  ((f.standings.get? key).map Standing.frequency).getD 0

theorem bucketKeys_filter {f left : Frequency} {key : Key} {frequency : Nat}
    (h : left.bucketItems frequency =
      (f.bucketItems frequency).filter fun item => decide (item.2 ≠ key)) :
    left.bucketKeys frequency = (f.bucketKeys frequency).filter fun k => decide (k ≠ key) := by
  rw [bucketKeys, h, bucketKeys, List.filter_map]
  rfl

namespace Sound

variable {f g : Frequency}

/-- A use moves its key behind all others that were used as often. -/
theorem bucketKeys_used (h : f.Sound) (key : Key) (frequency : Nat) :
    (f.used key).bucketKeys frequency =
      (f.bucketKeys frequency).filter (fun k => decide (k ≠ key)) ++
        if frequency = f.count key + 1 then [key] else [] := by
  obtain ⟨left, hleft, hused⟩ : ∃ left, f.Vacated left key ∧
      f.used key = (left.push (f.count key + 1) key).2.note key
        { frequency := f.count key + 1, slot := (left.push (f.count key + 1) key).1 } := by
    cases hkey : f.standings.get? key with
    | none => exact ⟨f, h.vacated_of_none hkey, by simp [Frequency.used, count, hkey]⟩
    | some standing =>
      obtain ⟨howned, hvacated⟩ := h.detach hkey
      exact ⟨_, hvacated, by simp [Frequency.used, count, hkey, howned]⟩
  obtain ⟨-, hitems⟩ := hleft.stocked.push (f.count key + 1) key
  have hbucket : (f.used key).bucketItems frequency =
      (left.push (f.count key + 1) key).2.bucketItems frequency := by
    rw [hused]
    rfl
  rw [bucketKeys, hbucket, hitems]
  split
  · next heq =>
    rw [heq, List.map_append, ← bucketKeys, bucketKeys_filter (hleft.bucketItems_eq _)]
    rfl
  · rw [List.append_nil, ← bucketKeys, bucketKeys_filter (hleft.bucketItems_eq _)]

theorem bucketKeys_remove (h : f.Sound) (key : Key) (frequency : Nat) :
    (f.remove key).bucketKeys frequency =
      (f.bucketKeys frequency).filter fun k => decide (k ≠ key) := by
  cases hkey : f.standings.get? key with
  | none =>
    have hsame : f.remove key = f := by simp [Frequency.remove, hkey]
    rw [hsame]
    exact bucketKeys_filter ((h.vacated_of_none hkey).bucketItems_eq frequency)
  | some standing =>
    obtain ⟨-, hleft⟩ := h.detach hkey
    have hitems : (f.remove key).bucketItems frequency =
        (f.detach standing).2.bucketItems frequency := by
      simp only [Frequency.remove, hkey]
      rfl
    rw [bucketKeys, hitems, ← bucketKeys, bucketKeys_filter (hleft.bucketItems_eq frequency)]

theorem mem_bucketKeys (h : f.Sound) {key : Key} {frequency : Nat} :
    key ∈ f.bucketKeys frequency ↔ ∃ slot, f.standings.get? key = some ⟨frequency, slot⟩ := by
  rw [bucketKeys, List.mem_map]
  constructor
  · rintro ⟨⟨slot, _⟩, hmem, rfl⟩
    exact ⟨slot, h.standing_of_mem hmem⟩
  · rintro ⟨slot, hslot⟩
    exact ⟨(slot, key), h.standing.mp hslot, rfl⟩

theorem count_of_mem (h : f.Sound) {key : Key} {frequency : Nat}
    (hkey : key ∈ f.bucketKeys frequency) : f.count key = frequency := by
  obtain ⟨slot, hslot⟩ := h.mem_bucketKeys.mp hkey
  simp [count, hslot]

theorem count_of_notMem (h : f.Sound) {key : Key} (hkey : key ∉ f.worst) : f.count key = 0 := by
  rw [h.mem_worst, ← Table.get?_eq_none_iff] at hkey
  simp [count, hkey]

theorem mem_levels (h : f.Sound) {frequency : Nat} :
    frequency ∈ f.levels ↔ f.bucketKeys frequency ≠ [] := by
  constructor
  · intro hlevel
    obtain ⟨bucket, item, rest, -, -, hitems⟩ := h.exists_bucket hlevel
    simp [bucketKeys, hitems]
  · intro hne
    rw [f.levels_perm.mem_iff, Table.mem_keys_iff]
    cases hbucket : f.buckets.get? frequency with
    | none => simp [bucketKeys, bucketItems_of_none hbucket] at hne
    | some bucket => rfl

theorem pairwise_worst (h : f.Sound) {before : Key → Key → Prop}
    (hlevel : ∀ frequency, (f.bucketKeys frequency).Pairwise before)
    (habove : ∀ lower upper, lower < upper → ∀ a ∈ f.bucketKeys lower, ∀ b ∈ f.bucketKeys upper,
      before a b) : f.worst.Pairwise before := by
  rw [h.worst_eq, List.pairwise_flatMap]
  exact ⟨fun frequency _ => hlevel frequency,
    f.levels_sorted.imp fun {lower upper} hlt => habove lower upper hlt⟩

/-- A walk over more frequencies than occur meets the same keys. -/
theorem flatMap_bucketKeys (h : f.Sound) {frequencies : List Nat}
    (hsorted : frequencies.Pairwise (· < ·))
    (hall : ∀ frequency, f.bucketKeys frequency ≠ [] → frequency ∈ frequencies) :
    frequencies.flatMap f.bucketKeys = f.worst := by
  have hoccupied : frequencies.filter (fun frequency => !(f.bucketKeys frequency).isEmpty) =
      f.levels := by
    have hkept := hsorted.filter fun frequency => !(f.bucketKeys frequency).isEmpty
    have hperm : (frequencies.filter fun frequency => !(f.bucketKeys frequency).isEmpty).Perm
        f.levels := by
      rw [List.perm_ext_iff_of_nodup (hkept.imp Nat.ne_of_lt) (f.levels_sorted.imp Nat.ne_of_lt)]
      intro frequency
      rw [List.mem_filter, h.mem_levels]
      simp only [Bool.not_eq_eq_eq_not, Bool.not_true, List.isEmpty_eq_false_iff]
      exact ⟨And.right, fun hne => ⟨hall frequency hne, hne⟩⟩
    exact hperm.eq_of_pairwise (fun _ _ _ _ hlt hgt => absurd hgt (Nat.lt_asymm hlt)) hkept
      f.levels_sorted
  rw [h.worst_eq, ← hoccupied]
  clear hoccupied hsorted hall
  induction frequencies with
  | nil => rfl
  | cons frequency frequencies ih =>
    rw [List.flatMap_cons, ih, List.filter_cons]
    split
    · rw [List.flatMap_cons]
    · next hempty =>
      have hnil : f.bucketKeys frequency = [] := by simpa using hempty
      rw [hnil, List.nil_append]

/-- Forgetting a key takes it out of the order and leaves the others in theirs. -/
theorem worst_remove (h : f.Sound) (key : Key) :
    (f.remove key).worst = f.worst.filter fun k => decide (k ≠ key) := by
  have hall : ∀ frequency, (f.remove key).bucketKeys frequency ≠ [] → frequency ∈ f.levels := by
    intro frequency hne
    rw [h.mem_levels]
    intro hempty
    rw [h.bucketKeys_remove, hempty] at hne
    exact hne rfl
  rw [← (h.remove key).1.flatMap_bucketKeys f.levels_sorted hall, h.worst_eq, List.filter_flatMap]
  exact congrArg f.levels.flatMap (funext fun frequency => h.bucketKeys_remove key frequency)

theorem size_eq (h : f.Sound) : f.size = f.worst.length := by
  have hperm : f.worst.Perm f.standings.keys := by
    rw [List.perm_ext_iff_of_nodup h.nodup_worst f.standings.nodup_keys]
    exact fun key => h.mem_worst
  rw [hperm.length_eq, Table.length_keys]
  rfl

end Sound

end Frequency

namespace Recency.Sound

theorem size_eq {r : Recency} (h : r.Sound) : r.size = r.worst.length := by
  rw [h.worst_eq, List.length_map, Recency.size, h.order.length_eq]

end Recency.Sound

namespace Ranking

/-! ## Counting ranked keys -/

theorem Sound.size_eq {r : Ranking} (h : r.Sound) : r.size = r.worst.length := by
  cases r with
  | recency keys => exact Recency.Sound.size_eq h
  | frequency keys => exact Frequency.Sound.size_eq h

theorem Sound.excess_eq {r : Ranking} (h : r.Sound) : r.excess = r.worst.length - r.capacity := by
  rw [← h.size_eq]
  cases r <;> rfl

@[simp] theorem capacity_used (r : Ranking) (key : Key) : (r.used key).capacity = r.capacity := by
  cases r with
  | recency keys =>
    simp only [used, capacity, Recency.used]
    split <;> rfl
  | frequency keys =>
    simp only [used, capacity, Frequency.used]
    split
    · rfl
    · simp only [Frequency.push, Frequency.note, Frequency.detach]
      split <;> rfl

@[simp] theorem capacity_remove (r : Ranking) (key : Key) :
    (r.remove key).capacity = r.capacity := by
  cases r with
  | recency keys =>
    simp only [remove, capacity, Recency.remove]
    split <;> rfl
  | frequency keys =>
    simp only [remove, capacity, Frequency.remove]
    split
    · rfl
    · simp only [Frequency.detach]
      split <;> rfl

theorem Sound.worst_remove {r : Ranking} (h : r.Sound) (key : Key) :
    (r.remove key).worst = r.worst.filter fun k => decide (k ≠ key) := by
  cases r with
  | recency keys => exact (Recency.Sound.remove h key).2
  | frequency keys => exact Frequency.Sound.worst_remove h key

/-! ## Rankings that agree -/

/-- Two rankings by the same policy that agree on all that they can be asked. -/
def Agrees : Ranking -> Ranking -> Prop
  | .recency r, .recency s => r.capacity = s.capacity ∧ r.worst = s.worst
  | .frequency f, .frequency g =>
      f.capacity = g.capacity ∧ ∀ frequency, f.bucketKeys frequency = g.bucketKeys frequency
  | _, _ => False

namespace Agrees

variable {r s t : Ranking}

theorem refl (r : Ranking) : r.Agrees r := by
  cases r
  · exact ⟨rfl, rfl⟩
  · exact ⟨rfl, fun _ => rfl⟩

theorem symm (h : r.Agrees s) : s.Agrees r := by
  cases r <;> cases s
  · exact ⟨h.1.symm, h.2.symm⟩
  · exact h
  · exact h
  · exact ⟨h.1.symm, fun frequency => (h.2 frequency).symm⟩

theorem trans (h : r.Agrees s) (hlater : s.Agrees t) : r.Agrees t := by
  cases r <;> cases s <;> cases t
  all_goals first | exact h.elim | exact hlater.elim | skip
  · exact ⟨h.1.trans hlater.1, h.2.trans hlater.2⟩
  · exact ⟨h.1.trans hlater.1, fun frequency => (h.2 frequency).trans (hlater.2 frequency)⟩

theorem capacity_eq (h : r.Agrees s) : r.capacity = s.capacity := by
  cases r <;> cases s
  · exact h.1
  · exact h.elim
  · exact h.elim
  · exact h.1

theorem worst_eq (h : r.Agrees s) (hr : r.Sound) (hs : s.Sound) : r.worst = s.worst := by
  cases r <;> cases s
  · exact h.2
  · exact h.elim
  · exact h.elim
  · next f g =>
    have hg : g.Sound := hs
    have hall : ∀ frequency, f.bucketKeys frequency ≠ [] → frequency ∈ g.levels := by
      intro frequency hne
      rwa [hg.mem_levels, ← h.2]
    change f.worst = g.worst
    rw [← Frequency.Sound.flatMap_bucketKeys hr g.levels_sorted hall, hg.worst_eq]
    exact congrArg g.levels.flatMap (funext h.2)

theorem excess_eq (h : r.Agrees s) (hr : r.Sound) (hs : s.Sound) : r.excess = s.excess := by
  rw [hr.excess_eq, hs.excess_eq, h.worst_eq hr hs, h.capacity_eq]

theorem count_eq {f g : Frequency} (h : Agrees (.frequency f) (.frequency g)) (hf : f.Sound)
    (hg : g.Sound) (key : Key) : f.count key = g.count key := by
  by_cases hkey : key ∈ f.worst
  · rw [hf.worst_eq, List.mem_flatMap] at hkey
    obtain ⟨frequency, -, hmem⟩ := hkey
    rw [hf.count_of_mem hmem, hg.count_of_mem (h.2 frequency ▸ hmem)]
  · have hother : key ∉ g.worst := by
      have hworst : f.worst = g.worst := h.worst_eq (r := .frequency f) (s := .frequency g) hf hg
      rwa [← hworst]
    rw [hf.count_of_notMem hkey, hg.count_of_notMem hother]

theorem used (h : r.Agrees s) (hr : r.Sound) (hs : s.Sound) (key : Key) :
    (r.used key).Agrees (s.used key) := by
  have hcapacity : (r.used key).capacity = (s.used key).capacity := by
    rw [capacity_used, capacity_used, h.capacity_eq]
  cases r <;> cases s
  · next r s =>
    refine ⟨hcapacity, ?_⟩
    rw [(Recency.Sound.used hr key).2, (Recency.Sound.used hs key).2, h.2]
  · exact h.elim
  · exact h.elim
  · next f g =>
    refine ⟨hcapacity, fun frequency => ?_⟩
    rw [Frequency.Sound.bucketKeys_used hr, Frequency.Sound.bucketKeys_used hs, h.2,
      h.count_eq hr hs]

theorem remove (h : r.Agrees s) (hr : r.Sound) (hs : s.Sound) (key : Key) :
    (r.remove key).Agrees (s.remove key) := by
  have hcapacity : (r.remove key).capacity = (s.remove key).capacity := by
    rw [capacity_remove, capacity_remove, h.capacity_eq]
  cases r <;> cases s
  · next r s =>
    refine ⟨hcapacity, ?_⟩
    rw [(Recency.Sound.remove hr key).2, (Recency.Sound.remove hs key).2, h.2]
  · exact h.elim
  · exact h.elim
  · next f g =>
    refine ⟨hcapacity, fun frequency => ?_⟩
    rw [Frequency.Sound.bucketKeys_remove hr, Frequency.Sound.bucketKeys_remove hs, h.2]

theorem remove_comm (hr : r.Sound) (a b : Key) :
    ((r.remove a).remove b).Agrees ((r.remove b).remove a) := by
  have hcapacity : ((r.remove a).remove b).capacity = ((r.remove b).remove a).capacity := by
    simp
  have ha := (hr.remove a).1
  have hb := (hr.remove b).1
  cases r with
  | recency r =>
    refine ⟨hcapacity, ?_⟩
    rw [(Recency.Sound.remove ha b).2, (Recency.Sound.remove hb a).2,
      (Recency.Sound.remove hr a).2, (Recency.Sound.remove hr b).2, List.filter_comm]
  | frequency f =>
    refine ⟨hcapacity, fun frequency => ?_⟩
    rw [Frequency.Sound.bucketKeys_remove ha, Frequency.Sound.bucketKeys_remove hb,
      Frequency.Sound.bucketKeys_remove hr, Frequency.Sound.bucketKeys_remove hr, List.filter_comm]

end Agrees

end Ranking

theorem Evictor.ranking_builtIn {policy : Policy} {capacity : Nat} {evictor : Evictor}
    (h : Evictor.builtIn policy capacity = .ok evictor) :
    evictor.ranking.policy = policy ∧ evictor.ranking.capacity = capacity := by
  rw [eq_of_builtIn h]
  exact ⟨Ranking.policy_fresh capacity policy, Ranking.capacity_fresh capacity policy⟩

theorem Evictor.capacity_pos {policy : Policy} {capacity : Nat} {evictor : Evictor}
    (h : Evictor.builtIn policy capacity = .ok evictor) : 0 < capacity := by
  rw [builtIn_eq, Policy.makes_eq_ok_iff, Policy.flaw?_eq_none_iff] at h
  exact Nat.pos_of_ne_zero h.1.1

end TtlCache
