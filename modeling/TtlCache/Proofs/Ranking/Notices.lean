import Mathlib.Data.List.Dedup
import Mathlib.Data.List.Induction
import Mathlib.Data.List.Sort
import TtlCache.Proofs.Ranking.Uses

/-!
# Notices

All that a ranking is ever told are uses and removals of keys, one after another.  The notices alone
say which keys are tracked and in which order they should come: the keys that were used since their
last removal, those with the fewest such uses first, and among them those whose last use is longest
ago.  A ranking by frequency, for all its buckets and slots, lists the keys in just this order.
-/

namespace TtlCache

inductive Notice where
  | used (key : Key)
  | removed (key : Key)
  deriving DecidableEq, Repr

namespace Notice

def key : Notice -> Key
  | .used key | .removed key => key

def tally (key : Key) (count : Nat) : Notice -> Nat
  | .used other => if other = key then count + 1 else count
  | .removed other => if other = key then 0 else count

end Notice

/-- The number of uses of a key since its last removal. -/
def usesSince (notices : List Notice) (key : Key) : Nat := notices.foldl (Notice.tally key) 0

/-- The number of notices up to the last use of a key, and none if the key was never used. -/
def lastUse (notices : List Notice) (key : Key) : Nat :=
  notices.length - notices.reverse.idxOf (.used key)

/-- The keys that were used since their last removal. -/
def trackedKeys (notices : List Notice) : List Key :=
  (notices.map Notice.key).dedup.filter fun key => decide (0 < usesSince notices key)

def LeastUsed (notices : List Notice) (a b : Key) : Prop :=
  usesSince notices a < usesSince notices b ∨
    usesSince notices a = usesSince notices b ∧ lastUse notices a ≤ lastUse notices b

instance (notices : List Notice) : DecidableRel (LeastUsed notices) := fun _ _ =>
  inferInstanceAs (Decidable (_ ∨ _))

instance (notices : List Notice) : IsTrans Key (LeastUsed notices) where
  trans a b c hab hbc := by
    unfold LeastUsed at *
    omega

instance (notices : List Notice) : Std.Total (LeastUsed notices) where
  total a b := by
    unfold LeastUsed
    omega

/-- The tracked keys in the order of their uses, by sorting. -/
def byFrequency (notices : List Notice) : List Key :=
  (trackedKeys notices).insertionSort (LeastUsed notices)

theorem foldl_induction {σ : Type} {hear : σ → Notice → σ} {P : List Notice → σ → Prop}
    (hstep : ∀ {notices state} notice, P notices state →
      P (notices ++ [notice]) (hear state notice))
    {earlier : List Notice} {state : σ} (h : P earlier state) (notices : List Notice) :
    P (earlier ++ notices) (notices.foldl hear state) := by
  induction notices generalizing earlier state with
  | nil => rwa [List.append_nil]
  | cons notice notices ih =>
    rw [List.append_cons]
    exact ih (hstep notice h)

theorem usesSince_append (notices : List Notice) (notice : Notice) (key : Key) :
    usesSince (notices ++ [notice]) key = notice.tally key (usesSince notices key) := by
  simp [usesSince, List.foldl_append]

theorem lastUse_append (notices : List Notice) (notice : Notice) (key : Key) :
    lastUse (notices ++ [notice]) key =
      if notice = .used key then notices.length + 1 else lastUse notices key := by
  simp only [lastUse, List.reverse_append, List.reverse_cons, List.reverse_nil, List.nil_append,
    List.cons_append, List.length_append, List.length_singleton, List.idxOf_cons]
  by_cases hkey : notice = .used key
  · simp [hkey]
  · simp [hkey, beq_eq_false_iff_ne.mpr hkey]

theorem lastUse_le (notices : List Notice) (key : Key) : lastUse notices key ≤ notices.length :=
  Nat.sub_le _ _

/-- Two keys do not have their last use at the same place. -/
theorem eq_of_lastUse_eq {notices : List Notice} {a b : Key} (hused : 0 < lastUse notices a)
    (h : lastUse notices a = lastUse notices b) : a = b := by
  induction notices using List.reverseRecOn with
  | nil => cases hused
  | append_singleton notices notice ih =>
    have ha := lastUse_le notices a
    have hb := lastUse_le notices b
    rw [lastUse_append] at hused h
    rw [lastUse_append] at h
    by_cases hnoticeA : notice = .used a <;> by_cases hnoticeB : notice = .used b
    · rw [hnoticeA] at hnoticeB
      exact Notice.used.inj hnoticeB
    · rw [if_pos hnoticeA, if_neg hnoticeB] at h
      omega
    · rw [if_neg hnoticeA, if_pos hnoticeB] at h
      omega
    · rw [if_neg hnoticeA] at hused h
      rw [if_neg hnoticeB] at h
      exact ih hused h

theorem lastUse_pos {notices : List Notice} {key : Key} (h : 0 < usesSince notices key) :
    0 < lastUse notices key := by
  induction notices using List.reverseRecOn with
  | nil => cases h
  | append_singleton notices notice ih =>
    rw [usesSince_append] at h
    rw [lastUse_append]
    split
    · exact Nat.succ_pos _
    · next hother =>
      refine ih ?_
      cases notice with
      | used other =>
        have hne : other ≠ key := fun heq => hother (by rw [heq])
        simpa [Notice.tally, hne] using h
      | removed other =>
        simp only [Notice.tally] at h
        split at h
        · cases h
        · exact h

theorem key_mem_of_usesSince_pos {notices : List Notice} {key : Key}
    (h : 0 < usesSince notices key) : key ∈ notices.map Notice.key := by
  induction notices using List.reverseRecOn with
  | nil => cases h
  | append_singleton notices notice ih =>
    rw [List.map_append, List.mem_append]
    by_cases hkey : notice.key = key
    · exact Or.inr (List.mem_singleton.mpr hkey.symm)
    · rw [usesSince_append] at h
      refine Or.inl (ih ?_)
      cases notice with
      | used other => simpa [Notice.tally, show other ≠ key from hkey] using h
      | removed other => simpa [Notice.tally, show other ≠ key from hkey] using h

theorem mem_trackedKeys {notices : List Notice} {key : Key} :
    key ∈ trackedKeys notices ↔ 0 < usesSince notices key := by
  rw [trackedKeys, List.mem_filter, List.mem_dedup, decide_eq_true_iff]
  exact ⟨And.right, fun h => ⟨key_mem_of_usesSince_pos h, h⟩⟩

theorem nodup_trackedKeys (notices : List Notice) : (trackedKeys notices).Nodup :=
  (List.nodup_dedup _).filter _

/-- Sorting puts the tracked keys in the one order in which each comes before all behind it, if keys
that come before each other have their last use in common. -/
theorem eq_insertionSort {notices : List Notice} {before : Key → Key → Prop} [DecidableRel before]
    [IsTrans Key before] [Std.Total before] {keys : List Key} (hnodup : keys.Nodup)
    (hmem : ∀ key, key ∈ keys ↔ 0 < usesSince notices key) (hsorted : keys.Pairwise before)
    (hlast : ∀ a b, before a b → before b a → lastUse notices a = lastUse notices b) :
    keys = (trackedKeys notices).insertionSort before := by
  have hperm : keys.Perm ((trackedKeys notices).insertionSort before) := by
    refine List.Perm.trans ?_ (List.perm_insertionSort _ _).symm
    rw [List.perm_ext_iff_of_nodup hnodup (nodup_trackedKeys notices)]
    exact fun key => (hmem key).trans mem_trackedKeys.symm
  refine hperm.eq_of_pairwise (fun a b ha _ hab hba => ?_) hsorted
    (List.pairwise_insertionSort _ _)
  exact eq_of_lastUse_eq (lastUse_pos ((hmem a).mp ha)) (hlast a b hab hba)

theorem eq_byFrequency {notices : List Notice} {keys : List Key} (hnodup : keys.Nodup)
    (hmem : ∀ key, key ∈ keys ↔ 0 < usesSince notices key)
    (hsorted : keys.Pairwise (LeastUsed notices)) : keys = byFrequency notices := by
  refine eq_insertionSort hnodup hmem hsorted fun a b hab hba => ?_
  unfold LeastUsed at hab hba
  omega

theorem pairwise_lastUse_used {notices : List Notice} {keys : List Key}
    (h : keys.Pairwise fun a b => lastUse notices a < lastUse notices b) (key : Key) :
    (keys.filter (fun k => decide (k ≠ key)) ++ [key]).Pairwise fun a b =>
      lastUse (notices ++ [.used key]) a < lastUse (notices ++ [.used key]) b := by
  refine pairwise_moved h ?_ ?_
  · intro a b hne hlt
    have hle := lastUse_le notices a
    have ha : Notice.used key ≠ .used a := fun heq => hne (Notice.used.inj heq).symm
    rw [lastUse_append, lastUse_append, if_neg ha]
    split <;> omega
  · intro a hne
    have hle := lastUse_le notices a
    have ha : Notice.used key ≠ .used a := fun heq => hne (Notice.used.inj heq).symm
    rw [lastUse_append, lastUse_append, if_neg ha, if_pos rfl]
    omega

theorem pairwise_lastUse_removed {notices : List Notice} {keys : List Key}
    (h : keys.Pairwise fun a b => lastUse notices a < lastUse notices b) (key : Key) :
    (keys.filter fun k => decide (k ≠ key)).Pairwise fun a b =>
      lastUse (notices ++ [.removed key]) a < lastUse (notices ++ [.removed key]) b := by
  refine (h.filter _).imp ?_
  intro a b hlt
  simpa [lastUse_append] using hlt

theorem usesSince_used_pos {notices : List Notice} {key k : Key} :
    0 < usesSince (notices ++ [.used key]) k ↔ k = key ∨ 0 < usesSince notices k := by
  rw [usesSince_append, Notice.tally]
  by_cases hkey : key = k
  · simp [hkey]
  · simp [hkey, Ne.symm hkey]

theorem usesSince_removed_pos {notices : List Notice} {key k : Key} :
    0 < usesSince (notices ++ [.removed key]) k ↔ k ≠ key ∧ 0 < usesSince notices k := by
  rw [usesSince_append, Notice.tally]
  by_cases hkey : key = k
  · simp [hkey]
  · simp [hkey, Ne.symm hkey]

namespace Frequency

def hear (f : Frequency) : Notice -> Frequency
  | .used key => f.used key
  | .removed key => f.remove key

@[simp] theorem hear_capacity (f : Frequency) (notice : Notice) :
    (f.hear notice).capacity = f.capacity := by
  cases notice with
  | used key => exact Ranking.capacity_used (.frequency f) key
  | removed key => exact Ranking.capacity_remove (.frequency f) key

theorem standings_detach (f : Frequency) (standing : Standing) :
    (f.detach standing).2.standings = f.standings := by
  unfold detach
  split <;> rfl

theorem count_used (f : Frequency) (key k : Key) :
    (f.used key).count k = if key = k then f.count k + 1 else f.count k := by
  have hstandings : ∃ slot, (f.used key).standings =
      f.standings.insert key { frequency := f.count key + 1, slot := slot } := by
    simp only [Frequency.used, count]
    cases f.standings.get? key with
    | none => exact ⟨_, rfl⟩
    | some standing =>
      rw [← f.standings_detach standing]
      exact ⟨_, rfl⟩
  obtain ⟨slot, hslot⟩ := hstandings
  rw [count, hslot, Table.get?_insert]
  by_cases hkey : key = k
  · simp [hkey]
  · rw [if_neg (Ne.symm hkey), if_neg hkey, count]

theorem count_remove (f : Frequency) (key k : Key) :
    (f.remove key).count k = if key = k then 0 else f.count k := by
  cases hnone : f.standings.get? key with
  | none =>
    simp only [Frequency.remove, hnone]
    by_cases hkey : key = k
    · simp [← hkey, count, hnone]
    · rw [if_neg hkey]
  | some standing =>
    simp only [Frequency.remove, hnone, count, standings_detach, Table.get?_erase]
    by_cases hkey : key = k
    · simp [hkey]
    · rw [if_neg (Ne.symm hkey), if_neg hkey]

/-- A ranking tracks the keys that were used since their last removal, has each in the bucket of its
uses, and keeps each bucket in the order of the last uses. -/
structure Reflects (notices : List Notice) (f : Frequency) : Prop where
  sound : f.Sound
  mem_worst : ∀ key, key ∈ f.worst ↔ 0 < usesSince notices key
  count_eq : ∀ key, f.count key = usesSince notices key
  ordered : ∀ frequency, (f.bucketKeys frequency).Pairwise fun a b =>
    lastUse notices a < lastUse notices b

namespace Reflects

variable {notices : List Notice} {f : Frequency}

theorem fresh (capacity : Nat) : (Frequency.fresh capacity).Reflects [] where
  sound := sound_fresh capacity
  mem_worst key := by rw [(sound_fresh capacity).mem_worst]; simp [usesSince, Frequency.fresh]
  count_eq key := by simp [count, usesSince, Frequency.fresh]
  ordered frequency := by simp [bucketKeys, bucketItems, Frequency.fresh]

theorem used (h : f.Reflects notices) (key : Key) :
    (f.used key).Reflects (notices ++ [.used key]) where
  sound := (h.sound.used key).1
  mem_worst k := by rw [(h.sound.used key).2, h.mem_worst, usesSince_used_pos]
  count_eq k := by
    rw [count_used, h.count_eq, usesSince_append, Notice.tally]
  ordered frequency := by
    rw [h.sound.bucketKeys_used]
    refine (pairwise_lastUse_used (h.ordered frequency) key).sublist
      (List.Sublist.append_left ?_ _)
    split
    · exact List.Sublist.refl _
    · exact List.nil_sublist _

theorem remove (h : f.Reflects notices) (key : Key) :
    (f.remove key).Reflects (notices ++ [.removed key]) where
  sound := (h.sound.remove key).1
  mem_worst k := by rw [(h.sound.remove key).2, h.mem_worst, usesSince_removed_pos]
  count_eq k := by
    rw [count_remove, h.count_eq, usesSince_append, Notice.tally]
  ordered frequency := by
    rw [h.sound.bucketKeys_remove]
    exact pairwise_lastUse_removed (h.ordered frequency) key

theorem pairwise_worst (h : f.Reflects notices) :
    f.worst.Pairwise fun a b => usesSince notices a < usesSince notices b ∨
      usesSince notices a = usesSince notices b ∧ lastUse notices a < lastUse notices b := by
  have hcount : ∀ {frequency key}, key ∈ f.bucketKeys frequency →
      usesSince notices key = frequency := by
    intro frequency key hkey
    rw [← h.count_eq, h.sound.count_of_mem hkey]
  refine h.sound.pairwise_worst (fun frequency => ?_) fun lower upper hlt a ha b hb => ?_
  · refine (h.ordered frequency).imp_of_mem fun ha hb hlast => Or.inr ⟨?_, hlast⟩
    rw [hcount ha, hcount hb]
  · refine Or.inl ?_
    rwa [hcount ha, hcount hb]

theorem worst_eq (h : f.Reflects notices) : f.worst = byFrequency notices := by
  refine eq_byFrequency h.sound.nodup_worst h.mem_worst (h.pairwise_worst.imp fun hbefore => ?_)
  exact hbefore.imp id fun hequal => ⟨hequal.1, Nat.le_of_lt hequal.2⟩

end Reflects

theorem Reflects.hear {notices : List Notice} {f : Frequency} (h : f.Reflects notices)
    (notice : Notice) : (f.hear notice).Reflects (notices ++ [notice]) := by
  cases notice with
  | used key => exact h.used key
  | removed key => exact h.remove key

theorem reflects_foldl {earlier : List Notice} {f : Frequency} (h : f.Reflects earlier)
    (notices : List Notice) : (notices.foldl Frequency.hear f).Reflects (earlier ++ notices) :=
  foldl_induction (fun notice h => h.hear notice) h notices

theorem foldl_hear_capacity (f : Frequency) (notices : List Notice) :
    (notices.foldl Frequency.hear f).capacity = f.capacity := by
  induction notices generalizing f with
  | nil => rfl
  | cons notice notices ih => rw [List.foldl_cons, ih, hear_capacity]

theorem meets_walker {f : Frequency} {cursor : Cursor} {keys : List Key}
    (h : Meets f.next cursor keys) : Meets Ranking.Walker.next (.frequency f cursor) keys := by
  have hnext : ∀ cursor, Ranking.Walker.next (.frequency f cursor) =
      ((f.next cursor).1.map id, .frequency f (f.next cursor).2) := by
    intro cursor
    simp [Ranking.Walker.next]
  have hmeets := h.map (Ranking.Walker.frequency f) id hnext
  rwa [List.map_id] at hmeets

/-- A ranking by frequency lists what it was told about as sorting would: every key used since its
last removal once, by the number of these uses and then by the last one.  A walk through it answers
these keys and then nothing ever after, however far it is followed.  There is such a ranking for
every capacity but zero and those above the greatest one. -/
theorem ranks_by_frequency {capacity : Nat} (hcapacity : 0 < capacity) (notices : List Notice) :
    (Room.mostKeys < capacity ∧ ∃ panic, ofCapacity capacity = .error panic) ∨
    ∃ first f, ofCapacity capacity = .ok first ∧ notices.foldl hear first = f ∧
      f.worst.Nodup ∧ (∀ key, key ∈ f.worst ↔ 0 < usesSince notices key) ∧
      (f.worst.Pairwise fun a b => usesSince notices a < usesSince notices b ∨
        usesSince notices a = usesSince notices b ∧ lastUse notices a < lastUse notices b) ∧
      f.worst = byFrequency notices ∧
      f.size = (trackedKeys notices).length ∧
      f.excess = (trackedKeys notices).length - capacity ∧
      (∀ steps, responses f.next steps f.start =
        ((byFrequency notices).map some ++ List.replicate steps none).take steps) ∧
      ∀ count, (Ranking.frequency f).take count = (byFrequency notices).take count := by
  rw [ofCapacity_eq]
  rcases Nat.lt_or_ge Room.mostKeys capacity with hlarge | hroom
  · exact .inl ⟨hlarge, Policy.makes_of_lt .frequency _ hlarge⟩
  right
  have hfirst := Policy.makes_of_le .frequency (fresh capacity) hcapacity hroom
  have h := reflects_foldl (.fresh capacity) notices
  rw [List.nil_append] at h
  have hsize := h.sound.size_eq
  have hmeets := h.sound.meets_worst
  rw [h.worst_eq, byFrequency, List.length_insertionSort] at hsize
  rw [h.worst_eq] at hmeets
  refine ⟨_, _, hfirst, rfl, h.sound.nodup_worst, h.mem_worst, h.pairwise_worst, h.worst_eq, hsize,
    ?_, hmeets.responses_eq, (meets_walker hmeets).walk_eq_take⟩
  rw [excess, hsize, foldl_hear_capacity, fresh]

/-- Of three keys, one was used twice and comes last; one was removed in between, so only its second
use counts. -/
theorem ranks_by_frequency_reused :
    let notices := [Notice.used "a", .used "b", .used "b", .removed "a", .used "c", .used "a"]
    0 < 1 ∧ ∃ first f, ofCapacity 1 = .ok first ∧ notices.foldl hear first = f ∧
      f.worst = ["c", "a", "b"] ∧ f.size = 3 ∧ f.excess = 2 ∧
      responses f.next 5 f.start = [some "c", some "a", some "b", none, none] := by
  intro notices
  have hsorted : byFrequency notices = ["c", "a", "b"] := by decide +kernel
  have htracked : (trackedKeys notices).length = 3 := by decide +kernel
  obtain ⟨first, f, hfirst, hnotices, -, -, -, hworst, hsize, hexcess, hanswers, -⟩ :=
    (ranks_by_frequency (show 0 < 1 by decide) notices).resolve_left fun h => absurd h.1 (by decide)
  rw [hsorted] at hworst hanswers
  rw [htracked] at hsize hexcess
  exact ⟨by decide, first, f, hfirst, hnotices, hworst, hsize, hexcess, hanswers 5⟩

end Frequency

end TtlCache
