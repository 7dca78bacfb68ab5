import TtlCache.Proofs.Ranking.Order

/-!
# Uses

The uses of a cache, one after another, say how its keys should be ranked: by recency, those come
first whose last use is longest ago; by frequency, those with the fewest uses since they entered the
store, and among them those whose last use is longest ago.  A ranking that is told of every use and
of every removal is in this order.
-/

namespace TtlCache

inductive Use where
  | found (key : Key)
  /-- A value is stored; `fresh` tells whether the key had no entry, live or expired. -/
  | stored (key : Key) (fresh : Bool)
  deriving DecidableEq, Repr

namespace Use

def key : Use -> Key
  | .found key | .stored key _ => key

def isFresh : Use -> Bool
  | .found _ => false
  | .stored _ fresh => fresh

def tally (key : Key) (count : Nat) (use : Use) : Nat :=
  if use.key = key then if use.isFresh then 1 else count + 1 else count

end Use

/-- The number of uses since the last use of a key. -/
def idleUses (uses : List Use) (key : Key) : Nat := (uses.reverse.map Use.key).idxOf key

/-- The number of uses of a key since it entered the store. -/
def usesOf (uses : List Use) (key : Key) : Nat := uses.foldl (Use.tally key) 0

def UsedBefore (uses : List Use) (a b : Key) : Prop := idleUses uses b < idleUses uses a

/-- Whether a key is worth less than another one, by the uses of both. -/
def Policy.Before (uses : List Use) (a b : Key) : Policy -> Prop
  | .recency => UsedBefore uses a b
  | .frequency =>
      usesOf uses a < usesOf uses b ∨ usesOf uses a = usesOf uses b ∧ UsedBefore uses a b

theorem idleUses_append (uses : List Use) (use : Use) (key : Key) :
    idleUses (uses ++ [use]) key = if use.key = key then 0 else idleUses uses key + 1 := by
  simp only [idleUses, List.reverse_append, List.reverse_cons, List.reverse_nil, List.nil_append,
    List.cons_append, List.map_cons, List.idxOf_cons]
  by_cases hkey : use.key = key
  · simp [hkey]
  · simp [hkey, beq_eq_false_iff_ne.mpr hkey]

theorem usesOf_append (uses : List Use) (use : Use) (key : Key) :
    usesOf (uses ++ [use]) key = use.tally key (usesOf uses key) := by
  simp [usesOf, List.foldl_append]

theorem UsedBefore.append {uses : List Use} {a b : Key} (h : UsedBefore uses a b) {use : Use}
    (ha : use.key ≠ a) : UsedBefore (uses ++ [use]) a b := by
  unfold UsedBefore at h ⊢
  rw [idleUses_append, idleUses_append, if_neg ha]
  split <;> omega

theorem usedBefore_append_self (uses : List Use) (use : Use) {a : Key} (ha : use.key ≠ a) :
    UsedBefore (uses ++ [use]) a use.key := by
  unfold UsedBefore
  rw [idleUses_append, idleUses_append, if_neg ha, if_pos rfl]
  exact Nat.succ_pos _

theorem pairwise_moved {before after : Key → Key → Prop} {keys : List Key}
    (h : keys.Pairwise before) {key : Key} (hothers : ∀ {a b}, a ≠ key → before a b → after a b)
    (hlast : ∀ {a}, a ≠ key → after a key) :
    (keys.filter (fun k => decide (k ≠ key)) ++ [key]).Pairwise after := by
  have hne : ∀ {k}, k ∈ keys.filter (fun k => decide (k ≠ key)) → k ≠ key := fun hk =>
    of_decide_eq_true (List.mem_filter.mp hk).2
  rw [List.pairwise_append]
  refine ⟨(h.filter _).imp_of_mem fun ha _ hbefore => hothers (hne ha) hbefore,
    List.pairwise_singleton _ _, fun a ha b hb => ?_⟩
  rw [List.mem_singleton.mp hb]
  exact hlast (hne ha)

theorem pairwise_used {uses : List Use} {keys : List Key} (h : keys.Pairwise (UsedBefore uses))
    (use : Use) :
    (keys.filter (fun k => decide (k ≠ use.key)) ++ [use.key]).Pairwise
      (UsedBefore (uses ++ [use])) :=
  pairwise_moved h (fun hne hbefore => hbefore.append (Ne.symm hne)) fun hne =>
    usedBefore_append_self uses use (Ne.symm hne)

namespace Ranking

/-- A ranking is in the order that the uses ask for. -/
def Follows (uses : List Use) : Ranking -> Prop
  | .recency r => r.worst.Pairwise (UsedBefore uses)
  | .frequency f => ∀ frequency, (f.bucketKeys frequency).Pairwise (UsedBefore uses) ∧
      ∀ key ∈ f.bucketKeys frequency, usesOf uses key = frequency

theorem policy_used (r : Ranking) (key : Key) : (r.used key).policy = r.policy := by
  cases r <;> rfl

theorem policy_remove (r : Ranking) (key : Key) : (r.remove key).policy = r.policy := by
  cases r <;> rfl

namespace Follows

variable {r : Ranking} {uses : List Use}

theorem of_worst_eq_nil (h : r.Sound) (hworst : r.worst = []) : r.Follows uses := by
  cases r with
  | recency r =>
    change r.worst.Pairwise _
    rw [show r.worst = [] from hworst]
    exact .nil
  | frequency f =>
    have hf : f.Sound := h
    intro frequency
    have hnil : f.bucketKeys frequency = [] := by
      by_contra hne
      obtain ⟨key, hkey⟩ := List.exists_mem_of_ne_nil _ hne
      have hmem : key ∈ f.worst := by
        rw [hf.worst_eq, List.mem_flatMap]
        exact ⟨frequency, hf.mem_levels.mpr hne, hkey⟩
      rw [show f.worst = [] from hworst] at hmem
      cases hmem
    rw [hnil]
    exact ⟨.nil, List.forall_mem_nil _⟩

/-- A ranking that is told of a use goes on to follow the uses. -/
theorem used (h : r.Follows uses) (hsound : r.Sound) {use : Use}
    (hfresh : use.isFresh = true ↔ use.key ∉ r.worst) :
    (r.used use.key).Follows (uses ++ [use]) := by
  cases r with
  | recency r =>
    change (r.used use.key).worst.Pairwise _
    rw [(Recency.Sound.used hsound use.key).2]
    exact pairwise_used h use
  | frequency f =>
    have hf : f.Sound := hsound
    have hcount : usesOf (uses ++ [use]) use.key = f.count use.key + 1 := by
      rw [usesOf_append, Use.tally, if_pos rfl]
      by_cases hkey : use.key ∈ f.worst
      · have hstale : use.isFresh = false := by
          rw [← Bool.not_eq_true, hfresh]
          exact fun hnot => hnot hkey
        rw [hf.worst_eq, List.mem_flatMap] at hkey
        obtain ⟨frequency, -, hmem⟩ := hkey
        rw [hstale, (h frequency).2 use.key hmem, hf.count_of_mem hmem]
        rfl
      · rw [hfresh.mpr hkey, hf.count_of_notMem hkey]
        rfl
    have hother : ∀ {key}, use.key ≠ key → usesOf (uses ++ [use]) key = usesOf uses key := by
      intro key hkey
      rw [usesOf_append, Use.tally, if_neg hkey]
    intro frequency
    rw [hf.bucketKeys_used]
    obtain ⟨hpairwise, hnumber⟩ := h frequency
    have hmoved := pairwise_used hpairwise use
    constructor
    · split
      · exact hmoved
      · rw [List.append_nil]
        exact hmoved.sublist (List.sublist_append_left _ _)
    · intro key hkey
      rcases List.mem_append.mp hkey with hold | hnew
      · obtain ⟨hmem, hne⟩ := List.mem_filter.mp hold
        rw [hother (Ne.symm (of_decide_eq_true hne)), hnumber key hmem]
      · split at hnew
        · next heq =>
          rw [List.mem_singleton.mp hnew, hcount, heq]
        · cases hnew

theorem remove (h : r.Follows uses) (hsound : r.Sound) (key : Key) :
    (r.remove key).Follows uses := by
  cases r with
  | recency r =>
    change (r.remove key).worst.Pairwise _
    rw [(Recency.Sound.remove hsound key).2]
    exact List.Pairwise.filter _ h
  | frequency f =>
    intro frequency
    change ((f.remove key).bucketKeys frequency).Pairwise _ ∧
      ∀ k ∈ (f.remove key).bucketKeys frequency, _
    rw [Frequency.Sound.bucketKeys_remove hsound]
    exact ⟨(h frequency).1.filter _, fun k hk => (h frequency).2 k (List.mem_of_mem_filter hk)⟩

theorem pairwise_worst (h : r.Follows uses) (hsound : r.Sound) :
    r.worst.Pairwise fun a b => r.policy.Before uses a b := by
  cases r with
  | recency r => exact h
  | frequency f =>
    refine Frequency.Sound.pairwise_worst hsound (fun frequency => ?_) ?_
    · obtain ⟨hpairwise, hnumber⟩ := h frequency
      refine hpairwise.imp_of_mem fun ha hb hbefore => Or.inr ⟨?_, hbefore⟩
      rw [hnumber _ ha, hnumber _ hb]
    · intro lower upper hlt a ha b hb
      refine Or.inl ?_
      rwa [(h lower).2 a ha, (h upper).2 b hb]

end Follows

end Ranking

end TtlCache
