import TtlCache.Proofs.Ranking.Notices

/-!
# Last uses

A ranking by recency has no more to go by than one that counts uses: it is told of uses and
removals.  What it lists are the keys that were used since their last removal, those whose last use
is longest ago first.  The slots in which the keys stand are handed out again and again, but no walk
can tell.
-/

namespace TtlCache

def UsedNoLater (notices : List Notice) (a b : Key) : Prop :=
  lastUse notices a ≤ lastUse notices b

instance (notices : List Notice) : DecidableRel (UsedNoLater notices) := fun _ _ =>
  inferInstanceAs (Decidable (_ ≤ _))

instance (notices : List Notice) : IsTrans Key (UsedNoLater notices) where
  trans _ _ _ := Nat.le_trans

instance (notices : List Notice) : Std.Total (UsedNoLater notices) where
  total _ _ := Nat.le_total _ _

/-- The tracked keys in the order of their last uses, by sorting. -/
def byRecency (notices : List Notice) : List Key :=
  (trackedKeys notices).insertionSort (UsedNoLater notices)

namespace Recency

def hear (r : Recency) : Notice -> Recency
  | .used key => r.used key
  | .removed key => r.remove key

/-- A ranking tracks the keys that were used since their last removal, in the order of their last
uses, and means to keep as many as it was made for. -/
structure Reflects (capacity : Nat) (notices : List Notice) (r : Recency) : Prop where
  sound : r.Sound
  capacity_eq : r.capacity = capacity
  mem_worst : ∀ key, key ∈ r.worst ↔ 0 < usesSince notices key
  ordered : r.worst.Pairwise fun a b => lastUse notices a < lastUse notices b

namespace Reflects

variable {capacity : Nat} {notices : List Notice} {r : Recency}

theorem fresh (capacity : Nat) : (Recency.fresh capacity).Reflects capacity [] := by
  have hworst : (Recency.fresh capacity).worst = [] := by
    rw [(sound_fresh capacity).worst_eq, items_fresh, List.map_nil]
  exact ⟨sound_fresh capacity, rfl, fun key => by simp [hworst, usesSince],
    by rw [hworst]; exact .nil⟩

theorem used (h : r.Reflects capacity notices) (key : Key) :
    (r.used key).Reflects capacity (notices ++ [.used key]) where
  sound := (h.sound.used key).1
  capacity_eq := (Ranking.capacity_used (.recency r) key).trans h.capacity_eq
  mem_worst k := by rw [h.sound.mem_worst_used, h.mem_worst, usesSince_used_pos]
  ordered := by
    rw [(h.sound.used key).2]
    exact pairwise_lastUse_used h.ordered key

theorem remove (h : r.Reflects capacity notices) (key : Key) :
    (r.remove key).Reflects capacity (notices ++ [.removed key]) where
  sound := (h.sound.remove key).1
  capacity_eq := (Ranking.capacity_remove (.recency r) key).trans h.capacity_eq
  mem_worst k := by
    rw [(h.sound.remove key).2, List.mem_filter, decide_eq_true_eq, h.mem_worst,
      usesSince_removed_pos, and_comm]
  ordered := by
    rw [(h.sound.remove key).2]
    exact pairwise_lastUse_removed h.ordered key

theorem hear (h : r.Reflects capacity notices) (notice : Notice) :
    (r.hear notice).Reflects capacity (notices ++ [notice]) := by
  cases notice with
  | used key => exact h.used key
  | removed key => exact h.remove key

theorem worst_eq (h : r.Reflects capacity notices) : r.worst = byRecency notices :=
  eq_insertionSort h.sound.nodup_worst h.mem_worst (h.ordered.imp Nat.le_of_lt)
    fun _ _ => Nat.le_antisymm

end Reflects

theorem meets_worst {r : Recency} (h : r.Sound) : Meets r.next r.start r.worst := by
  rw [h.worst_eq]
  exact h.meets_items

theorem meets_walker {r : Recency} {cursor : Option Nat} {keys : List Key}
    (h : Meets r.next cursor keys) : Meets Ranking.Walker.next (.recency r cursor) keys := by
  have hnext : ∀ cursor, Ranking.Walker.next (.recency r cursor) =
      ((r.next cursor).1.map id, .recency r (r.next cursor).2) := by
    intro cursor
    simp [Ranking.Walker.next]
  have hmeets := h.map (Ranking.Walker.recency r) id hnext
  rwa [List.map_id] at hmeets

/-- A ranking by recency lists what it was told about as sorting would: every key used since its
last removal once, by the place of the last use.  A walk through it answers these keys and then
nothing ever after, however far it is followed.  There is such a ranking for every capacity but zero
and those above the greatest one. -/
theorem ranks_by_recency {capacity : Nat} (hcapacity : 0 < capacity) (notices : List Notice) :
    (Room.mostKeys < capacity ∧ ∃ panic, ofCapacity capacity = .error panic) ∨
    ∃ first r, ofCapacity capacity = .ok first ∧ notices.foldl hear first = r ∧
      r.worst.Nodup ∧ (∀ key, key ∈ r.worst ↔ 0 < usesSince notices key) ∧
      (r.worst.Pairwise fun a b => lastUse notices a < lastUse notices b) ∧
      r.worst = byRecency notices ∧
      r.size = (trackedKeys notices).length ∧
      r.excess = (trackedKeys notices).length - capacity ∧
      (∀ steps, responses r.next steps r.start =
        ((byRecency notices).map some ++ List.replicate steps none).take steps) ∧
      ∀ count, (Ranking.recency r).take count = (byRecency notices).take count := by
  rw [ofCapacity_eq]
  rcases Nat.lt_or_ge Room.mostKeys capacity with hlarge | hroom
  · exact .inl ⟨hlarge, Policy.makes_of_lt .recency _ hlarge⟩
  right
  have hfirst := Policy.makes_of_le .recency (fresh capacity) hcapacity hroom
  have h : Reflects capacity ([] ++ notices) (notices.foldl hear _) :=
    foldl_induction (fun notice h => h.hear notice) (.fresh capacity) notices
  rw [List.nil_append] at h
  have hsize := h.sound.size_eq
  have hmeets := meets_worst h.sound
  rw [h.worst_eq, byRecency, List.length_insertionSort] at hsize
  rw [h.worst_eq] at hmeets
  refine ⟨_, _, hfirst, rfl, h.sound.nodup_worst, h.mem_worst, h.ordered, h.worst_eq, hsize, ?_,
    hmeets.responses_eq, (meets_walker hmeets).walk_eq_take⟩
  rw [excess, hsize, h.capacity_eq]

/-- Of three keys, the one used first is used again and comes last; one was removed in between and
its slot handed out to another key, so only its second use counts. -/
theorem ranks_by_recency_reused :
    let notices := [Notice.used "a", .used "b", .removed "b", .used "c", .used "a", .used "b"]
    0 < 1 ∧ ∃ first r, ofCapacity 1 = .ok first ∧ notices.foldl hear first = r ∧
      r.worst = ["c", "a", "b"] ∧ r.size = 3 ∧ r.excess = 2 ∧
      responses r.next 5 r.start = [some "c", some "a", some "b", none, none] := by
  intro notices
  have hsorted : byRecency notices = ["c", "a", "b"] := by decide +kernel
  have htracked : (trackedKeys notices).length = 3 := by decide +kernel
  obtain ⟨first, r, hfirst, hnotices, -, -, -, hworst, hsize, hexcess, hanswers, -⟩ :=
    (ranks_by_recency (show 0 < 1 by decide) notices).resolve_left fun h => absurd h.1 (by decide)
  rw [hsorted] at hworst hanswers
  rw [htracked] at hsize hexcess
  exact ⟨by decide, first, r, hfirst, hnotices, hworst, hsize, hexcess, hanswers 5⟩

end Recency

end TtlCache
