import TtlCache.Evictor
import TtlCache.Proofs.Ranking.Frequency
import TtlCache.Proofs.Ranking.Recency

/-!
# Tracked keys

Whatever the policy, a ranking lists every tracked key once; a use tracks its key, forgetting a key
takes it out, and neither touches another key.  The same is said here of both policies, and of the
evictors that are made from them.
-/

namespace TtlCache

namespace Ranking

def Sound : Ranking -> Prop
  | .recency keys => keys.Sound
  | .frequency keys => keys.Sound

theorem sound_fresh (capacity : Nat) (policy : Policy) :
    (fresh capacity policy).Sound ∧ (fresh capacity policy).worst = [] := by
  cases policy with
  | recency =>
    have hsound := Recency.sound_fresh capacity
    exact ⟨hsound, by rw [fresh, worst, hsound.worst_eq, Recency.items_fresh, List.map_nil]⟩
  | frequency => exact ⟨Frequency.sound_fresh capacity, rfl⟩

namespace Sound

variable {r : Ranking}

theorem nodup_worst (h : r.Sound) : r.worst.Nodup := by
  cases r with
  | recency keys => exact Recency.Sound.nodup_worst h
  | frequency keys => exact Frequency.Sound.nodup_worst h

theorem used (h : r.Sound) (key : Key) :
    (r.used key).Sound ∧ ∀ k, k ∈ (r.used key).worst ↔ k = key ∨ k ∈ r.worst := by
  cases r with
  | recency keys => exact ⟨(Recency.Sound.used h key).1, fun _ => Recency.Sound.mem_worst_used h⟩
  | frequency keys => exact Frequency.Sound.used h key

theorem remove (h : r.Sound) (key : Key) :
    (r.remove key).Sound ∧ ∀ k, k ∈ (r.remove key).worst ↔ k ≠ key ∧ k ∈ r.worst := by
  cases r with
  | recency keys =>
    obtain ⟨hsound, hworst⟩ := Recency.Sound.remove h key
    refine ⟨hsound, fun k => ?_⟩
    change k ∈ (keys.remove key).worst ↔ k ≠ key ∧ k ∈ keys.worst
    rw [hworst, List.mem_filter, decide_eq_true_eq, and_comm]
  | frequency keys => exact Frequency.Sound.remove h key

theorem preload (h : r.Sound) (keys : List Key) :
    (keys.foldl Ranking.used r).Sound ∧
      ∀ k, k ∈ (keys.foldl Ranking.used r).worst ↔ k ∈ keys ∨ k ∈ r.worst := by
  induction keys generalizing r with
  | nil => exact ⟨h, by simp⟩
  | cons key keys ih =>
    obtain ⟨hused, hworst⟩ := h.used key
    obtain ⟨hrest, hmem⟩ := ih hused
    refine ⟨hrest, fun k => ?_⟩
    rw [List.foldl_cons, hmem, hworst, List.mem_cons]
    constructor
    · rintro (hkeys | rfl | hworst)
      · exact Or.inl (Or.inr hkeys)
      · exact Or.inl (Or.inl rfl)
      · exact Or.inr hworst
    · rintro ((rfl | hkeys) | hworst)
      · exact Or.inr (Or.inl rfl)
      · exact Or.inl hkeys
      · exact Or.inr (Or.inr hworst)

end Sound

end Ranking

namespace Evictor

theorem builtIn_spec {policy : Policy} {capacity : Nat} {evictor : Evictor}
    (h : builtIn policy capacity = .ok evictor) :
    evictor.ranking.Sound ∧ evictor.worst = [] ∧ evictor.custom = none := by
  rw [eq_of_builtIn h]
  exact ⟨(Ranking.sound_fresh capacity policy).1, (Ranking.sound_fresh capacity policy).2, rfl⟩

theorem made_spec {policy : Policy} {capacity : Nat} {preload : List Key} {rule : ExcessRule}
    {evictor : Evictor} (h : made policy capacity preload rule = .ok evictor) :
    evictor.ranking.Sound ∧ ∀ k, k ∈ evictor.worst ↔ k ∈ preload := by
  obtain ⟨hsound, hworst⟩ := Ranking.sound_fresh capacity policy
  obtain ⟨hpreloaded, hmem⟩ := hsound.preload preload
  rw [eq_of_made h]
  refine ⟨hpreloaded, fun k => ?_⟩
  rw [worst, hmem, hworst]
  simp

/-- An evictor is built in or made by the caller, who may use it before it is handed over. -/
inductive Origin : Evictor -> Prop where
  | builtIn {policy : Policy} {capacity : Nat} {evictor : Evictor}
      (built : builtIn policy capacity = .ok evictor) : Origin evictor
  | made {policy : Policy} {capacity : Nat} {preload : List Key} {rule : ExcessRule}
      {evictor : Evictor} (made : made policy capacity preload rule = .ok evictor) : Origin evictor
  | used {evictor : Evictor} (origin : Origin evictor) (key : Key) : Origin (evictor.used key)
  | remove {evictor : Evictor} (origin : Origin evictor) (key : Key) : Origin (evictor.remove key)

theorem Origin.sound {evictor : Evictor} (h : evictor.Origin) : evictor.ranking.Sound := by
  induction h with
  | builtIn built => exact (builtIn_spec built).1
  | made made => exact (made_spec made).1
  | used origin key ih => exact (ih.used key).1
  | remove origin key ih => exact (ih.remove key).1

end Evictor

end TtlCache
