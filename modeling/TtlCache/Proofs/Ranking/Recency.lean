import TtlCache.Proofs.Chain.Walks
import TtlCache.Proofs.Ranking.Room

/-!
# The order of uses

A ranking by recency keeps its keys in a chain and the slot of every key in a table.  The two say
the same: a key has a position exactly if the node in that slot holds the key.  It follows that
the ranking lists every tracked key once, that a use moves its key to the end, and that forgetting
a key takes it out and leaves the others in their order.
-/

namespace TtlCache

theorem nodup_map_snd {α : Type} {items : List (Nat × α)} (h : (items.map Prod.fst).Nodup)
    (hslot : ∀ {a b key}, (a, key) ∈ items → (b, key) ∈ items → a = b) :
    (items.map Prod.snd).Nodup := by
  rw [List.Nodup, List.pairwise_map] at h ⊢
  refine h.imp_of_mem ?_
  intro a b ha hb hne heq
  exact hne (hslot ha (heq ▸ hb))

theorem filter_ne_of_notMem {α : Type} [DecidableEq α] {keys : List α} {key : α} (h : key ∉ keys) :
    keys.filter (fun k => decide (k ≠ key)) = keys := by
  rw [List.filter_eq_self]
  intro k hk
  exact decide_eq_true fun heq => h (heq ▸ hk)

theorem filter_ne_split {α : Type} [DecidableEq α] {before after : List α} {key : α}
    (h : (before ++ key :: after).Nodup) :
    (before ++ key :: after).filter (fun k => decide (k ≠ key)) = before ++ after := by
  rw [List.nodup_append, List.nodup_cons] at h
  obtain ⟨-, ⟨hafter, -⟩, hbefore⟩ := h
  have hleft : key ∉ before := fun hmem => hbefore key hmem key List.mem_cons_self rfl
  rw [List.filter_append, filter_ne_of_notMem hleft, List.filter_cons_of_neg (by simp),
    filter_ne_of_notMem hafter]

namespace Recency

/-- The chain and the table of positions say the same. -/
structure Sound (r : Recency) : Prop where
  order : r.order.Holds r.order.items
  position : ∀ {key slot}, r.positions.get? key = some slot ↔ (slot, key) ∈ r.order.items

theorem items_fresh (capacity : Nat) : (fresh capacity).order.items = [] := rfl

theorem sound_fresh (capacity : Nat) : (fresh capacity).Sound := by
  refine ⟨Chain.Holds.empty, ?_⟩
  intro key slot
  rw [items_fresh]
  simp [fresh]

namespace Sound

variable {r : Recency}

theorem meets_items (h : r.Sound) : Meets r.next r.start (r.order.items.map Prod.snd) := by
  have hnext : ∀ cursor, r.next cursor =
      ((r.order.forward cursor).1.map Prod.snd, (r.order.forward cursor).2) := by
    intro cursor
    cases cursor with
    | none => rfl
    | some slot => cases hget : r.order.get? slot <;> simp [next, Chain.forward, hget]
  exact h.order.meets_forward.map id Prod.snd hnext

/-- The ranking lists the keys of the chain. -/
theorem worst_eq (h : r.Sound) : r.worst = r.order.items.map Prod.snd :=
  h.meets_items.walk_eq (by rw [List.length_map]; exact h.order.length_le)

theorem nodup_worst (h : r.Sound) : r.worst.Nodup := by
  rw [h.worst_eq]
  refine nodup_map_snd h.order.distinct ?_
  intro a b key ha hb
  have hpositions := (h.position.mpr ha).symm.trans (h.position.mpr hb)
  exact Option.some.inj hpositions

theorem mem_worst (h : r.Sound) {key : Key} : key ∈ r.worst ↔ key ∈ r.positions.keys := by
  rw [h.worst_eq, List.mem_map, Table.mem_keys_iff, Option.isSome_iff_exists]
  constructor
  · rintro ⟨⟨slot, _⟩, hmem, rfl⟩
    exact ⟨slot, h.position.mpr hmem⟩
  · rintro ⟨slot, hslot⟩
    exact ⟨(slot, key), h.position.mp hslot, rfl⟩

/-- A use makes its key the last one. -/
theorem used (h : r.Sound) (key : Key) :
    (r.used key).Sound ∧
      (r.used key).worst = r.worst.filter (fun k => decide (k ≠ key)) ++ [key] := by
  cases hkey : r.positions.get? key with
  | none =>
    obtain ⟨hslot, hpushed⟩ := h.order.push key
    have hitems := hpushed.items_eq
    have hsound : (r.used key).Sound := by
      simp only [Recency.used, hkey]
      refine ⟨by rw [hitems]; exact hpushed, ?_⟩
      intro other slot
      rw [hitems, Table.get?_insert, List.mem_append, List.mem_singleton, Prod.mk.injEq]
      by_cases heq : other = key
      · have hnone : ∀ slot, (slot, key) ∉ r.order.items := by
          intro slot hmem
          rw [h.position.mpr hmem] at hkey
          cases hkey
        subst heq
        simp [hnone, eq_comm]
      · simp [heq, h.position]
    refine ⟨hsound, ?_⟩
    have hnew : key ∉ r.worst := by
      rw [h.mem_worst, Table.mem_keys_iff, hkey]
      exact Bool.false_ne_true
    rw [hsound.worst_eq, filter_ne_of_notMem hnew, h.worst_eq]
    simp [Recency.used, hkey, hitems]
  | some slot =>
    obtain ⟨before, after, horder⟩ := List.append_of_mem (h.position.mp hkey)
    have hwhole := h.order
    rw [horder] at hwhole
    obtain ⟨-, hmoved⟩ := hwhole.moveToBack
    have hitems := hmoved.items_eq
    have hsound : (r.used key).Sound := by
      simp only [Recency.used, hkey]
      refine ⟨by rw [hitems]; exact hmoved, ?_⟩
      intro other place
      rw [hitems, h.position, horder]
      simp only [List.mem_append, List.mem_cons, List.not_mem_nil, or_false]
      constructor
      · rintro (hbefore | hself | hafter)
        · exact Or.inl (Or.inl hbefore)
        · exact Or.inr hself
        · exact Or.inl (Or.inr hafter)
      · rintro ((hbefore | hafter) | hself)
        · exact Or.inl hbefore
        · exact Or.inr (Or.inr hafter)
        · exact Or.inr (Or.inl hself)
    refine ⟨hsound, ?_⟩
    have hnodup := h.nodup_worst
    rw [h.worst_eq, horder, List.map_append, List.map_cons] at hnodup
    rw [hsound.worst_eq, h.worst_eq, horder, List.map_append, List.map_cons,
      filter_ne_split hnodup]
    simp [Recency.used, hkey, hitems]

theorem mem_worst_used (h : r.Sound) {key k : Key} :
    k ∈ (r.used key).worst ↔ k = key ∨ k ∈ r.worst := by
  rw [(h.used key).2]
  by_cases hk : k = key
  · simp [hk]
  · simp [hk]

theorem remove (h : r.Sound) (key : Key) :
    (r.remove key).Sound ∧
      (r.remove key).worst = r.worst.filter fun k => decide (k ≠ key) := by
  cases hkey : r.positions.get? key with
  | none =>
    have hsame : r.remove key = r := by simp [Recency.remove, hkey]
    have hnew : key ∉ r.worst := by
      rw [h.mem_worst, Table.mem_keys_iff, hkey]
      exact Bool.false_ne_true
    rw [hsame, filter_ne_of_notMem hnew]
    exact ⟨h, rfl⟩
  | some slot =>
    obtain ⟨before, after, horder⟩ := List.append_of_mem (h.position.mp hkey)
    have hnodup := h.nodup_worst
    rw [h.worst_eq, horder, List.map_append, List.map_cons] at hnodup
    have hwhole := h.order
    rw [horder] at hwhole
    obtain ⟨-, hremoved⟩ := hwhole.remove
    have hitems := hremoved.items_eq
    have hsound : (r.remove key).Sound := by
      simp only [Recency.remove, hkey]
      refine ⟨by rw [hitems]; exact hremoved, ?_⟩
      intro other place
      rw [hitems, Table.get?_erase]
      by_cases heq : other = key
      · rw [if_pos heq]
        have habsent : (place, other) ∉ before ++ after := by
          intro hmem
          have hkept : other ∈ (before ++ after).map Prod.snd := List.mem_map_of_mem hmem
          rw [List.map_append, ← filter_ne_split hnodup, List.mem_filter] at hkept
          exact of_decide_eq_true hkept.2 heq
        simp [habsent]
      · rw [if_neg heq, h.position, horder]
        simp [heq]
    refine ⟨hsound, ?_⟩
    rw [hsound.worst_eq, h.worst_eq, horder, List.map_append, List.map_cons,
      filter_ne_split hnodup]
    simp [Recency.remove, hkey, hitems]

end Sound

end Recency

end TtlCache
