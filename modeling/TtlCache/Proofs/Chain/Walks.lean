import Mathlib.Data.List.Induction
import TtlCache.Proofs.Chain.Sequence
import TtlCache.Proofs.Ranking.Walks

/-!
# Walks along a chain

Whoever follows the links of a chain from its front meets the pairs of its sequence, and whoever
follows them from its back meets the same pairs backwards.  Both stand at their end after as many
steps as the chain is long.  A slot that has no pair in the sequence leads nowhere.
-/

namespace TtlCache

namespace Chain

variable {α : Type}

def previous? (c : Chain α) (slot : Nat) : Option Nat := (c.node? slot).bind Node.previous

/-- The pair under a cursor, and the cursor on the slot that follows. -/
def forward (c : Chain α) : Option Nat → Option (Nat × α) × Option Nat
  | none => (none, none)
  | some slot => ((c.get? slot).map fun value => (slot, value), c.next? slot)

def backward (c : Chain α) : Option Nat → Option (Nat × α) × Option Nat
  | none => (none, none)
  | some slot => ((c.get? slot).map fun value => (slot, value), c.previous? slot)

namespace Linked

variable {c : Chain α} {order before after : List (Nat × α)} {item : Nat × α}

theorem around (h : c.Linked (before ++ item :: after)) :
    c.forward (some item.1) = (some item, firstSlot after) ∧
      c.backward (some item.1) = (some item, lastSlot before) := by
  have hnode := h.node rfl
  simp [forward, backward, get?, next?, previous?, hnode]

theorem walk_rest (h : c.Linked (before ++ after)) :
    walk c.forward after.length (firstSlot after) = (after, none) := by
  induction after generalizing before with
  | nil => rfl
  | cons item rest ih =>
    have hrest : c.Linked ((before ++ [item]) ++ rest) := by
      rw [List.append_assoc]
      exact h
    rw [List.length_cons, firstSlot_cons, walk, h.around.1]
    simp only [ih hrest]

theorem walk_reverse_rest (h : c.Linked (before ++ after)) :
    walk c.backward before.length (lastSlot before) = (before.reverse, none) := by
  induction before using List.reverseRecOn generalizing after with
  | nil => rfl
  | append_singleton rest item ih =>
    rw [List.append_assoc] at h
    rw [List.length_append, List.length_singleton, lastSlot_concat, walk, h.around.2,
      List.reverse_append]
    simp only [ih h]
    rfl

theorem walk_forward (h : c.Linked order) :
    walk c.forward order.length c.front = (order, none) := by
  have hwhole : c.Linked ([] ++ order) := h
  rw [h.front_eq]
  exact hwhole.walk_rest

theorem walk_backward (h : c.Linked order) :
    walk c.backward order.length c.back = (order.reverse, none) := by
  have hwhole : c.Linked (order ++ []) := (List.append_nil order).symm ▸ h
  rw [h.back_eq]
  exact hwhole.walk_reverse_rest

theorem meets_forward (h : c.Linked order) : Meets c.forward c.front order :=
  .of_walk h.walk_forward rfl rfl

end Linked

namespace Holds

variable {c : Chain α} {order : List (Nat × α)}

theorem get?_eq_some_iff (h : c.Holds order) {slot : Nat} {value : α} :
    c.get? slot = some value ↔ (slot, value) ∈ order := by
  constructor
  · intro hget
    obtain ⟨node, hnode, rfl⟩ := Option.map_eq_some_iff.mp hget
    obtain ⟨⟨_, value⟩, hitem, rfl⟩ := List.mem_map.mp (h.occupied hnode)
    obtain ⟨before, after, horder⟩ := List.append_of_mem hitem
    rw [h.node horder] at hnode
    cases hnode
    exact hitem
  · intro hitem
    obtain ⟨before, after, horder⟩ := List.append_of_mem hitem
    rw [get?, h.node horder]
    rfl

theorem next?_eq_some_iff (h : c.Holds order) {slot other : Nat} :
    c.next? slot = some other ↔
      ∃ before value beyond after, order = before ++ (slot, value) :: (other, beyond) :: after := by
  constructor
  · intro hnext
    obtain ⟨node, hnode, hother⟩ := Option.bind_eq_some_iff.mp hnext
    obtain ⟨⟨_, value⟩, hitem, rfl⟩ := List.mem_map.mp (h.occupied hnode)
    obtain ⟨before, after, horder⟩ := List.append_of_mem hitem
    rw [h.node horder] at hnode
    cases hnode
    cases after with
    | nil => cases hother
    | cons following after =>
      cases hother
      exact ⟨before, value, following.2, after, horder⟩
  · rintro ⟨before, value, beyond, after, horder⟩
    rw [next?, h.node horder]
    rfl

end Holds

end Chain

end TtlCache
