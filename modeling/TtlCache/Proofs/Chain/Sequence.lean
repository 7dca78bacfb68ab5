import TtlCache.Chain

/-!
# Chains as sequences

A chain stands for the sequence of the slots and values of its nodes from front to back.
`Chain.Linked` says that the links of the nodes spell out a sequence, and `Chain.Holds` that there
are no other nodes and that the vacant slots are known.  Appending, removing and moving a node do
to the chain what they do to its sequence.
-/

namespace TtlCache

namespace Chain

variable {α : Type}

/-! ## Single slots -/

theorem lt_size_of_node? {c : Chain α} {slot : Nat} {node : Node α} (h : c.node? slot = some node) :
    slot < c.slots.size := by
  rw [node?, Option.join_eq_some_iff] at h
  exact (Array.getElem?_eq_some_iff.mp h).1

theorem join_setIfInBounds {slots : Array (Option (Node α))} {slot : Nat} (h : slot < slots.size)
    (content : Option (Node α)) (other : Nat) :
    (slots.setIfInBounds slot content)[other]?.join =
      if other = slot then content else slots[other]?.join := by
  rw [Array.getElem?_setIfInBounds]
  by_cases heq : other = slot
  · rw [if_pos heq.symm, if_pos h, if_pos heq]
    rfl
  · rw [if_neg (Ne.symm heq), if_neg heq]

theorem node?_adjust (c : Chain α) (slot other : Nat) (change : Node α -> Node α) :
    (c.adjust slot change).node? other =
      if other = slot then (c.node? slot).map change else c.node? other := by
  cases h : c.node? slot with
  | none =>
    simp only [adjust, h]
    by_cases heq : other = slot
    · rw [if_pos heq, heq, h]
      rfl
    · rw [if_neg heq]
  | some node =>
    simp only [adjust, h]
    exact join_setIfInBounds (lt_size_of_node? h) _ _

theorem adjust_rest (c : Chain α) (slot : Nat) (change : Node α -> Node α) :
    (c.adjust slot change).front = c.front ∧ (c.adjust slot change).back = c.back ∧
      (c.adjust slot change).length = c.length ∧ (c.adjust slot change).free = c.free ∧
      (c.adjust slot change).slots.size = c.slots.size := by
  unfold adjust
  split <;> simp

theorem node?_linkAfter (c : Chain α) (slot next : Option Nat) (other : Nat) :
    (c.linkAfter slot next).node? other =
      if slot = some other then (c.node? other).map fun node => { node with next := next }
      else c.node? other := by
  cases slot with
  | none => simp [linkAfter, node?]
  | some slot =>
    rw [linkAfter, node?_adjust]
    by_cases heq : other = slot
    · simp [heq]
    · simp [heq, Ne.symm heq]

theorem node?_linkBefore (c : Chain α) (slot previous : Option Nat) (other : Nat) :
    (c.linkBefore slot previous).node? other =
      if slot = some other then (c.node? other).map fun node => { node with previous := previous }
      else c.node? other := by
  cases slot with
  | none => simp [linkBefore, node?]
  | some slot =>
    rw [linkBefore, node?_adjust]
    by_cases heq : other = slot
    · simp [heq]
    · simp [heq, Ne.symm heq]

theorem linkAfter_rest (c : Chain α) (slot next : Option Nat) :
    (c.linkAfter slot next).front = (if slot = none then next else c.front) ∧
      (c.linkAfter slot next).back = c.back ∧ (c.linkAfter slot next).length = c.length ∧
      (c.linkAfter slot next).free = c.free ∧
      (c.linkAfter slot next).slots.size = c.slots.size := by
  cases slot with
  | none => simp [linkAfter]
  | some slot => simpa [linkAfter] using c.adjust_rest slot _

theorem linkBefore_rest (c : Chain α) (slot previous : Option Nat) :
    (c.linkBefore slot previous).front = c.front ∧
      (c.linkBefore slot previous).back = (if slot = none then previous else c.back) ∧
      (c.linkBefore slot previous).length = c.length ∧
      (c.linkBefore slot previous).free = c.free ∧
      (c.linkBefore slot previous).slots.size = c.slots.size := by
  cases slot with
  | none => simp [linkBefore]
  | some slot => simpa [linkBefore] using c.adjust_rest slot _

theorem detach_rest (c : Chain α) (slot : Nat) :
    (c.detach slot).length = c.length ∧ (c.detach slot).free = c.free ∧
      (c.detach slot).slots.size = c.slots.size := by
  unfold detach
  split
  · exact ⟨rfl, rfl, rfl⟩
  · simp [linkBefore_rest, linkAfter_rest, adjust_rest]

theorem attachBack_rest (c : Chain α) (slot : Nat) :
    (c.attachBack slot).length = c.length ∧ (c.attachBack slot).free = c.free ∧
      (c.attachBack slot).slots.size = c.slots.size := by
  simp [attachBack, linkAfter_rest, adjust_rest]

theorem node?_attachBack (c : Chain α) (slot other : Nat) :
    (c.attachBack slot).node? other =
      if c.back = some other then
        ((if other = slot then
            (c.node? slot).map fun node => { node with previous := c.back, next := none }
          else c.node? other)).map fun node => { node with next := some slot }
      else if other = slot then
        (c.node? slot).map fun node => { node with previous := c.back, next := none }
      else c.node? other := by
  have hlink := node?_linkAfter
    (c.adjust slot fun node => { node with previous := c.back, next := none }) c.back (some slot)
    other
  rw [node?_adjust] at hlink
  exact hlink

theorem node?_detach {c : Chain α} {slot : Nat} {node : Node α} (h : c.node? slot = some node)
    (other : Nat) :
    (c.detach slot).node? other =
      let alone := if other = slot then some { node with previous := none, next := none }
        else c.node? other
      let linked := if node.previous = some other then
          alone.map fun neighbour => { neighbour with next := node.next } else alone
      if node.next = some other then
        linked.map fun neighbour => { neighbour with previous := node.previous }
      else linked := by
  simp only [detach, h, node?_linkBefore, node?_linkAfter, node?_adjust]
  rfl

/-! ## Linked nodes -/

/-- The slot in front of a sequence, and the one at its back. -/
def firstSlot (order : List (Nat × α)) : Option Nat := order.head?.map Prod.fst

@[inherit_doc firstSlot]
def lastSlot (order : List (Nat × α)) : Option Nat := order.getLast?.map Prod.fst

/-- The links of a chain spell out a sequence of slots and values. -/
structure Linked (c : Chain α) (order : List (Nat × α)) : Prop where
  node : ∀ {before slot value after}, order = before ++ (slot, value) :: after →
    c.node? slot =
      some { value := value, previous := lastSlot before, next := firstSlot after }
  distinct : (order.map Prod.fst).Nodup
  front_eq : c.front = firstSlot order
  back_eq : c.back = lastSlot order

theorem mem_of_firstSlot {order : List (Nat × α)} {slot : Nat} (h : firstSlot order = some slot) :
    slot ∈ order.map Prod.fst := by
  obtain ⟨item, hitem, rfl⟩ := Option.map_eq_some_iff.mp h
  exact List.mem_map_of_mem (List.mem_of_head? hitem)

theorem mem_of_lastSlot {order : List (Nat × α)} {slot : Nat} (h : lastSlot order = some slot) :
    slot ∈ order.map Prod.fst := by
  obtain ⟨item, hitem, rfl⟩ := Option.map_eq_some_iff.mp h
  exact List.mem_map_of_mem (List.mem_of_getLast? hitem)

@[simp] theorem firstSlot_nil : firstSlot ([] : List (Nat × α)) = none := rfl

@[simp] theorem firstSlot_cons (item : Nat × α) (rest : List (Nat × α)) :
    firstSlot (item :: rest) = some item.1 := rfl

@[simp] theorem lastSlot_concat (order : List (Nat × α)) (item : Nat × α) :
    lastSlot (order ++ [item]) = some item.1 := by
  simp [lastSlot]

@[simp] theorem lastSlot_cons_cons (first second : Nat × α) (rest : List (Nat × α)) :
    lastSlot (first :: second :: rest) = lastSlot (second :: rest) := rfl

theorem lastSlot_append_cons (before : List (Nat × α)) (item : Nat × α) (rest : List (Nat × α)) :
    lastSlot (before ++ item :: rest) = lastSlot (item :: rest) := by
  simp [lastSlot, List.getLast?_append, List.getLast?_cons]

theorem append_split {before after left right : List (Nat × α)} {item : Nat × α}
    (h : before ++ after = left ++ item :: right) :
    (∃ rest, before = left ++ item :: rest ∧ right = rest ++ after) ∨
      ∃ rest, left = before ++ rest ∧ after = rest ++ item :: right := by
  rcases List.append_eq_append_iff.mp h with ⟨rest, hleft, hafter⟩ | ⟨rest, hbefore, hright⟩
  · exact Or.inr ⟨rest, hleft, hafter⟩
  · cases rest with
    | nil => exact Or.inr ⟨[], by simpa using hbefore.symm, by simpa using hright.symm⟩
    | cons first rest =>
      rw [List.cons_append, List.cons.injEq] at hright
      obtain ⟨rfl, hright⟩ := hright
      exact Or.inl ⟨rest, hbefore, hright⟩

namespace Linked

variable {c : Chain α} {before after : List (Nat × α)} {slot : Nat} {value : α}

theorem apart (h : ((before ++ (slot, value) :: after).map Prod.fst).Nodup) :
    (before.map Prod.fst).Nodup ∧ (after.map Prod.fst).Nodup ∧ slot ∉ before.map Prod.fst ∧
      slot ∉ after.map Prod.fst ∧
      ∀ other ∈ before.map Prod.fst, other ∉ after.map Prod.fst := by
  rw [List.map_append, List.map_cons, List.nodup_append, List.nodup_cons] at h
  obtain ⟨hbefore, ⟨hslot, hafter⟩, hapart⟩ := h
  refine ⟨hbefore, hafter, ?_, hslot, ?_⟩
  · intro hmem
    exact hapart slot hmem slot List.mem_cons_self rfl
  · intro other hother hmem
    exact hapart other hother other (List.mem_cons_of_mem _ hmem) rfl

theorem detach (h : c.Linked (before ++ (slot, value) :: after)) :
    (c.detach slot).Linked (before ++ after) := by
  have hnode := h.node rfl
  obtain ⟨hbefore, hafter, hslotBefore, hslotAfter, hapart⟩ := apart h.distinct
  constructor
  case node =>
    intro left other content right horder
    rw [node?_detach hnode]
    rcases append_split horder with ⟨rest, rfl, rfl⟩ | ⟨rest, rfl, rfl⟩
    · -- the other node stands before the one taken out
      have hother : other ∈ (left ++ (other, content) :: rest).map Prod.fst := by simp
      have hne : other ≠ slot := fun heq => hslotBefore (heq ▸ hother)
      have hnext : firstSlot after ≠ some other := fun heq =>
        hapart other hother (mem_of_firstSlot heq)
      have hwas := h.node (List.append_assoc left ((other, content) :: rest) _)
      cases rest with
      | nil => simp [hne, hnext, hwas]
      | cons first rest =>
        have hprevious : lastSlot (left ++ (other, content) :: first :: rest) ≠ some other := by
          intro heq
          rw [List.append_cons, lastSlot_append_cons] at heq
          rw [List.map_append, List.nodup_append] at hbefore
          exact (List.nodup_cons.mp hbefore.2.1).1 (mem_of_lastSlot heq)
        simp [hne, hnext, hprevious, hwas]
    · -- the other node stands after the one taken out
      have hother : other ∈ (rest ++ (other, content) :: right).map Prod.fst := by simp
      have hne : other ≠ slot := fun heq => hslotAfter (heq ▸ hother)
      have hprevious : lastSlot before ≠ some other := fun heq =>
        hapart other (mem_of_lastSlot heq) hother
      have hwhole : before ++ (slot, value) :: (rest ++ (other, content) :: right) =
          (before ++ (slot, value) :: rest) ++ (other, content) :: right := by simp
      have hwas := h.node hwhole
      cases rest with
      | nil => simp [hne, hprevious, hwas]
      | cons first rest =>
        have hfirst : first.1 ≠ other := by
          rw [List.map_append, List.nodup_append] at hafter
          exact hafter.2.2 first.1 (by simp) other (by simp)
        simp [hne, hfirst, hprevious, hwas, lastSlot_append_cons]
  case distinct =>
    rw [List.map_append, List.nodup_append]
    refine ⟨hbefore, hafter, ?_⟩
    intro a ha b hb heq
    exact hapart a ha (heq ▸ hb)
  case front_eq =>
    simp only [Chain.detach, hnode, linkBefore_rest, linkAfter_rest, adjust_rest, h.front_eq]
    cases before <;> simp [firstSlot, lastSlot]
  case back_eq =>
    simp only [Chain.detach, hnode, linkBefore_rest, linkAfter_rest, adjust_rest, h.back_eq]
    cases after <;> simp [firstSlot, lastSlot]

theorem congr {d : Chain α} {order : List (Nat × α)} (h : c.Linked order)
    (hnode : ∀ other ∈ order.map Prod.fst, d.node? other = c.node? other)
    (hfront : d.front = c.front) (hback : d.back = c.back) : d.Linked order where
  node := by
    intro before slot value after horder
    rw [hnode slot (by simp [horder]), h.node horder]
  distinct := h.distinct
  front_eq := by rw [hfront, h.front_eq]
  back_eq := by rw [hback, h.back_eq]

theorem attachBack {order : List (Nat × α)} (h : c.Linked order) {node : Node α}
    (hnode : c.node? slot = some node) (hslot : slot ∉ order.map Prod.fst) :
    (c.attachBack slot).Linked (order ++ [(slot, node.value)]) := by
  have hback : c.back ≠ some slot := by
    rw [h.back_eq]
    exact fun heq => hslot (mem_of_lastSlot heq)
  constructor
  case node =>
    intro left other content right horder
    rw [node?_attachBack, h.back_eq]
    rcases append_split horder with ⟨rest, hrest, rfl⟩ | ⟨rest, hrest, hright⟩
    · have hother : other ≠ slot := by
        intro heq
        exact hslot (heq ▸ hrest ▸ by simp)
      have hwas := h.node hrest
      cases rest with
      | nil =>
        have hlast : lastSlot order = some other := by rw [hrest, lastSlot_concat]
        simp [hlast, hother, hwas]
      | cons first rest =>
        have hlast : lastSlot order ≠ some other := by
          intro heq
          have hdistinct := h.distinct
          rw [hrest, List.append_cons, lastSlot_append_cons] at heq
          rw [hrest, List.map_append, List.nodup_append] at hdistinct
          exact (List.nodup_cons.mp hdistinct.2.1).1 (mem_of_lastSlot heq)
        simp [hlast, hother, hwas]
    · cases rest with
      | nil =>
        rw [List.nil_append, List.cons.injEq, Prod.mk.injEq] at hright
        obtain ⟨⟨rfl, rfl⟩, rfl⟩ := hright
        rw [List.append_nil] at hrest
        have hlast : lastSlot order ≠ some slot := fun heq => hslot (mem_of_lastSlot heq)
        simp [hlast, hnode, hrest]
      | cons first rest => simp at hright
  case distinct =>
    rw [List.map_append, List.nodup_append]
    refine ⟨h.distinct, by simp, ?_⟩
    intro a ha b hb heq
    rw [List.map_singleton, List.mem_singleton] at hb
    rw [heq, hb] at ha
    exact hslot ha
  case front_eq =>
    simp only [Chain.attachBack, linkAfter_rest, adjust_rest, h.front_eq, h.back_eq]
    cases order with
    | nil => rfl
    | cons first rest => simp [firstSlot, lastSlot]
  case back_eq => exact (lastSlot_concat order (slot, node.value)).symm

end Linked

/-! ## Chains and their sequences -/

/-- A chain has the nodes of a sequence and no others, and knows its vacant slots. -/
structure Holds (c : Chain α) (order : List (Nat × α)) : Prop extends Linked c order where
  occupied : ∀ {slot node}, c.node? slot = some node → slot ∈ order.map Prod.fst
  length_eq : c.length = order.length
  free_distinct : c.free.Nodup
  vacant : ∀ {slot}, slot ∈ c.free ↔ slot < c.slots.size ∧ c.node? slot = none

theorem isSome_detach (c : Chain α) (slot other : Nat) :
    ((c.detach slot).node? other).isSome = (c.node? other).isSome := by
  cases h : c.node? slot with
  | none => simp [detach, h]
  | some node =>
    rw [node?_detach h]
    by_cases heq : other = slot
    · subst heq
      simp only [if_true]
      split <;> split <;> simp [h]
    · simp only [if_neg heq]
      split <;> split <;> simp

theorem isSome_attachBack (c : Chain α) (slot other : Nat) :
    ((c.attachBack slot).node? other).isSome = (c.node? other).isSome := by
  rw [node?_attachBack]
  by_cases heq : other = slot
  · subst heq
    simp only [if_true]
    split <;> simp
  · simp only [if_neg heq]
    split <;> simp

theorem eq_none_of_isSome {content other : Option (Node α)} (h : content.isSome = other.isSome) :
    content = none ↔ other = none := by
  rw [← Option.isNone_iff_eq_none, ← Option.isNone_iff_eq_none, ← Option.not_isSome,
    ← Option.not_isSome, h]

namespace Holds

variable {c : Chain α} {order before after : List (Nat × α)} {slot : Nat} {value : α}

theorem empty : (Chain.empty : Chain α).Holds [] where
  node := by simp
  distinct := List.nodup_nil
  front_eq := rfl
  back_eq := rfl
  occupied := by simp [Chain.empty, Chain.node?]
  length_eq := rfl
  free_distinct := List.nodup_nil
  vacant := by simp [Chain.empty]

theorem node?_eq_none_iff (h : c.Holds order) :
    c.node? slot = none ↔ slot ∉ order.map Prod.fst := by
  constructor
  · intro hnone hmem
    obtain ⟨item, hitem, rfl⟩ := List.mem_map.mp hmem
    obtain ⟨before, after, horder⟩ := List.append_of_mem hitem
    rw [h.node horder] at hnone
    cases hnone
  · intro hslot
    cases hnode : c.node? slot with
    | none => rfl
    | some node => exact absurd (h.occupied hnode) hslot

/-- The slots of the nodes are slots of the chain, so there are no more nodes than slots. -/
theorem length_le (h : c.Holds order) : order.length ≤ c.slots.size := by
  have hlt : ∀ slot ∈ order.map Prod.fst, slot < c.slots.size := by
    intro slot hslot
    cases hnode : c.node? slot with
    | none => exact absurd hslot (h.node?_eq_none_iff.mp hnode)
    | some node => exact lt_size_of_node? hnode
  have hsub := List.Nodup.length_le_of_subset h.distinct fun slot hslot =>
    List.mem_range.mpr (hlt slot hslot)
  simpa using hsub

theorem itemsFrom_eq (h : c.Linked (before ++ after)) {steps : Nat}
    (hsteps : after.length ≤ steps) : c.itemsFrom steps (firstSlot after) = after := by
  induction steps generalizing before after with
  | zero =>
    rw [List.length_eq_zero_iff.mp (Nat.le_zero.mp hsteps)]
    rfl
  | succ steps ih =>
    cases after with
    | nil => rfl
    | cons item rest =>
      rw [List.length_cons] at hsteps
      have hrest : c.Linked ((before ++ [item]) ++ rest) := by
        rw [List.append_assoc]
        exact h
      rw [firstSlot_cons, itemsFrom, h.node rfl]
      simp only [ih hrest (by omega)]

theorem items_eq (h : c.Holds order) : c.items = order := by
  have hlinked : c.Linked ([] ++ order) := h.toLinked
  rw [items, h.front_eq]
  exact itemsFrom_eq hlinked h.length_le

/-! ### Operations -/

theorem place_rest (c : Chain α) (node : Node α) :
    (c.place node).2.front = c.front ∧ (c.place node).2.back = c.back ∧
      (c.place node).2.length = c.length := by
  unfold place
  split <;> exact ⟨rfl, rfl, rfl⟩

/-- A new node comes into a vacant slot, or into one behind all slots. -/
theorem node?_place_slot (h : c.Holds order) (node : Node α) :
    c.node? (c.place node).1 = none := by
  unfold Chain.place
  split
  · next slot free hfree => exact (h.vacant.mp (hfree ▸ List.mem_cons_self)).2
  · simp [node?]

theorem node?_place (h : c.Holds order) (node : Node α) (other : Nat) :
    (c.place node).2.node? other =
      if other = (c.place node).1 then some node else c.node? other := by
  unfold Chain.place
  split
  · next slot free hfree =>
    exact join_setIfInBounds (h.vacant.mp (hfree ▸ List.mem_cons_self)).1 _ _
  · simp only [node?, Array.getElem?_push]
    split <;> rfl

theorem vacant_place (h : c.Holds order) (node : Node α) :
    (c.place node).2.free.Nodup ∧
      ∀ other, other ∈ (c.place node).2.free ↔
        other < (c.place node).2.slots.size ∧ (c.place node).2.node? other = none := by
  have hplaced := h.node?_place node
  have hdistinct := h.free_distinct
  have hvacant := @h.vacant
  revert hplaced
  unfold Chain.place
  split
  · next slot free hfree =>
    intro hplaced
    rw [hfree, List.nodup_cons] at hdistinct
    refine ⟨hdistinct.2, fun other => ?_⟩
    rw [hplaced other, Array.size_setIfInBounds]
    by_cases heq : other = slot
    · simp [heq, hdistinct.1]
    · rw [if_neg heq, ← hvacant, hfree, List.mem_cons]
      simp [heq]
  · next hfree =>
    intro hplaced
    refine ⟨hdistinct, fun other => ?_⟩
    rw [hplaced other, Array.size_push, hvacant]
    by_cases heq : other = c.slots.size
    · simp [heq]
    · rw [if_neg heq]
      have hlt : other < c.slots.size + 1 ↔ other < c.slots.size := by omega
      rw [hlt]

/-- Appending a value appends it, with its slot, to the sequence. -/
theorem push (h : c.Holds order) (value : α) :
    (c.push value).1 ∉ order.map Prod.fst ∧
      (c.push value).2.Holds (order ++ [((c.push value).1, value)]) := by
  let node : Node α := { value := value, previous := none, next := none }
  let slot := (c.place node).1
  let placed := (c.place node).2
  have hrest := place_rest c node
  have hslot : slot ∉ order.map Prod.fst := h.node?_eq_none_iff.mp (h.node?_place_slot node)
  have hplaced : placed.Linked order := by
    refine h.toLinked.congr ?_ hrest.1 hrest.2.1
    intro other hother
    rw [h.node?_place node other]
    exact if_neg fun heq : other = slot => hslot (heq ▸ hother)
  have hnode : placed.node? slot = some node := by rw [h.node?_place node slot, if_pos rfl]
  have hlinked := hplaced.attachBack hnode hslot
  have hsome := isSome_attachBack placed slot
  obtain ⟨hlength, hfree, hsize⟩ := attachBack_rest placed slot
  obtain ⟨hdistinct, hvacant⟩ := h.vacant_place node
  refine ⟨hslot, hlinked.congr (fun _ _ => rfl) rfl rfl, ?_, ?_, ?_, ?_⟩
  · intro other found hfound
    have hother : (placed.node? other).isSome := by
      rw [← hsome]
      exact Option.isSome_of_eq_some hfound
    rw [h.node?_place node other] at hother
    rw [List.map_append, List.mem_append]
    by_cases heq : other = slot
    · exact Or.inr (by simp [heq, slot]; rfl)
    · rw [if_neg heq] at hother
      obtain ⟨was, hwas⟩ := Option.isSome_iff_exists.mp hother
      exact Or.inl (h.occupied hwas)
  · show (placed.attachBack slot).length + 1 = _
    rw [hlength, hrest.2.2, h.length_eq, List.length_append]
    rfl
  · show (placed.attachBack slot).free.Nodup
    rw [hfree]
    exact hdistinct
  · intro other
    show other ∈ (placed.attachBack slot).free ↔
      other < (placed.attachBack slot).slots.size ∧ (placed.attachBack slot).node? other = none
    rw [hfree, hsize, eq_none_of_isSome (hsome other)]
    exact hvacant other

theorem remove_of_notMem (h : c.Holds order) (hslot : slot ∉ order.map Prod.fst) :
    c.remove slot = (none, c) := by
  simp [Chain.remove, h.node?_eq_none_iff.mpr hslot]

/-- Removing a node takes its slot and value out of the sequence and tells the value. -/
theorem remove (h : c.Holds (before ++ (slot, value) :: after)) :
    (c.remove slot).1 = some value ∧ (c.remove slot).2.Holds (before ++ after) := by
  have hnode := h.node rfl
  have hlinked := h.toLinked.detach
  have hsome := isSome_detach c slot
  obtain ⟨hlength, hfree, hsize⟩ := detach_rest c slot
  obtain ⟨-, -, hslotBefore, hslotAfter, -⟩ := Linked.apart h.distinct
  have hslot : slot ∉ (before ++ after).map Prod.fst := by
    rw [List.map_append, List.mem_append]
    exact fun hmem => hmem.elim hslotBefore hslotAfter
  have hbound : slot < (c.detach slot).slots.size := hsize ▸ lt_size_of_node? hnode
  have hremoved : ∀ other, (c.remove slot).2.node? other =
      if other = slot then none else (c.detach slot).node? other := by
    intro other
    simp only [Chain.remove, hnode]
    exact join_setIfInBounds hbound none other
  have hvalue : (c.remove slot).1 = some value := by simp [Chain.remove, hnode]
  have hrest : (c.remove slot).2.front = (c.detach slot).front ∧
      (c.remove slot).2.back = (c.detach slot).back ∧
      (c.remove slot).2.length = (c.detach slot).length - 1 ∧
      (c.remove slot).2.free = slot :: (c.detach slot).free ∧
      (c.remove slot).2.slots.size = (c.detach slot).slots.size := by
    simp [Chain.remove, hnode]
  obtain ⟨hfront, hback, hlengthRemoved, hfreeRemoved, hsizeRemoved⟩ := hrest
  refine ⟨hvalue, hlinked.congr ?_ hfront hback, ?_, ?_, ?_, ?_⟩
  · intro other hother
    rw [hremoved]
    exact if_neg fun heq : other = slot => hslot (heq ▸ hother)
  · intro other found hfound
    rw [hremoved] at hfound
    by_cases heq : other = slot
    · rw [if_pos heq] at hfound
      cases hfound
    · rw [if_neg heq] at hfound
      have hother : (c.node? other).isSome := hsome other ▸ Option.isSome_of_eq_some hfound
      obtain ⟨was, hwas⟩ := Option.isSome_iff_exists.mp hother
      have hmem := h.occupied hwas
      simp only [List.map_append, List.map_cons, List.mem_append, List.mem_cons] at hmem ⊢
      rcases hmem with hbefore | hself | hafter
      · exact Or.inl hbefore
      · exact absurd hself heq
      · exact Or.inr hafter
  · rw [hlengthRemoved, hlength, h.length_eq]
    simp only [List.length_append, List.length_cons]
    omega
  · rw [hfreeRemoved, hfree, List.nodup_cons]
    refine ⟨fun hmem => ?_, h.free_distinct⟩
    rw [(h.vacant.mp hmem).2] at hnode
    cases hnode
  · intro other
    rw [hfreeRemoved, hfree, hsizeRemoved, hsize, hremoved, List.mem_cons, h.vacant]
    by_cases heq : other = slot
    · simp [heq, hsize ▸ hbound]
    · simp [heq, eq_none_of_isSome (hsome other)]

theorem moveToBack_of_notMem (h : c.Holds order) (hslot : slot ∉ order.map Prod.fst) :
    c.moveToBack slot = (false, c) := by
  simp [Chain.moveToBack, h.node?_eq_none_iff.mpr hslot]

/-- Moving a node to the back moves its slot and value to the end of the sequence. -/
theorem moveToBack (h : c.Holds (before ++ (slot, value) :: after)) :
    (c.moveToBack slot).1 = true ∧
      (c.moveToBack slot).2.Holds (before ++ after ++ [(slot, value)]) := by
  have hnode := h.node rfl
  by_cases hlast : c.back = some slot
  · -- the node is the last one, so the sequence is as it was
    have hafter : after = [] := by
      obtain ⟨-, -, -, hslotAfter, -⟩ := Linked.apart h.distinct
      cases after with
      | nil => rfl
      | cons first rest =>
        rw [h.back_eq, lastSlot_append_cons, lastSlot_cons_cons] at hlast
        exact absurd (mem_of_lastSlot hlast) hslotAfter
    subst hafter
    simp only [Chain.moveToBack, hnode, if_pos hlast, List.append_nil]
    exact ⟨trivial, h⟩
  · have hmoved : c.moveToBack slot = (true, (c.detach slot).attachBack slot) := by
      simp only [Chain.moveToBack, hnode, if_neg hlast]
    have hdetached := h.toLinked.detach
    obtain ⟨-, -, hslotBefore, hslotAfter, -⟩ := Linked.apart h.distinct
    have hslot : slot ∉ (before ++ after).map Prod.fst := by
      rw [List.map_append, List.mem_append]
      exact fun hmem => hmem.elim hslotBefore hslotAfter
    obtain ⟨node, hkept, hvalue⟩ :
        ∃ node, (c.detach slot).node? slot = some node ∧ node.value = value := by
      rw [node?_detach hnode]
      simp only [if_true]
      split <;> split <;> exact ⟨_, rfl, rfl⟩
    have hlinked := hdetached.attachBack hkept hslot
    rw [hvalue] at hlinked
    have hsome : ∀ other, (((c.detach slot).attachBack slot).node? other).isSome =
        (c.node? other).isSome := by
      intro other
      rw [isSome_attachBack, isSome_detach]
    obtain ⟨hlength, hfree, hsize⟩ := detach_rest c slot
    obtain ⟨hlengthBack, hfreeBack, hsizeBack⟩ := attachBack_rest (c.detach slot) slot
    rw [hmoved]
    refine ⟨rfl, hlinked, ?_, ?_, ?_, ?_⟩
    · intro other found hfound
      have hother : (c.node? other).isSome := hsome other ▸ Option.isSome_of_eq_some hfound
      obtain ⟨was, hwas⟩ := Option.isSome_iff_exists.mp hother
      have hmem := h.occupied hwas
      simp only [List.map_append, List.map_cons, List.map_nil, List.mem_append, List.mem_cons,
        List.not_mem_nil, or_false] at hmem ⊢
      rcases hmem with hbefore | hself | hafter
      · exact Or.inl (Or.inl hbefore)
      · exact Or.inr hself
      · exact Or.inl (Or.inr hafter)
    · rw [hlengthBack, hlength, h.length_eq]
      simp only [List.length_append, List.length_cons, List.length_nil]
      omega
    · rw [hfreeBack, hfree]
      exact h.free_distinct
    · intro other
      rw [hfreeBack, hfree, hsizeBack, hsize, eq_none_of_isSome (hsome other), h.vacant]

end Holds

end Chain

end TtlCache
