import TtlCache.Proofs.Chain.Edits

/-!
# Strict edits

An edit writes to slots, follows links to neighbours and counts nodes, and is written as if a slot
that is not there could be passed over and a count of zero be lowered.  A strict edit comes to
nothing in such a case.  On a chain that stands for a sequence no such case arises: both do the
same.
-/

namespace TtlCache

namespace Chain

variable {α : Type}

namespace Strict

/-- Changes what is in a slot, which must be there. -/
def fill (c : Chain α) (slot : Nat) (content : Option (Node α)) : Option (Chain α) :=
  if slot < c.slots.size then
    some { c with slots := c.slots.setIfInBounds slot content }
  else
    none

def adjust (c : Chain α) (slot : Nat) (change : Node α → Node α) : Option (Chain α) :=
  (c.node? slot).bind fun node => fill c slot (some (change node))

def linkAfter (c : Chain α) (slot next : Option Nat) : Option (Chain α) :=
  match slot with
  | some slot => adjust c slot fun node => { node with next := next }
  | none => some { c with front := next }

def linkBefore (c : Chain α) (slot previous : Option Nat) : Option (Chain α) :=
  match slot with
  | some slot => adjust c slot fun node => { node with previous := previous }
  | none => some { c with back := previous }

def detach (c : Chain α) (slot : Nat) : Option (Chain α) := do
  let node <- c.node? slot
  let alone <- adjust c slot fun node => { node with previous := none, next := none }
  let linked <- linkAfter alone node.previous node.next
  linkBefore linked node.next node.previous

def attachBack (c : Chain α) (slot : Nat) : Option (Chain α) := do
  let placed <- adjust c slot fun node => { node with previous := c.back, next := none }
  let linked <- linkAfter placed c.back (some slot)
  return { linked with back := some slot }

def place (c : Chain α) (node : Node α) : Option (Nat × Chain α) :=
  match c.free with
  | slot :: free => (fill c slot (some node)).map fun filled => (slot, { filled with free := free })
  | [] => some (c.slots.size, { c with slots := c.slots.push (some node) })

def push (c : Chain α) (value : α) : Option (Nat × Chain α) := do
  let (slot, placed) <- place c { value := value, previous := none, next := none }
  let linked <- attachBack placed slot
  return (slot, { linked with length := linked.length + 1 })

def lower : Nat → Option Nat
  | 0 => none
  | count + 1 => some count

/-- Removes the node in a slot; it is no fault to ask for one that is not there. -/
def remove (c : Chain α) (slot : Nat) : Option (Option α × Chain α) :=
  match c.node? slot with
  | none => some (none, c)
  | some node => do
    let rest <- detach c slot
    let vacated <- fill rest slot none
    let length <- lower vacated.length
    return (some node.value, { vacated with free := slot :: vacated.free, length := length })

def moveToBack (c : Chain α) (slot : Nat) : Option (Bool × Chain α) :=
  match c.node? slot with
  | none => some (false, c)
  | some _ =>
    if c.back = some slot then
      some (true, c)
    else do
      let rest <- detach c slot
      let moved <- attachBack rest slot
      return (true, moved)

def edit (c : Chain α) : Edit α → Option (Reply α × Chain α)
  | .push value => (push c value).map fun answer => (.placed answer.1, answer.2)
  | .remove slot => (remove c slot).map fun answer => (.removed answer.1, answer.2)
  | .move slot => (moveToBack c slot).map fun answer => (.moved answer.1, answer.2)

def editAll (c : Chain α) : List (Edit α) → Option (List (Reply α) × Chain α)
  | [] => some ([], c)
  | change :: changes => do
      let (reply, next) <- edit c change
      let (replies, last) <- editAll next changes
      return (reply :: replies, last)

/-! ## No fault -/

variable {c : Chain α} {slot : Nat}

theorem fill_eq (h : slot < c.slots.size) (content : Option (Node α)) :
    fill c slot content = some { c with slots := c.slots.setIfInBounds slot content } :=
  if_pos h

theorem adjust_eq (h : (c.node? slot).isSome) (change : Node α → Node α) :
    adjust c slot change = some (c.adjust slot change) := by
  obtain ⟨node, hnode⟩ := Option.isSome_iff_exists.mp h
  simp only [adjust, Chain.adjust, hnode, Option.bind_some, fill_eq (lt_size_of_node? hnode)]

theorem linkAfter_eq {link : Option Nat} (h : ∀ slot, link = some slot → (c.node? slot).isSome)
    (next : Option Nat) : linkAfter c link next = some (c.linkAfter link next) := by
  cases link with
  | none => rfl
  | some slot => exact adjust_eq (h slot rfl) _

theorem linkBefore_eq {link : Option Nat} (h : ∀ slot, link = some slot → (c.node? slot).isSome)
    (previous : Option Nat) : linkBefore c link previous = some (c.linkBefore link previous) := by
  cases link with
  | none => rfl
  | some slot => exact adjust_eq (h slot rfl) _

theorem isSome_adjust (c : Chain α) (slot other : Nat) (change : Node α → Node α) :
    ((c.adjust slot change).node? other).isSome = (c.node? other).isSome := by
  rw [node?_adjust]
  split <;> simp [*]

theorem isSome_linkAfter (c : Chain α) (link next : Option Nat) (other : Nat) :
    ((c.linkAfter link next).node? other).isSome = (c.node? other).isSome := by
  rw [node?_linkAfter]
  split <;> simp

theorem attachBack_eq (hslot : (c.node? slot).isSome)
    (hback : ∀ other, c.back = some other → (c.node? other).isSome) :
    attachBack c slot = some (c.attachBack slot) := by
  have hlink : ∀ other, c.back = some other →
      ((c.adjust slot fun node =>
        { node with previous := c.back, next := none }).node? other).isSome :=
    fun other hother => (isSome_adjust c slot other _).trans (hback other hother)
  rw [attachBack, adjust_eq hslot]
  simp only [Option.bind_eq_bind, Option.bind_some, linkAfter_eq hlink]
  rfl

end Strict

namespace Linked

variable {c : Chain α} {order before after : List (Nat × α)} {slot : Nat} {value : α}

theorem isSome_node? (h : c.Linked order) (hslot : slot ∈ order.map Prod.fst) :
    (c.node? slot).isSome := by
  obtain ⟨item, hitem, rfl⟩ := List.mem_map.mp hslot
  obtain ⟨before, after, horder⟩ := List.append_of_mem hitem
  rw [h.node horder]
  rfl

theorem isSome_back (h : c.Linked order) {other : Nat} (hback : c.back = some other) :
    (c.node? other).isSome :=
  h.isSome_node? (mem_of_lastSlot (h.back_eq ▸ hback))

theorem strict_detach (h : c.Linked (before ++ (slot, value) :: after)) :
    Strict.detach c slot = some (c.detach slot) := by
  have hnode := h.node rfl
  have hprevious : ∀ other, lastSlot before = some other → (c.node? other).isSome := by
    intro other hother
    refine h.isSome_node? ?_
    rw [List.map_append, List.mem_append]
    exact .inl (mem_of_lastSlot hother)
  have hnext : ∀ other, firstSlot after = some other → (c.node? other).isSome := by
    intro other hother
    refine h.isSome_node? ?_
    rw [List.map_append, List.mem_append]
    exact .inr (List.mem_cons_of_mem _ (mem_of_firstSlot hother))
  simp only [Strict.detach, Chain.detach, hnode, Option.bind_eq_bind, Option.bind_some]
  rw [Strict.adjust_eq (by rw [hnode]; rfl), Option.bind_some, Strict.linkAfter_eq,
    Option.bind_some, Strict.linkBefore_eq]
  · intro other hother
    rw [Strict.isSome_linkAfter, Strict.isSome_adjust]
    exact hnext other hother
  · intro other hother
    rw [Strict.isSome_adjust]
    exact hprevious other hother

end Linked

namespace Holds

variable {c : Chain α} {order before after : List (Nat × α)} {slot : Nat} {value : α}

theorem strict_place (h : c.Holds order) (node : Node α) :
    Strict.place c node = some (c.place node) := by
  cases hfree : c.free with
  | nil => simp only [Strict.place, Chain.place, hfree]
  | cons slot free =>
    have hbound : slot < c.slots.size := (h.vacant.mp (hfree ▸ List.mem_cons_self)).1
    simp only [Strict.place, Chain.place, hfree, Strict.fill_eq hbound, Option.map_some]

theorem strict_push (h : c.Holds order) (value : α) :
    Strict.push c value = some (c.push value) := by
  let node : Node α := { value := value, previous := none, next := none }
  have hslot : ((c.place node).2.node? (c.place node).1).isSome := by
    rw [h.node?_place, if_pos rfl]
    rfl
  have hback : ∀ other, (c.place node).2.back = some other →
      ((c.place node).2.node? other).isSome := by
    intro other hother
    rw [(place_rest c node).2.1] at hother
    rw [h.node?_place]
    split
    · rfl
    · exact h.isSome_back hother
  have hattached := Strict.attachBack_eq hslot hback
  rw [Strict.push, h.strict_place]
  simp only [Option.bind_eq_bind, Option.bind_some]
  rw [hattached]
  rfl

theorem strict_remove (h : c.Holds (before ++ (slot, value) :: after)) :
    Strict.remove c slot = some (c.remove slot) := by
  have hnode := h.node rfl
  obtain ⟨hlength, -, hsize⟩ := detach_rest c slot
  have hbound : slot < (c.detach slot).slots.size := hsize ▸ lt_size_of_node? hnode
  have hlower : Strict.lower (c.detach slot).length = some ((c.detach slot).length - 1) := by
    rw [hlength, h.length_eq, List.length_append, List.length_cons, ← Nat.add_assoc]
    rfl
  simp only [Strict.remove, Chain.remove, hnode, h.strict_detach, Option.bind_eq_bind,
    Option.bind_some, Strict.fill_eq hbound, hlower]
  rfl

theorem strict_moveToBack (h : c.Holds (before ++ (slot, value) :: after)) :
    Strict.moveToBack c slot = some (c.moveToBack slot) := by
  have hnode := h.node rfl
  have hslot : ((c.detach slot).node? slot).isSome := by
    rw [isSome_detach, hnode]
    rfl
  have hback : ∀ other, (c.detach slot).back = some other →
      ((c.detach slot).node? other).isSome :=
    fun _ => h.toLinked.detach.isSome_back
  simp only [Strict.moveToBack, Chain.moveToBack, hnode]
  split
  · rfl
  · simp only [h.strict_detach, Option.bind_eq_bind, Option.bind_some,
      Strict.attachBack_eq hslot hback]
    rfl

/-- No edit of a chain reaches for a slot that is not there or counts below zero. -/
theorem strict_edit (h : c.Holds order) (change : Edit α) :
    Strict.edit c change = some (c.edit change) := by
  -- a slot has a pair in the sequence, or the edit changes nothing
  have hcases : ∀ slot, c.node? slot = none ∨
      ∃ before value after, c.Holds (before ++ (slot, value) :: after) := by
    intro slot
    by_cases hslot : slot ∈ order.map Prod.fst
    · obtain ⟨⟨_, value⟩, hitem, rfl⟩ := List.mem_map.mp hslot
      obtain ⟨before, after, rfl⟩ := List.append_of_mem hitem
      exact .inr ⟨before, value, after, h⟩
    · exact .inl (h.node?_eq_none_iff.mpr hslot)
  cases change with
  | push value =>
    rw [Strict.edit, h.strict_push]
    rfl
  | remove slot =>
    rcases hcases slot with hnone | ⟨before, value, after, hslot⟩
    · simp [Strict.edit, Chain.edit, Strict.remove, Chain.remove, hnone]
    · rw [Strict.edit, hslot.strict_remove]
      rfl
  | move slot =>
    rcases hcases slot with hnone | ⟨before, value, after, hslot⟩
    · simp [Strict.edit, Chain.edit, Strict.moveToBack, Chain.moveToBack, hnone]
    · rw [Strict.edit, hslot.strict_moveToBack]
      rfl

theorem strict_editAll (h : c.Holds order) (changes : List (Edit α)) :
    Strict.editAll c changes = some (c.editAll changes) := by
  induction changes generalizing c order with
  | nil => rfl
  | cons change changes ih =>
    obtain ⟨next, -, hnext⟩ := h.edit change
    rw [Strict.editAll, h.strict_edit]
    simp only [Option.bind_eq_bind, Option.bind_some, ih hnext]
    rfl

end Holds

end Chain

end TtlCache
