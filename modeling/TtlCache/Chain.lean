/-!
# Chains in numbered slots

A chain is a doubly linked sequence whose nodes live in numbered slots.  A slot number names its
node until the node is removed, so that a node can be found, moved and removed without a search.
Vacated slots are handed out again, the one vacated last first.
-/

namespace TtlCache

structure Node (α : Type) where
  value : α
  previous : Option Nat
  next : Option Nat
  deriving DecidableEq, Repr

/-- Linked nodes in slots; `free` lists the vacant slots, the one vacated last first. -/
structure Chain (α : Type) where
  front : Option Nat
  back : Option Nat
  length : Nat
  slots : Array (Option (Node α))
  free : List Nat
  deriving DecidableEq, Repr

namespace Chain

variable {α : Type}

def empty : Chain α where
  front := none
  back := none
  length := 0
  slots := #[]
  free := []

def isEmpty (c : Chain α) : Bool := c.length == 0

def node? (c : Chain α) (slot : Nat) : Option (Node α) := c.slots[slot]?.join

def get? (c : Chain α) (slot : Nat) : Option α := (c.node? slot).map Node.value

def next? (c : Chain α) (slot : Nat) : Option Nat := (c.node? slot).bind Node.next

/-- Changes the node in a slot; a vacant slot stays vacant. -/
def adjust (c : Chain α) (slot : Nat) (change : Node α -> Node α) : Chain α :=
  match c.node? slot with
  | some node => { c with slots := c.slots.setIfInBounds slot (some (change node)) }
  | none => c

/-- Makes `next` follow `slot`, or makes it the front if no slot comes before it. -/
def linkAfter (c : Chain α) (slot next : Option Nat) : Chain α :=
  match slot with
  | some slot => c.adjust slot fun node => { node with next := next }
  | none => { c with front := next }

def linkBefore (c : Chain α) (slot previous : Option Nat) : Chain α :=
  match slot with
  | some slot => c.adjust slot fun node => { node with previous := previous }
  | none => { c with back := previous }

/-- Takes the node in a slot out of the sequence and joins its neighbours; it keeps its slot. -/
def detach (c : Chain α) (slot : Nat) : Chain α :=
  match c.node? slot with
  | none => c
  | some node =>
    let alone := c.adjust slot fun node => { node with previous := none, next := none }
    (alone.linkAfter node.previous node.next).linkBefore node.next node.previous

/-- Puts the node in a slot behind the back of the sequence. -/
def attachBack (c : Chain α) (slot : Nat) : Chain α :=
  let placed := c.adjust slot fun node => { node with previous := c.back, next := none }
  { placed.linkAfter c.back (some slot) with back := some slot }

/-- Puts an unlinked node into the slot vacated last, or into a new one if none is vacant. -/
def place (c : Chain α) (node : Node α) : Nat × Chain α :=
  match c.free with
  | slot :: free => (slot, { c with slots := c.slots.setIfInBounds slot (some node), free := free })
  | [] => (c.slots.size, { c with slots := c.slots.push (some node) })

/-- Appends a value at the back and tells its slot. -/
def push (c : Chain α) (value : α) : Nat × Chain α :=
  let (slot, placed) := c.place { value := value, previous := none, next := none }
  let linked := placed.attachBack slot
  (slot, { linked with length := linked.length + 1 })

def remove (c : Chain α) (slot : Nat) : Option α × Chain α :=
  match c.node? slot with
  | none => (none, c)
  | some node =>
    let rest := c.detach slot
    (some node.value,
      { rest with
        slots := rest.slots.setIfInBounds slot none
        free := slot :: rest.free
        length := rest.length - 1 })

def moveToBack (c : Chain α) (slot : Nat) : Bool × Chain α :=
  match c.node? slot with
  | none => (false, c)
  | some _ => (true, if c.back = some slot then c else (c.detach slot).attachBack slot)

def itemsFrom (c : Chain α) : Nat -> Option Nat -> List (Nat × α)
  | 0, _ => []
  | _ + 1, none => []
  | steps + 1, some slot =>
      match c.node? slot with
      | none => []
      | some node => (slot, node.value) :: c.itemsFrom steps node.next

/-- The slots and values from front to back.  A node is met once, so the slots bound the walk. -/
def items (c : Chain α) : List (Nat × α) := c.itemsFrom c.slots.size c.front

end Chain

end TtlCache
