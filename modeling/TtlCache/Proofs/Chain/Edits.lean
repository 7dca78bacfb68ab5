import TtlCache.Proofs.Chain.Walks

/-!
# Edits

A chain can be edited in three ways: a value is appended, the node in a slot is removed, or it is
moved to the back.  `Chain.Revises` says what an edit makes of a plain sequence of slots and values
and what it answers, without a word about links or vacant slots.  However a chain has been edited,
and whatever slots have been named, it stands for the sequence that was edited in the same way.
-/

namespace TtlCache

/-- A change to a chain.  Any slot may be named, also one that is vacant or was never handed out. -/
inductive Edit (α : Type) where
  | push (value : α)
  | remove (slot : Nat)
  | move (slot : Nat)
  deriving DecidableEq, Repr

inductive Reply (α : Type) where
  | placed (slot : Nat)
  | removed (value : Option α)
  | moved (found : Bool)
  deriving DecidableEq, Repr

namespace Chain

variable {α : Type}

def edit (c : Chain α) : Edit α -> Reply α × Chain α
  | .push value => (.placed (c.push value).1, (c.push value).2)
  | .remove slot => (.removed (c.remove slot).1, (c.remove slot).2)
  | .move slot => (.moved (c.moveToBack slot).1, (c.moveToBack slot).2)

def editAll (c : Chain α) : List (Edit α) -> List (Reply α) × Chain α
  | [] => ([], c)
  | change :: changes =>
      let (reply, next) := c.edit change
      let (replies, last) := next.editAll changes
      (reply :: replies, last)

/-- What a change makes of a sequence of slots and values, and what is answered to it. -/
inductive Revises : List (Nat × α) → Edit α → Reply α → List (Nat × α) → Prop where
  | pushed {order : List (Nat × α)} {value : α} {slot : Nat}
      (unused : slot ∉ order.map Prod.fst) :
      Revises order (.push value) (.placed slot) (order ++ [(slot, value)])
  | removed {before after : List (Nat × α)} {slot : Nat} {value : α} :
      Revises (before ++ (slot, value) :: after) (.remove slot) (.removed (some value))
        (before ++ after)
  | notRemoved {order : List (Nat × α)} {slot : Nat} (absent : slot ∉ order.map Prod.fst) :
      Revises order (.remove slot) (.removed none) order
  | moved {before after : List (Nat × α)} {slot : Nat} {value : α} :
      Revises (before ++ (slot, value) :: after) (.move slot) (.moved true)
        (before ++ after ++ [(slot, value)])
  | notMoved {order : List (Nat × α)} {slot : Nat} (absent : slot ∉ order.map Prod.fst) :
      Revises order (.move slot) (.moved false) order

inductive RevisesAll : List (Nat × α) → List (Edit α) → List (Reply α) → List (Nat × α) → Prop where
  | refl (order : List (Nat × α)) : RevisesAll order [] [] order
  | step {order next last : List (Nat × α)} {change : Edit α} {changes : List (Edit α)}
      {reply : Reply α} {replies : List (Reply α)} (first : Revises order change reply next)
      (rest : RevisesAll next changes replies last) :
      RevisesAll order (change :: changes) (reply :: replies) last

theorem Revises.keeps {order next : List (Nat × α)} {change : Edit α} {reply : Reply α}
    (h : Revises order change reply next) {slot : Nat} {value : α} (hitem : (slot, value) ∈ order)
    (hkept : change ≠ .remove slot) : (slot, value) ∈ next := by
  cases h with
  | pushed unused => exact List.mem_append_left _ hitem
  | removed =>
    rw [List.mem_append, List.mem_cons] at hitem
    rcases hitem with hbefore | hself | hafter
    · exact List.mem_append_left _ hbefore
    · cases hself
      exact absurd rfl hkept
    · exact List.mem_append_right _ hafter
  | moved =>
    simp only [List.mem_append, List.mem_cons, List.not_mem_nil, or_false] at hitem ⊢
    rcases hitem with hbefore | hself | hafter
    · exact .inl (.inl hbefore)
    · exact .inr hself
    · exact .inl (.inr hafter)
  | notRemoved absent | notMoved absent => exact hitem

theorem RevisesAll.keeps {order last : List (Nat × α)} {changes : List (Edit α)}
    {replies : List (Reply α)} (h : RevisesAll order changes replies last) {slot : Nat} {value : α}
    (hitem : (slot, value) ∈ order) (hkept : Edit.remove slot ∉ changes) :
    (slot, value) ∈ last := by
  induction h with
  | refl => exact hitem
  | step first rest ih =>
    rw [List.mem_cons, not_or] at hkept
    exact ih (first.keeps hitem (Ne.symm hkept.1)) hkept.2

namespace Holds

variable {c : Chain α} {order : List (Nat × α)}

theorem edit (h : c.Holds order) (change : Edit α) :
    ∃ next, Revises order change (c.edit change).1 next ∧ (c.edit change).2.Holds next := by
  cases change with
  | push value =>
    obtain ⟨hunused, hpushed⟩ := h.push value
    exact ⟨_, .pushed hunused, hpushed⟩
  | remove slot =>
    by_cases hslot : slot ∈ order.map Prod.fst
    · obtain ⟨⟨_, value⟩, hitem, rfl⟩ := List.mem_map.mp hslot
      obtain ⟨before, after, rfl⟩ := List.append_of_mem hitem
      obtain ⟨hvalue, hremoved⟩ := h.remove
      refine ⟨_, ?_, hremoved⟩
      rw [Chain.edit, hvalue]
      exact .removed
    · rw [Chain.edit, h.remove_of_notMem hslot]
      exact ⟨order, .notRemoved hslot, h⟩
  | move slot =>
    by_cases hslot : slot ∈ order.map Prod.fst
    · obtain ⟨⟨_, value⟩, hitem, rfl⟩ := List.mem_map.mp hslot
      obtain ⟨before, after, rfl⟩ := List.append_of_mem hitem
      obtain ⟨hfound, hmoved⟩ := h.moveToBack
      refine ⟨_, ?_, hmoved⟩
      rw [Chain.edit, hfound]
      exact .moved
    · rw [Chain.edit, h.moveToBack_of_notMem hslot]
      exact ⟨order, .notMoved hslot, h⟩

theorem editAll (h : c.Holds order) (changes : List (Edit α)) :
    ∃ last, RevisesAll order changes (c.editAll changes).1 last ∧
      (c.editAll changes).2.Holds last := by
  induction changes generalizing c order with
  | nil => exact ⟨order, .refl order, h⟩
  | cons change changes ih =>
    obtain ⟨next, hfirst, hnext⟩ := h.edit change
    obtain ⟨last, hrest, hlast⟩ := ih hnext
    exact ⟨last, .step hfirst hrest, hlast⟩

end Holds

/--
Whatever changes are made to an empty chain, it stands for the sequence of slots and values to which
the same changes are made.  A walk along the links meets this sequence from front to back or from
back to front and ends after as many steps as the chain is long.  A slot answers what the sequence
has in it; if it has nothing there, removal and move change nothing at all.  A slot goes on to
answer the same until its removal.
-/
theorem edits_revise_sequence (changes : List (Edit α)) :
    ∃ replies c order, (Chain.empty : Chain α).editAll changes = (replies, c) ∧
      RevisesAll [] changes replies order ∧ (order.map Prod.fst).Nodup ∧
      c.length = order.length ∧
      walk c.forward c.length c.front = (order, none) ∧
      walk c.backward c.length c.back = (order.reverse, none) ∧
      (∀ slot value, c.get? slot = some value ↔ (slot, value) ∈ order) ∧
      (∀ slot other, c.next? slot = some other ↔ ∃ before value beyond after,
        order = before ++ (slot, value) :: (other, beyond) :: after) ∧
      (∀ slot, slot ∉ order.map Prod.fst →
        c.remove slot = (none, c) ∧ c.moveToBack slot = (false, c)) ∧
      ∀ slot value later, c.get? slot = some value → .remove slot ∉ later →
        (c.editAll later).2.get? slot = some value := by
  obtain ⟨order, hrevises, hholds⟩ := Holds.empty.editAll changes
  refine ⟨_, _, order, rfl, hrevises, hholds.distinct, hholds.length_eq, ?_, ?_,
    fun _ _ => hholds.get?_eq_some_iff, fun _ _ => hholds.next?_eq_some_iff,
    fun slot hslot => ⟨hholds.remove_of_notMem hslot, hholds.moveToBack_of_notMem hslot⟩, ?_⟩
  · rw [hholds.length_eq]
    exact hholds.walk_forward
  · rw [hholds.length_eq]
    exact hholds.walk_backward
  · intro slot value later hvalue hkept
    obtain ⟨last, hlater, hlast⟩ := hholds.editAll later
    rw [hlast.get?_eq_some_iff]
    exact hlater.keeps (hholds.get?_eq_some_iff.mp hvalue) hkept

/-- A removed value makes room for another one, which keeps the slot when its neighbours go. -/
theorem edits_revise_sequence_recycled :
    let changes := [Edit.push "a", .push "b", .remove 0, .push "c", .move 1, .remove 7]
    let later := [Edit.push "d", .remove 1]
    ∃ c, Chain.empty.editAll changes = ([.placed 0, .placed 1, .removed (some "a"), .placed 0,
        .moved true, .removed none], c) ∧
      walk c.forward c.length c.front = ([(0, "c"), (1, "b")], none) ∧
      walk c.backward c.length c.back = ([(1, "b"), (0, "c")], none) ∧
      c.remove 7 = (none, c) ∧ c.moveToBack 7 = (false, c) ∧
      c.get? 0 = some "c" ∧ Edit.remove 0 ∉ later ∧ (c.editAll later).2.get? 0 = some "c" := by
  intro changes later
  have hreplies : (Chain.empty.editAll changes).1 = [.placed 0, .placed 1, .removed (some "a"),
      .placed 0, .moved true, .removed none] := by decide
  have hwalk : walk (Chain.empty.editAll changes).2.forward 2
      (Chain.empty.editAll changes).2.front = ([(0, "c"), (1, "b")], none) := by decide
  have hlength : (Chain.empty.editAll changes).2.length = 2 := by decide
  have hvalue : (Chain.empty.editAll changes).2.get? 0 = some "c" := by decide
  have hkept : Edit.remove 0 ∉ later := by decide
  obtain ⟨replies, c, order, hrun, -, -, -, hforward, hbackward, -, -, hsame, hstays⟩ :=
    edits_revise_sequence changes
  rw [hrun] at hreplies hwalk hlength hvalue
  obtain rfl : order = [(0, "c"), (1, "b")] := by
    rw [hlength, hwalk] at hforward
    exact (congrArg Prod.fst hforward).symm
  subst hreplies
  obtain ⟨hremove, hmove⟩ := hsame 7 (by decide)
  exact ⟨c, hrun, hforward, hbackward, hremove, hmove, hvalue, hkept,
    hstays 0 "c" later hvalue hkept⟩

end Chain

end TtlCache
