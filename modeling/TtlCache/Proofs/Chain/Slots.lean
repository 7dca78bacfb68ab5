import TtlCache.Proofs.Chain.Strict

/-!
# Slots

A chain has as many slots as it ever had nodes at one time, and no slot is lost or counted twice:
each has a node or is vacant, and the vacant ones are listed.  The next value comes into the slot
vacated last, and which one that is can be told from the edits and the replies to them alone.
-/

namespace TtlCache

namespace Chain

variable {α : Type}

/-! ## What replies tell of slots -/

def vacates (slot : Nat) : Edit α × Reply α → Bool
  | (.remove other, .removed (some _)) => decide (other = slot)
  | _ => false

def handsOut (slot : Nat) : Edit α × Reply α → Bool
  | (_, .placed other) => decide (other = slot)
  | _ => false

/-- The number of items up to the last one of a kind, and none if there is none. -/
def lastOf {ι : Type} (kind : ι → Bool) (items : List ι) : Nat :=
  items.length - items.reverse.findIdx kind

def lastVacated (history : List (Edit α × Reply α)) (slot : Nat) : Nat :=
  lastOf (vacates slot) history

def lastHandedOut (history : List (Edit α × Reply α)) (slot : Nat) : Nat :=
  lastOf (handsOut slot) history

/-- A slot was vacated and has not been handed out since. -/
def Spare (history : List (Edit α × Reply α)) (slot : Nat) : Prop :=
  lastHandedOut history slot < lastVacated history slot

/-- The largest length that a chain has while changes are made to it. -/
def peak (c : Chain α) : List (Edit α) → Nat
  | [] => c.length
  | change :: changes => max c.length ((c.edit change).2.peak changes)

theorem lastOf_append {ι : Type} (kind : ι → Bool) (items : List ι) (item : ι) :
    lastOf kind (items ++ [item]) =
      if kind item then items.length + 1 else lastOf kind items := by
  simp only [lastOf, List.reverse_append, List.reverse_cons, List.reverse_nil, List.nil_append,
    List.cons_append, List.length_append, List.length_singleton, List.findIdx_cons]
  cases kind item <;> simp

theorem lastOf_le {ι : Type} (kind : ι → Bool) (items : List ι) :
    lastOf kind items ≤ items.length :=
  Nat.sub_le _ _

theorem length_le_peak (c : Chain α) (changes : List (Edit α)) : c.length ≤ c.peak changes := by
  cases changes with
  | nil => exact Nat.le_refl _
  | cons change changes => exact Nat.le_max_left _ _

/-! ## What an edit does to the slots -/

/-- What a change does to the slots of a chain, and what is answered to it. -/
inductive Reslots (c d : Chain α) : Edit α → Reply α → Prop where
  | refilled {value : α} {slot : Nat} (free_eq : c.free = slot :: d.free)
      (size_eq : d.slots.size = c.slots.size) (length_eq : d.length = c.length + 1) :
      Reslots c d (.push value) (.placed slot)
  | grown {value : α} (full : c.free = []) (free_eq : d.free = [])
      (size_eq : d.slots.size = c.slots.size + 1) (length_eq : d.length = c.length + 1) :
      Reslots c d (.push value) (.placed c.slots.size)
  | vacated {slot : Nat} {value : α} (free_eq : d.free = slot :: c.free)
      (size_eq : d.slots.size = c.slots.size) (length_eq : d.length + 1 = c.length) :
      Reslots c d (.remove slot) (.removed (some value))
  | kept {change : Edit α} {reply : Reply α} (free_eq : d.free = c.free)
      (size_eq : d.slots.size = c.slots.size) (length_eq : d.length = c.length)
      (still : ∀ slot,
        vacates slot (change, reply) = false ∧ handsOut slot (change, reply) = false) :
      Reslots c d change reply

theorem reslots_push (c : Chain α) (value : α) :
    Reslots c (c.push value).2 (.push value) (.placed (c.push value).1) := by
  let node : Node α := { value := value, previous := none, next := none }
  obtain ⟨hlength, hfree, hsize⟩ := attachBack_rest (c.place node).2 (c.place node).1
  have hlengthPlaced := (Holds.place_rest c node).2.2
  have hfreePushed : (c.push value).2.free = (c.place node).2.free := hfree
  have hsizePushed : (c.push value).2.slots.size = (c.place node).2.slots.size := hsize
  have hlengthPushed : (c.push value).2.length = c.length + 1 :=
    congrArg (· + 1) (hlength.trans hlengthPlaced)
  have hslot : (c.push value).1 = (c.place node).1 := rfl
  cases hvacant : c.free with
  | nil =>
    have hplaced : c.place node =
        (c.slots.size, { c with slots := c.slots.push (some node) }) := by
      rw [place, hvacant]
    rw [hplaced] at hfreePushed hsizePushed hslot
    rw [hslot]
    refine .grown hvacant (hfreePushed.trans hvacant) ?_ hlengthPushed
    rw [hsizePushed, Array.size_push]
  | cons slot free =>
    have hplaced : c.place node =
        (slot, { c with slots := c.slots.setIfInBounds slot (some node), free := free }) := by
      rw [place, hvacant]
    rw [hplaced] at hfreePushed hsizePushed hslot
    rw [hslot]
    refine .refilled ?_ ?_ hlengthPushed
    · rw [hvacant, hfreePushed]
    · rw [hsizePushed, Array.size_setIfInBounds]

namespace Holds

variable {c : Chain α} {order : List (Nat × α)}

theorem reslots_remove (h : c.Holds order) (slot : Nat) :
    Reslots c (c.remove slot).2 (.remove slot) (.removed (c.remove slot).1) := by
  cases hnode : c.node? slot with
  | none =>
    have hsame : c.remove slot = (none, c) := by rw [Chain.remove, hnode]
    rw [hsame]
    exact .kept rfl rfl rfl fun _ => ⟨rfl, rfl⟩
  | some node =>
    obtain ⟨hlength, hfree, hsize⟩ := detach_rest c slot
    have hremoved : c.remove slot = (some node.value,
        { c.detach slot with
          slots := (c.detach slot).slots.setIfInBounds slot none
          free := slot :: (c.detach slot).free
          length := (c.detach slot).length - 1 }) := by
      rw [Chain.remove, hnode]
    have hpos : 0 < c.length := by
      rw [h.length_eq, List.length_pos_iff]
      intro hnil
      have hslot := h.occupied hnode
      rw [hnil] at hslot
      cases hslot
    rw [hremoved]
    refine .vacated (congrArg (slot :: ·) hfree) ?_ ?_
    · exact (Array.size_setIfInBounds).trans hsize
    · show (c.detach slot).length - 1 + 1 = c.length
      rw [hlength, Nat.sub_add_cancel hpos]

theorem reslots_moveToBack (c : Chain α) (slot : Nat) :
    Reslots c (c.moveToBack slot).2 (.move slot) (.moved (c.moveToBack slot).1) := by
  have hrest : (c.moveToBack slot).2.free = c.free ∧
      (c.moveToBack slot).2.slots.size = c.slots.size ∧
      (c.moveToBack slot).2.length = c.length := by
    obtain ⟨hlength, hfree, hsize⟩ := detach_rest c slot
    obtain ⟨hlengthBack, hfreeBack, hsizeBack⟩ := attachBack_rest (c.detach slot) slot
    unfold Chain.moveToBack
    split
    · exact ⟨rfl, rfl, rfl⟩
    · split
      · exact ⟨rfl, rfl, rfl⟩
      · exact ⟨hfreeBack.trans hfree, hsizeBack.trans hsize, hlengthBack.trans hlength⟩
  exact .kept hrest.1 hrest.2.1 hrest.2.2 fun _ => ⟨rfl, rfl⟩

theorem reslots (h : c.Holds order) (change : Edit α) :
    Reslots c (c.edit change).2 change (c.edit change).1 := by
  cases change with
  | push value => exact reslots_push c value
  | remove slot => exact h.reslots_remove slot
  | move slot => exact reslots_moveToBack c slot

end Holds

/-! ## The vacant slots -/

/-- All slots are counted, and the vacant ones are the spare ones, those vacated last first. -/
structure Accounted (history : List (Edit α × Reply α)) (c : Chain α) : Prop where
  holds : ∃ order, c.Holds order
  size_eq : c.slots.size = c.length + c.free.length
  mem_free : ∀ slot, slot ∈ c.free ↔ Spare history slot
  latest : c.free.Pairwise fun a b => lastVacated history b < lastVacated history a

theorem accounted_empty : Accounted [] (empty : Chain α) where
  holds := ⟨[], Holds.empty⟩
  size_eq := rfl
  mem_free _ := by simp [empty, Spare, lastHandedOut, lastVacated, lastOf]
  latest := .nil

section

variable {history : List (Edit α × Reply α)} {change : Edit α} {reply : Reply α} {slot : Nat}

theorem lastVacated_append : lastVacated (history ++ [(change, reply)]) slot =
    if vacates slot (change, reply) then history.length + 1 else lastVacated history slot :=
  lastOf_append _ _ _

theorem lastHandedOut_append : lastHandedOut (history ++ [(change, reply)]) slot =
    if handsOut slot (change, reply) then history.length + 1 else lastHandedOut history slot :=
  lastOf_append _ _ _

theorem spare_placed {value : α} {other : Nat} :
    Spare (history ++ [(.push value, .placed slot)]) other ↔
      other ≠ slot ∧ Spare history other := by
  have hle := lastOf_le (vacates other) history
  simp only [Spare, lastVacated_append, lastHandedOut_append, vacates, handsOut,
    decide_eq_true_eq, Bool.false_eq_true, if_false]
  by_cases heq : slot = other
  · rw [if_pos heq]
    exact iff_of_false (by simp only [lastVacated]; omega) fun h => h.1 heq.symm
  · simp [heq, Ne.symm heq]

theorem spare_removed {value : α} {other : Nat} :
    Spare (history ++ [(.remove slot, .removed (some value))]) other ↔
      other = slot ∨ Spare history other := by
  have hle := lastOf_le (handsOut other) history
  simp only [Spare, lastVacated_append, lastHandedOut_append, vacates, handsOut,
    decide_eq_true_eq, Bool.false_eq_true, if_false]
  by_cases heq : slot = other
  · rw [if_pos heq]
    exact iff_of_true (Nat.lt_succ_of_le hle) (.inl heq.symm)
  · simp [heq, Ne.symm heq]

end

namespace Accounted

variable {history : List (Edit α × Reply α)} {c d : Chain α} {change : Edit α} {reply : Reply α}

theorem reslots (h : Accounted history c) (hreslots : Reslots c d change reply)
    (hholds : ∃ order, d.Holds order) : Accounted (history ++ [(change, reply)]) d := by
  obtain ⟨⟨order, hc⟩, hsize, hmem, hlatest⟩ := h
  cases hreslots with
  | @refilled value slot free_eq size_eq length_eq =>
    have hdistinct := hc.free_distinct
    rw [free_eq] at hlatest hdistinct
    rw [List.nodup_cons] at hdistinct
    refine ⟨hholds, ?_, fun other => ?_, ?_⟩
    · rw [free_eq, List.length_cons] at hsize
      omega
    · rw [spare_placed, ← hmem, free_eq, List.mem_cons]
      constructor
      · exact fun hother => ⟨fun heq => hdistinct.1 (heq ▸ hother), .inr hother⟩
      · exact fun hother => hother.2.resolve_left hother.1
    · refine (List.pairwise_cons.mp hlatest).2.imp fun hlt => ?_
      simpa [lastVacated_append, vacates] using hlt
  | grown full free_eq size_eq length_eq =>
    refine ⟨hholds, ?_, fun other => ?_, free_eq ▸ .nil⟩
    · rw [full] at hsize
      rw [free_eq, size_eq, length_eq, hsize]
      rfl
    · rw [spare_placed, ← hmem, free_eq, full]
      simp
  | @vacated slot value free_eq size_eq length_eq =>
    refine ⟨hholds, ?_, fun other => ?_, ?_⟩
    · rw [free_eq, List.length_cons]
      omega
    · rw [spare_removed, ← hmem, free_eq, List.mem_cons]
    · obtain ⟨last, hlast⟩ := hholds
      have hdistinct := hlast.free_distinct
      rw [free_eq, List.nodup_cons] at hdistinct
      have hkept : ∀ other ∈ c.free,
          lastVacated (history ++ [(.remove slot, .removed (some value))]) other =
            lastVacated history other := by
        intro other hother
        have hne : slot ≠ other := fun heq => hdistinct.1 (heq ▸ hother)
        simp [lastVacated_append, vacates, hne]
      rw [free_eq, List.pairwise_cons]
      constructor
      · intro other hother
        have hle := lastOf_le (vacates other) history
        rw [hkept other hother, lastVacated_append, vacates, decide_eq_true rfl, if_pos rfl]
        exact Nat.lt_succ_of_le hle
      · refine hlatest.imp_of_mem fun ha hb hlt => ?_
        rwa [hkept _ ha, hkept _ hb]
  | kept free_eq size_eq length_eq still =>
    refine ⟨hholds, by rw [size_eq, length_eq, free_eq, hsize], fun other => ?_, ?_⟩
    · rw [free_eq, hmem, Spare, Spare, lastVacated_append, lastHandedOut_append,
        (still other).1, (still other).2]
      rfl
    · rw [free_eq]
      refine hlatest.imp fun hlt => ?_
      simpa [lastVacated_append, still] using hlt

theorem edit (h : Accounted history c) (change : Edit α) :
    Accounted (history ++ [(change, (c.edit change).1)]) (c.edit change).2 := by
  obtain ⟨order, hholds⟩ := h.holds
  obtain ⟨next, -, hnext⟩ := hholds.edit change
  exact h.reslots (hholds.reslots change) ⟨next, hnext⟩

/-- However a chain is edited, its slots go on to be accounted for. -/
theorem editAll (h : Accounted history c) (changes : List (Edit α)) :
    Accounted (history ++ changes.zip (c.editAll changes).1) (c.editAll changes).2 := by
  induction changes generalizing history c with
  | nil => rwa [List.zip_nil_left, List.append_nil]
  | cons change changes ih =>
    have hrest := ih (h.edit change)
    rwa [List.append_assoc] at hrest

theorem size_of_reslots (h : Accounted history c) (hreslots : Reslots c d change reply) :
    d.slots.size = max c.slots.size d.length := by
  have hsize := h.size_eq
  cases hreslots with
  | refilled free_eq =>
    rw [free_eq, List.length_cons] at hsize
    omega
  | grown full =>
    rw [full, List.length_nil] at hsize
    omega
  | vacated | kept => omega

theorem size_editAll (h : Accounted history c) (changes : List (Edit α)) :
    (c.editAll changes).2.slots.size = max c.slots.size (c.peak changes) := by
  induction changes generalizing history c with
  | nil =>
    have hsize := h.size_eq
    simp only [Chain.editAll, peak]
    omega
  | cons change changes ih =>
    have hnext := h.edit change
    have hsize := h.size_eq
    have hpeak := (c.edit change).2.length_le_peak changes
    obtain ⟨order, hholds⟩ := h.holds
    have hgrowth := h.size_of_reslots (hholds.reslots change)
    show ((c.edit change).2.editAll changes).2.slots.size = _
    rw [ih hnext, hgrowth, peak]
    omega

/-- A value comes into the spare slot vacated last, or behind all slots if none is spare. -/
theorem slot_placed (h : Accounted history c) {value : α} {slot : Nat}
    (hreslots : Reslots c d (.push value) (.placed slot)) :
    (∀ other, ¬Spare history other) ∧ slot = c.slots.size ∨
      Spare history slot ∧
        ∀ other, Spare history other → lastVacated history other ≤ lastVacated history slot := by
  have hlatest := h.latest
  cases hreslots with
  | refilled free_eq =>
    rw [free_eq, List.pairwise_cons] at hlatest
    refine .inr ⟨(h.mem_free slot).mp (free_eq ▸ List.mem_cons_self), fun other hother => ?_⟩
    rcases List.mem_cons.mp (free_eq ▸ (h.mem_free other).mpr hother) with rfl | hrest
    · exact Nat.le_refl _
    · exact Nat.le_of_lt (hlatest.1 other hrest)
  | grown full =>
    refine .inl ⟨fun other hother => ?_, rfl⟩
    have hmem := (h.mem_free other).mpr hother
    rw [full] at hmem
    cases hmem
  | kept _ _ _ still => simpa [handsOut] using (still slot).2

end Accounted

/--
However an empty chain is edited, its vacant slots are listed, each once.  Every slot has a node or
is vacant, and there are as many slots as the chain had nodes when it was longest.  A value comes
into the slot vacated last of those that have not been handed out since, or behind all slots if
there is none, and never into a slot that has a node.  No edit reaches for a slot that is not there,
and none counts the nodes below zero.
-/
theorem slots_are_accounted_for (changes : List (Edit α)) :
    ∃ replies c, (empty : Chain α).editAll changes = (replies, c) ∧
      (c.free.Nodup ∧ ∀ slot, slot ∈ c.free ↔ slot < c.slots.size ∧ c.node? slot = none) ∧
      c.slots.size = c.length + c.free.length ∧
      c.slots.size = (empty : Chain α).peak changes ∧
      (∀ value, c.node? (c.push value).1 = none ∧
        ((∀ slot, ¬Spare (changes.zip replies) slot) ∧ (c.push value).1 = c.slots.size ∨
          Spare (changes.zip replies) (c.push value).1 ∧
            ∀ slot, Spare (changes.zip replies) slot →
              lastVacated (changes.zip replies) slot ≤
                lastVacated (changes.zip replies) (c.push value).1)) ∧
      Strict.editAll (empty : Chain α) changes = some (replies, c) := by
  have h := accounted_empty.editAll changes
  rw [List.nil_append] at h
  obtain ⟨order, hholds⟩ := h.holds
  have hsize : (empty.editAll changes).2.slots.size = max 0 ((empty : Chain α).peak changes) :=
    accounted_empty.size_editAll changes
  rw [Nat.zero_max] at hsize
  refine ⟨_, _, rfl, ⟨hholds.free_distinct, fun _ => hholds.vacant⟩, h.size_eq, hsize, ?_,
    Holds.empty.strict_editAll changes⟩
  intro value
  exact ⟨hholds.node?_eq_none_iff.mpr (hholds.push value).1, h.slot_placed (reslots_push _ value)⟩

/-- Of three slots the one that was vacated second is handed out first, and then the other one; a
slot that was never handed out cannot be vacated. -/
theorem slots_are_accounted_for_recycled :
    let changes := [Edit.push "a", .push "b", .push "c", .remove 0, .remove 2, .remove 7, .push "d",
      .move 1]
    ∃ replies c, empty.editAll changes = (replies, c) ∧
      replies = [.placed 0, .placed 1, .placed 2, .removed (some "a"), .removed (some "c"),
        .removed none, .placed 2, .moved true] ∧
      c.free = [0] ∧ c.length = 2 ∧ c.slots.size = 3 ∧ empty.peak changes = 3 ∧
      (c.push "e").1 = 0 ∧ c.node? 0 = none ∧ Spare (changes.zip replies) 0 ∧
      Strict.editAll empty changes = some (replies, c) := by
  intro changes
  have hreplies : (empty.editAll changes).1 = [.placed 0, .placed 1, .placed 2, .removed (some "a"),
      .removed (some "c"), .removed none, .placed 2, .moved true] := by decide
  have hfree : (empty.editAll changes).2.free = [0] := by decide
  have hlength : (empty.editAll changes).2.length = 2 := by decide
  have hslot : ((empty.editAll changes).2.push "e").1 = 0 := by decide
  obtain ⟨replies, c, hrun, -, hsize, hpeak, hpush, hstrict⟩ := slots_are_accounted_for changes
  rw [hrun] at hreplies hfree hlength hslot
  rw [hfree, hlength] at hsize
  obtain ⟨hvacant, hlast⟩ := hpush "e"
  rw [hslot] at hvacant hlast
  refine ⟨replies, c, hrun, hreplies, hfree, hlength, hsize, hpeak ▸ hsize, hslot, hvacant, ?_,
    hstrict⟩
  rcases hlast with ⟨-, hbehind⟩ | ⟨hspare, -⟩
  · rw [hsize] at hbehind
    cases hbehind
  · exact hspare

end Chain

end TtlCache
