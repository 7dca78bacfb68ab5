import TtlCache.Proofs.Machine.Custody

/-!
# The ledger of a key

The ledger of a key is what its record says should be stored under it: the entry stored last, with
the deadline to which extensions have moved it since, or nothing after a removal or an eviction.
Expired entries may be dropped without a line, so ledger and store agree only on what is live; but
an entry that is in the store is always the one in the ledger.
-/

namespace TtlCache

variable {layout : Layout}

/-- What a line makes of the entry of a key.  An extension without an entry is none. -/
def Line.settle (key : Key) (line : Line) (entry : Option Entry) : Option Entry :=
  match line.note with
  | .stored k _ new => if k = key then some new else entry
  | .looked k _ (.extend deadline) (some _) =>
      if k = key then entry.map fun entry => entry.extend deadline else entry
  | .looked k _ .forget _ => if k = key then none else entry
  | .evicted k _ => if k = key then none else entry
  | _ => entry

/-- The entry of a key according to a record. -/
def ledger (log : List Line) (key : Key) : Option Entry :=
  log.foldl (fun entry line => line.settle key entry) none

theorem ledger_append (log : List Line) (line : Line) (key : Key) :
    ledger (log ++ [line]) key = line.settle key (ledger log key) := by
  simp [ledger, List.foldl_append]

theorem Line.settle_of_ne {line : Line} {key : Key} (h : line.note.key ≠ key)
    (entry : Option Entry) : line.settle key entry = entry := by
  unfold settle
  split
  all_goals first
    | rfl
    | next heq =>
      rw [heq] at h
      exact if_neg h

/-- A lookup that sees an entry does to the ledger what it does to the store. -/
theorem Line.settle_seen (clock : Instant) (key : Key) (ticket : Nat) (request : Request)
    (seen : Entry) (entry : Option Entry) :
    Line.settle key ⟨clock, .looked key ticket request (some seen)⟩ entry =
      Access.seenAfter request entry := by
  cases request <;> simp [settle, Access.seenAfter]

theorem Line.settle_unseen (clock : Instant) (key : Key) (ticket : Nat) (request : Request)
    (entry : Option Entry) :
    Line.settle key ⟨clock, .looked key ticket request none⟩ entry =
      if request = .forget then none else entry := by
  cases request <;> simp [settle]

/-- What a step does to the store, together with what it writes down. -/
inductive Posted (c : Cache layout) (note : Option Note) (d : Cache layout) : Prop where
  | nothing (same : ∀ key, d.store.get? key = c.store.get? key)
      (quiet : ∀ told key entry clock, note = some told →
        Line.settle key ⟨clock, told⟩ entry = entry)
  | stored (key : Key) (ticket : Nat) (entry : Entry)
      (told : note = some (.stored key ticket entry))
      (after : ∀ k, d.store.get? k = if k = key then some entry else c.store.get? k)
  | looked (key : Key) (ticket : Nat) (request : Request)
      (told : note = some (.looked key ticket request (c.store.get? key)))
      (after : ∀ k, d.store.get? k =
        if k = key then Access.seenAfter request (c.store.get? key) else c.store.get? k)
  | evicted (key : Key) (ticket : Nat) (told : note = some (.evicted key ticket))
      (after : ∀ k, d.store.get? k = if k = key then none else c.store.get? k)
  /-- An expired entry is dropped without a line. -/
  | dropped (key : Key) (told : note = none) (dead : liveAt c.clock (c.store.get? key) = none)
      (after : ∀ k, d.store.get? k = if k = key then none else c.store.get? k)

/-- The store has what the ledger has, up to expired entries. -/
structure Balanced (log : List Line) (c : Cache layout) : Prop where
  stored : ∀ {key entry}, c.store.get? key = some entry → ledger log key = some entry
  dead : ∀ {key}, c.store.get? key = none → liveAt c.clock (ledger log key) = none

namespace Balanced

variable {c d : Cache layout} {log : List Line} {note : Option Note}

theorem liveAt_eq (h : Balanced log c) (key : Key) :
    liveAt c.clock (c.store.get? key) = liveAt c.clock (ledger log key) := by
  cases hget : c.store.get? key with
  | none => exact (h.dead hget).symm
  | some entry => rw [h.stored hget]

theorem later (h : Balanced log c) (hget : ∀ key, d.store.get? key = c.store.get? key)
    (hclock : c.clock.nanos ≤ d.clock.nanos) : Balanced log d where
  stored := by
    intro key entry hentry
    rw [hget] at hentry
    exact h.stored hentry
  dead := by
    intro key hnone
    rw [hget] at hnone
    rw [liveAt_eq_none_iff]
    intro entry hentry
    exact Entry.isExpired_mono (liveAt_eq_none_iff.mp (h.dead hnone) entry hentry) hclock

theorem of_line (h : Balanced log c) {line : Line} {key : Key} {after : Option Entry}
    (hkey : line.note.key = key) (hclock : d.clock = c.clock)
    (hafter : ∀ k, d.store.get? k = if k = key then after else c.store.get? k)
    (hstored : ∀ entry, after = some entry → line.settle key (ledger log key) = some entry)
    (hdead : after = none → liveAt c.clock (line.settle key (ledger log key)) = none) :
    Balanced (log ++ [line]) d where
  stored := by
    intro k entry hentry
    rw [hafter] at hentry
    rw [ledger_append]
    by_cases hk : k = key
    · rw [if_pos hk] at hentry
      rw [hk]
      exact hstored entry hentry
    · rw [if_neg hk] at hentry
      rw [Line.settle_of_ne (by rw [hkey]; exact Ne.symm hk)]
      exact h.stored hentry
  dead := by
    intro k hnone
    rw [hafter] at hnone
    rw [ledger_append, hclock]
    by_cases hk : k = key
    · rw [if_pos hk] at hnone
      rw [hk]
      exact hdead hnone
    · rw [if_neg hk] at hnone
      rw [Line.settle_of_ne (by rw [hkey]; exact Ne.symm hk)]
      exact h.dead hnone

theorem post (h : Balanced log c) (hposted : Posted c note d) (hclock : d.clock = c.clock) :
    Balanced (log ++ c.write note) d := by
  cases hposted with
  | nothing same quiet =>
    have hsame := h.later same (Nat.le_of_eq (by rw [hclock]))
    cases note with
    | none =>
      rw [Cache.write_none, List.append_nil]
      exact hsame
    | some told =>
      refine ⟨fun hentry => ?_, fun hnone => ?_⟩
      · rw [Cache.write_some, ledger_append, quiet told _ _ _ rfl]
        exact hsame.stored hentry
      · rw [Cache.write_some, ledger_append, quiet told _ _ _ rfl]
        exact hsame.dead hnone
  | stored key ticket entry told after =>
    rw [told, Cache.write_some]
    refine h.of_line (show _ = key from rfl) hclock after ?_ (by simp)
    intro other hother
    rw [← hother]
    exact if_pos rfl
  | looked key ticket request told after =>
    rw [told, Cache.write_some]
    refine h.of_line (show _ = key from rfl) hclock after ?_ ?_
    · intro entry hentry
      cases hseen : c.store.get? key with
      | none => rw [hseen] at hentry; cases request <;> cases hentry
      | some seen => rw [Line.settle_seen, h.stored hseen, ← hseen, hentry]
    · intro hnone
      cases hseen : c.store.get? key with
      | none =>
        rw [Line.settle_unseen]
        split
        · rfl
        · exact h.dead hseen
      | some seen =>
        rw [Line.settle_seen, h.stored hseen, ← hseen, hnone]
        rfl
  | evicted key ticket told after =>
    rw [told, Cache.write_some]
    refine h.of_line (show _ = key from rfl) hclock after (by simp) fun _ => ?_
    simp [Line.settle, liveAt]
  | dropped key told dead after =>
    rw [told, Cache.write_none, List.append_nil]
    refine ⟨fun {k entry} hentry => ?_, fun {k} hnone => ?_⟩
    · rw [after] at hentry
      split at hentry
      · cases hentry
      · exact h.stored hentry
    · rw [after] at hnone
      rw [hclock]
      split at hnone
      · next hk =>
        rw [hk, ← h.liveAt_eq]
        exact dead
      · exact h.dead hnone

end Balanced

/-! ## Steps -/

namespace Posted

variable {c d : Cache layout} {note : Option Note}

theorem of_none (hstore : d.store = c.store) : Posted c none d :=
  .nothing (fun key => by rw [hstore]) fun told _ _ _ htold =>
    absurd htold (Option.not_mem_none told)

theorem of_quiet {told : Note} (hstore : d.store = c.store)
    (hquiet : ∀ key entry clock, Line.settle key ⟨clock, told⟩ entry = entry) :
    Posted c (some told) d := by
  refine .nothing (fun key => by rw [hstore]) ?_
  intro other key entry clock hother
  cases hother
  exact hquiet key entry clock

theorem of_effect {effect : Effect} (h : effect.apply c = some d)
    (hkeeps : effect.overwrites = false) : Posted c none d := by
  cases effect with
  | wake =>
    obtain ⟨sweeper, -, rfl⟩ := Option.map_eq_some_iff.mp h
    exact .of_none rfl
  | use key => cases h; exact .of_none rfl
  | untrack key => cases h; exact .of_none rfl
  | count counter => cases h; exact .of_none rfl
  | erase key => cases hkeeps
  | put key value deadline => cases hkeeps

theorem of_erase {ticket : Nat} {key : Key} {todo : List Effect} {excused : Key -> Prop}
    (h : (Effect.erase key).apply c = some d)
    (hkept : Hold.Kept ⟨ticket, key, .erase key :: todo, true⟩ c excused) : Posted c none d := by
  cases h
  refine .dropped key rfl ?_ (Store.get?_erase c.store key)
  rw [liveAt_eq_none_iff]
  exact hkept.doomed rfl

end Posted

theorem Access.posted_step {a : Access} {c d : Cache layout} {progress : Progress Access}
    {excused : Key -> Prop} (h : a.step c = some (d, progress))
    (hkept : ∀ hold ∈ a.holds, hold.Kept c excused) : Posted c (a.note? c) d := by
  cases stride_of_step h with
  | register => exact .of_none rfl
  | acquire acquired => exact .of_quiet rfl fun _ _ _ => rfl
  | @look key request ticket =>
    exact .looked key ticket request rfl (get?_look ⟨key, request, .look ticket⟩ c ticket)
  | missed => exact .of_quiet rfl fun _ _ _ => rfl
  | @effect key request ticket effect todo answer after applied =>
    have hmine : Hold.Kept ⟨ticket, key, effect :: todo, effect.overwrites⟩ c excused :=
      hkept _ List.mem_cons_self
    cases effect with
    | put k value deadline =>
      cases applied
      exact .stored k ticket _ rfl fun other => Store.get?_insert c.store k other _
    | erase k =>
      have hkey : key = k := hmine.own (.erase k) List.mem_cons_self k rfl
      subst hkey
      exact .of_erase applied hmine
    | use k => exact .of_effect applied rfl
    | untrack k => exact .of_effect applied rfl
    | count counter => exact .of_effect applied rfl
    | wake => exact .of_effect applied rfl
  | unregister => exact .of_none rfl
  | panic => exact .of_none rfl
  | release => exact .of_quiet rfl fun _ _ _ => rfl

theorem Pass.posted_step {p : Pass} {who : Worker} {c d : Cache layout} {progress : Progress Pass}
    {excused : Key -> Prop} (h : p.step who c = some (d, progress)) (hsheds : p.Sheds)
    (hkept : ∀ hold ∈ p.holds, hold.Kept c excused) : Posted c p.note? d := by
  cases stride_of_step h with
  | acquire acquired => exact .of_quiet rfl fun _ _ _ => rfl
  | dismiss => exact .of_none (giveUp_spec c _ _ _ _).1
  | @effect effect todo mark marks after applied =>
    cases hsheds.next with
    | erase =>
      cases hremoval : mark.removal with
      | expired =>
        have hmine : Hold.Kept ⟨mark.ticket, mark.key,
            [.erase mark.key, .untrack mark.key, .count mark.removal.counter], true⟩ c excused :=
          hkept _ (by simp [holds, Mark.isExpired, hremoval, overwritesFirst, Effect.overwrites])
        simp only [note?, hremoval]
        exact .of_erase applied hmine
      | evicted =>
        cases applied
        simp only [note?, hremoval, if_true]
        exact .evicted mark.key mark.ticket rfl (Store.get?_erase c.store mark.key)
    | untrack => exact .of_effect applied rfl
    | count => exact .of_effect applied rfl
  | removed => exact .of_none (giveUp_spec c _ _ _ _).1
  | unwind => exact .of_none (giveUp_spec c _ _ _ _).1
  | _ => exact .of_none rfl

/-- What a step does to the store is what it writes down, up to expired entries. -/
theorem Frame.posted_step {frame : Frame} {who : Worker} {c d : Cache layout}
    {progress : Progress Frame} {excused : Key -> Prop} (h : frame.step who c = some (d, progress))
    (hsheds : frame.Sheds) (hkept : ∀ hold ∈ frame.holds, hold.Kept c excused) :
    Posted c (frame.note? c) d := by
  cases stride_of_step h with
  | access step => exact Access.posted_step step hkept
  | pass step => exact Pass.posted_step step hsheds hkept
  | clock => exact .of_none rfl
  | take => exact .of_none rfl
  | taken => exact .of_none rfl

end TtlCache
