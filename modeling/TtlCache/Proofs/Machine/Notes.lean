import TtlCache.Proofs.Machine.Places

/-!
# The record of a run

A run is written down line by line: who was granted a key, what a lookup saw, when a provider began
and what it returned, what was stored and evicted, and what was answered.  A line has the time of
its event and names the guard under which it happened.  The record is read off the events and adds
nothing to the machine.
-/

namespace TtlCache

variable {layout : Layout}

/-- What is worth writing down about a key; `ticket` names the guard of the operation. -/
inductive Note where
  | granted (key : Key) (ticket : Nat)
  | looked (key : Key) (ticket : Nat) (request : Request) (seen : Option Entry)
  | provided (key : Key) (ticket : Nat) (request : Request)
  /-- A provider comes to a value, which is to live for `ttl`. -/
  | returned (key : Key) (ticket : Nat) (value : Value) (ttl : Duration)
  | stored (key : Key) (ticket : Nat) (entry : Entry)
  | evicted (key : Key) (ticket : Nat)
  | answered (key : Key) (ticket : Nat) (answer : Answer)
  deriving DecidableEq, Repr

namespace Note

def key : Note -> Key
  | granted key _ | looked key _ _ _ | provided key _ _ | returned key _ _ _ | stored key _ _
  | evicted key _ | answered key _ _ => key

def ticket : Note -> Nat
  | granted _ ticket | looked _ ticket _ _ | provided _ ticket _ | returned _ ticket _ _
  | stored _ ticket _ | evicted _ ticket | answered _ ticket _ => ticket

end Note

/-- A note and the time of its event. -/
structure Line where
  clock : Instant
  note : Note
  deriving DecidableEq, Repr

def Access.note? (a : Access) (c : Cache layout) : Option Note :=
  match a.point with
  | .acquire ticket => some (.granted a.key ticket)
  | .look ticket => some (.looked a.key ticket a.request (c.store.get? a.key))
  | .missed ticket _ => some (.provided a.key ticket a.request)
  | .perform ticket (.put key value deadline :: _) _ =>
      some (.stored key ticket { value := value, deadline := deadline })
  | .release ticket answer => some (.answered a.key ticket answer)
  | _ => none

def Access.returned? (a : Access) (outcome : Outcome) : Option Note :=
  match a.point, a.request, outcome with
  | .provide ticket _, .create _ ttl, .value value => some (.returned a.key ticket value ttl)
  | _, _, _ => none

def Pass.note? : Pass -> Option Note
  | .acquire _ ticket key _ _ => some (.granted key ticket)
  | .remove (.erase key :: _) mark _ =>
      if mark.removal = .evicted then some (.evicted key mark.ticket) else none
  | _ => none

def Frame.note? (c : Cache layout) : Frame -> Option Note
  | .access a => a.note? c
  | .pass p => p.note?
  | .clock | .taking _ => none

def Frame.returned? (outcome : Outcome) : Frame -> Option Note
  | .access a => a.returned? outcome
  | _ => none

def Cache.write (c : Cache layout) (note : Option Note) : List Line :=
  note.toList.map fun told => { clock := c.clock, note := told }

theorem Cache.write_none (c : Cache layout) : c.write none = [] := rfl

theorem Cache.write_some (c : Cache layout) (told : Note) :
    c.write (some told) = [{ clock := c.clock, note := told }] := rfl

namespace Machine

def note? (m : Machine layout) (event : Event) : Option Note :=
  ((m.acting event).bind m.frameAt).bind fun frame =>
    match event with
    | .provide _ outcome => frame.returned? outcome
    | _ => frame.note? m.cache

def lines (m : Machine layout) (event : Event) : List Line := m.cache.write (m.note? event)

def record (m : Machine layout) : List Event -> List Line
  | [] => []
  | event :: events =>
      m.lines event ++
        match m.step event with
        | some next => next.record events
        | none => []

def creation (number : Nat) (key : Key) (ttl : Duration) (value : Value) : List Event :=
  [.call number (.access key (.create value.kind ttl))] ++
    List.replicate 4 (.run (.client number)) ++
    [.provide number (.value value)] ++
    List.replicate 5 (.run (.client number))

theorem note?_of_aside {m : Machine layout} {event : Event} (h : m.acting event = none) :
    m.note? event = none := by
  rw [note?, h]
  rfl

theorem note?_of_provide {m : Machine layout} {event : Event} {place : Place} {frame : Frame}
    {outcome : Outcome} (hacting : m.acting event = some place)
    (hframe : m.frameAt place = some frame) (hevent : ∃ number, event = .provide number outcome) :
    m.note? event = frame.returned? outcome := by
  obtain ⟨number, rfl⟩ := hevent
  simp only [note?, hacting, Option.bind_some, hframe]

theorem note?_of_run {m : Machine layout} {event : Event} {place : Place} {frame : Frame}
    (hacting : m.acting event = some place) (hframe : m.frameAt place = some frame)
    (hevent : ∃ worker, event = .run worker) : m.note? event = frame.note? m.cache := by
  obtain ⟨worker, rfl⟩ := hevent
  simp only [note?, hacting, Option.bind_some, hframe]

theorem record_induction {P : List Line → Machine layout → Prop}
    (hstep : ∀ {log m n event}, P log m → m.step event = some n → P (log ++ m.lines event) n)
    {m n : Machine layout} {events : List Event} (hstart : P [] m)
    (hrun : m.runAll events = some n) : P (m.record events) n := by
  -- along the run, the record so far stands in front of the record of the rest
  have along : ∀ events log m, P log m → runAll m events = some n →
      P (log ++ record m events) n := by
    intro events
    induction events with
    | nil =>
      intro log m h hrun
      cases hrun
      rw [record, List.append_nil]
      exact h
    | cons event events ih =>
      intro log m h hrun
      obtain ⟨next, hnext, hrest⟩ := Option.bind_eq_some_iff.mp hrun
      have hlater := ih _ next (hstep h hnext) hrest
      rw [record, hnext, ← List.append_assoc]
      exact hlater
  exact along events [] m hstart hrun

end Machine

end TtlCache
