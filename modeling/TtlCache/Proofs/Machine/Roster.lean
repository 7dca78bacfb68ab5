import TtlCache.Proofs.Machine.Stacks

/-!
# Operations in progress

The places at which operations stand are listed, so that it can be decided what is going on in a
machine: nothing at all, nothing but providers, or one operation at most that is not in its
provider.  What happens in a run is read off its events one by one.
-/

namespace TtlCache

namespace Machine

variable {layout : Layout} {m n : Machine layout}

def places (m : Machine layout) : List Place :=
  (m.clients.rows.flatMap fun row => (List.range row.2.stack.length).map (Place.client row.1)) ++
    m.passes.keys.map Place.sweeper

theorem mem_places {place : Place} : place ∈ m.places ↔ (m.frameAt place).isSome = true := by
  cases place with
  | client number depth =>
    have hstack : (m.frameAt (.client number depth)).isSome = true ↔
        depth < (m.client number).stack.length := by
      simp [frameAt]
    rw [hstack]
    simp only [places, List.mem_append, List.mem_flatMap, List.mem_map, List.mem_range,
      Place.client.injEq, reduceCtorEq, and_false, exists_false, or_false]
    constructor
    · rintro ⟨⟨_, client⟩, hrow, _, hdepth, rfl, rfl⟩
      rwa [Machine.client, Table.get?_eq_some_iff.mpr hrow]
    · intro hdepth
      cases hclient : m.clients.get? number with
      | none => simp [Machine.client, hclient, Client.idle] at hdepth
      | some client =>
        rw [Machine.client, hclient] at hdepth
        exact ⟨(number, client), Table.get?_eq_some_iff.mp hclient, depth, hdepth, rfl, rfl⟩
  | sweeper generation =>
    simp [places, frameAt, Table.mem_keys_iff]

/-- Nothing goes on but providers. -/
def AtRest (m : Machine layout) : Prop :=
  ∀ place ∈ m.places, (m.frameAt place).all Frame.isProviding = true

instance (m : Machine layout) : Decidable m.AtRest :=
  inferInstanceAs (Decidable (∀ place ∈ m.places, _))

theorem AtRest.isProviding (h : m.AtRest) {place : Place} {frame : Frame}
    (hframe : m.frameAt place = some frame) : frame.isProviding = true := by
  have hall := h place (mem_places.mpr (Option.isSome_of_eq_some hframe))
  rwa [hframe] at hall

/-- Whether there is an operation at a place that is not in its provider. -/
def isActive (m : Machine layout) (place : Place) : Bool :=
  (m.frameAt place).any fun frame => !frame.isProviding

theorem isActive_of_frameAt {place : Place} {frame : Frame} (hframe : m.frameAt place = some frame)
    (hproviding : frame.isProviding = false) : m.isActive place = true := by
  simp [isActive, hframe, hproviding]

/-- At most one operation is not in its provider. -/
def Solitary (m : Machine layout) : Prop :=
  ∀ a ∈ m.places, ∀ b ∈ m.places, m.isActive a = true → m.isActive b = true → a = b

instance (m : Machine layout) : Decidable m.Solitary :=
  inferInstanceAs (Decidable (∀ a ∈ m.places, ∀ b ∈ m.places, _))

theorem Solitary.unique (h : m.Solitary) {a b : Place} {frame other : Frame}
    (ha : m.frameAt a = some frame) (hb : m.frameAt b = some other)
    (hframe : frame.isProviding = false) (hother : other.isProviding = false) : a = b :=
  h a (mem_places.mpr (Option.isSome_of_eq_some ha)) b
    (mem_places.mpr (Option.isSome_of_eq_some hb)) (isActive_of_frameAt ha hframe)
    (isActive_of_frameAt hb hother)

/-! ## What is seen of a run -/

def observe {α : Type} (see : Machine layout -> Event -> Option α) (m : Machine layout) :
    List Event -> List α
  | [] => []
  | event :: events =>
      (see m event).toList ++
        match m.step event with
        | some next => next.observe see events
        | none => []

theorem observe_induction {α : Type} {see : Machine layout -> Event -> Option α}
    {rule : Machine layout -> Event -> Prop} {P : List α → Machine layout → Prop}
    (hkeep : ∀ {seen m n event}, P seen m → rule m event → m.step event = some n →
      P (seen ++ (see m event).toList) n)
    {seen : List α} {events : List Event} (hstart : P seen m) (hheeds : m.Heeds rule events)
    (hrun : m.runAll events = some n) : P (seen ++ m.observe see events) n := by
  induction events generalizing seen m with
  | nil =>
    cases hrun
    rwa [observe, List.append_nil]
  | cons event events ih =>
    obtain ⟨next, hstep, hrest⟩ := Option.bind_eq_some_iff.mp hrun
    rw [observe, hstep, ← List.append_assoc]
    exact ih (hkeep hstart hheeds.1 hstep) (hheeds.2 next hstep) hrest

theorem heeds_of_forall {rule : Machine layout -> Event -> Prop} (h : ∀ m event, rule m event)
    (events : List Event) : m.Heeds rule events := by
  induction events generalizing m with
  | nil => trivial
  | cons event events ih => exact ⟨h m event, fun _ _ => ih⟩

end Machine

end TtlCache
