import TtlCache.Proofs.Machine.Strides
import TtlCache.Proofs.Machine.Places

/-!
# Stacks of operations

A client may ask for something while one of its providers runs, so its operations form a stack.
`Machine.restack_of_step` says once how an event changes such a stack.  It follows that every
operation below the innermost one waits in its provider, and that keys grow from the outermost to
the innermost operation if every provider asks for keys above its own.
-/

namespace TtlCache

variable {layout : Layout}

namespace Frame

def key? : Frame -> Option Key
  | .access a => some a.key
  | _ => none

def request? : Frame -> Option Request
  | .access a => some a.request
  | _ => none

def isPass : Frame -> Bool
  | .pass _ => true
  | _ => false

/-- An operation does not change its key, its request or its kind. -/
structure Kin (frame next : Frame) : Prop where
  key?_eq : next.key? = frame.key?
  request?_eq : next.request? = frame.request?
  isPass_eq : next.isPass = frame.isPass

theorem kin_of_step {frame next : Frame} {who : Worker} {c d : Cache layout}
    (h : frame.step who c = some (d, .more next)) : frame.Kin next := by
  generalize hprogress : Progress.more next = progress at h
  cases stride_of_step h with
  | @access a d progress step =>
    cases Access.stride_of_step step <;> cases hprogress <;> constructor <;> rfl
  | @pass p d progress step =>
    cases progress <;> cases hprogress
    exact ⟨rfl, rfl, rfl⟩
  | clock => cases hprogress; exact ⟨rfl, rfl, rfl⟩
  | take => cases hprogress; exact ⟨rfl, rfl, rfl⟩
  | taken => cases hprogress

end Frame

theorem Access.exists_afterProvider {a next : Access} {now : Instant} {outcome : Outcome}
    (h : a.afterProvider now outcome = some next) : ∃ point, next = { a with point := point } := by
  unfold afterProvider at h
  split at h
  · split at h
    · split at h <;> cases h
      exact ⟨_, rfl⟩
    · cases h
      exact ⟨_, rfl⟩
    · cases h
      exact ⟨_, rfl⟩
  · cases h

theorem Access.key_afterProvider {a next : Access} {now : Instant} {outcome : Outcome}
    (h : a.afterProvider now outcome = some next) : next.key = a.key := by
  obtain ⟨point, rfl⟩ := exists_afterProvider h
  rfl

namespace Machine

/-! ## How a stack changes -/

/-- What an event can make of the stack of a client. -/
inductive Restack (m : Machine layout) (event : Event) (number : Nat) (stack : List Frame) :
    Prop where
  | same (stack_eq : stack = (m.client number).stack)
  | pushed {request : Call} {frame : Frame} (event_eq : event = .call number request)
      (opened : opening request = .more frame) (mayCall : (m.client number).mayCall = true)
      (handles : 0 < m.clientHandles) (stack_eq : stack = frame :: (m.client number).stack)
  | replaced {frame next : Frame} {outer : List Frame}
      (was : (m.client number).stack = frame :: outer) (kin : frame.Kin next)
      (stack_eq : stack = next :: outer)
  | popped {frame : Frame} {outer : List Frame} (was : (m.client number).stack = frame :: outer)
      (stack_eq : stack = outer)

theorem stack_setClient_of_ne {m : Machine layout} {number other : Nat} (client : Client)
    (h : other ≠ number) : ((m.setClient number client).client other).stack =
      (m.client other).stack := by
  rw [client_setClient, if_neg h]

theorem restack_of_call {m n : Machine layout} {number : Nat} {request : Call}
    (h : m.call number request = some n) (other : Nat) :
    m.Restack (.call number request) other (n.client other).stack := by
  unfold call at h
  simp only [Option.ite_none_right_eq_some, Bool.and_eq_true, decide_eq_true_eq] at h
  obtain ⟨⟨hcall, hhandles⟩, h⟩ := h
  cases hopening : opening request with
  | more frame =>
    simp only [hopening, Option.some.injEq] at h
    subst h
    by_cases hother : other = number
    · subst hother
      refine .pushed rfl hopening hcall hhandles ?_
      rw [client_setClient, if_pos rfl]
    · exact .same (stack_setClient_of_ne _ hother)
  | done answer =>
    simp only [hopening, Option.some.injEq] at h
    subst h
    refine .same ?_
    by_cases hother : other = number
    · rw [client_setClient, if_pos hother, hother]
    · exact stack_setClient_of_ne _ hother

theorem restack_of_provide {m n : Machine layout} {number : Nat} {outcome : Outcome}
    (h : m.provide number outcome = some n) (other : Nat) :
    m.Restack (.provide number outcome) other (n.client other).stack := by
  simp only [provide] at h
  split at h
  · next access outer hstack =>
    obtain ⟨next, hafter, rfl⟩ := Option.map_eq_some_iff.mp h
    by_cases hother : other = number
    · subst hother
      have hkin : (Frame.access access).Kin (.access next) := by
        obtain ⟨point, rfl⟩ := Access.exists_afterProvider hafter
        exact ⟨rfl, rfl, rfl⟩
      refine .replaced hstack hkin ?_
      rw [client_setClient, if_pos rfl]
    · exact .same (stack_setClient_of_ne _ hother)
  · cases h

theorem restack_of_runClient {m n : Machine layout} {number : Nat}
    (h : m.runClient number = some n) (other : Nat) :
    m.Restack (.run (.client number)) other (n.client other).stack := by
  simp only [runClient] at h
  split at h
  · cases h
  · next frame outer hstack =>
    simp only [Option.map_eq_some_iff, Prod.exists] at h
    obtain ⟨cache, progress, hstep, hn⟩ := h
    by_cases hother : other = number
    · subst hother
      cases progress with
      | more next =>
        refine .replaced hstack (Frame.kin_of_step hstep) ?_
        rw [← hn, client_setClient, if_pos rfl]
      | done answer =>
        refine .popped hstack ?_
        rw [← hn, client_setClient, if_pos rfl]
    · refine .same ?_
      cases progress <;> subst hn <;> exact stack_setClient_of_ne _ hother

theorem clients_runPass {m n : Machine layout} {generation : Nat}
    (h : m.runPass generation = some n) : n.clients = m.clients := by
  unfold runPass at h
  split at h
  · split at h
    · obtain ⟨sweeper, -, rfl⟩ := Option.map_eq_some_iff.mp h
      rfl
    · cases h
      rfl
  · simp only [Option.bind_eq_some_iff, Prod.exists] at h
    obtain ⟨cache, progress, -, hn⟩ := h
    cases progress with
    | more next =>
      cases hn
      rfl
    | done answer => exact (endPass_spec hn).1

theorem clients_runSweeper {m n : Machine layout} {generation : Nat}
    (h : m.runSweeper generation = some n) : n.clients = m.clients := by
  unfold runSweeper at h
  split at h
  · exact clients_runPass h
  · obtain ⟨sweeper, -, rfl⟩ := Option.map_eq_some_iff.mp h
    rfl

/-- An event changes the stack of at most one client, and there at most the innermost operation. -/
theorem restack_of_step {m n : Machine layout} {event : Event} (h : m.step event = some n)
    (number : Nat) : m.Restack event number (n.client number).stack := by
  have same : n.clients = m.clients → m.Restack event number (n.client number).stack :=
    fun hclients => .same (by rw [client_congr hclients])
  cases event with
  | call other request => exact restack_of_call h number
  | provide other outcome => exact restack_of_provide h number
  | run worker =>
    cases worker with
    | client other => exact restack_of_runClient h number
    | sweeper generation => exact same (clients_runSweeper h)
  | tick elapsed =>
    obtain ⟨clock, -, rfl⟩ := Option.map_eq_some_iff.mp h
    exact same rfl
  | attach =>
    simp only [step, Option.ite_none_right_eq_some, Option.some.injEq] at h
    obtain ⟨-, rfl⟩ := h
    exact same rfl
  | detach =>
    simp only [step, Option.ite_none_right_eq_some] at h
    obtain ⟨cache, -, rfl⟩ := Option.map_eq_some_iff.mp h.2
    exact same rfl
  | reorder shard rows =>
    obtain ⟨store, -, rfl⟩ := Option.map_eq_some_iff.mp h
    exact same rfl

/-! ## Innermost operations -/

/-- The operation of a thread that takes its next step. -/
def top? (m : Machine layout) : Worker -> Option Frame
  | .client number => (m.client number).stack.head?
  | .sweeper generation => (m.passes.get? generation).map .pass

theorem mem_stack_of_frameAt {m : Machine layout} {number depth : Nat} {frame : Frame}
    (h : m.frameAt (.client number depth) = some frame) : frame ∈ (m.client number).stack :=
  List.mem_reverse.mp (List.mem_of_getElem? h)

theorem frameAt_of_mem_stack {m : Machine layout} {number : Nat} {frame : Frame}
    (h : frame ∈ (m.client number).stack) :
    ∃ depth, m.frameAt (.client number depth) = some frame :=
  List.getElem?_of_mem (List.mem_reverse.mpr h)

theorem frameAt_of_top? {m : Machine layout} {worker : Worker} {frame : Frame}
    (h : m.top? worker = some frame) : ∃ place : Place, place.worker = worker ∧
      m.frameAt place = some frame := by
  cases worker with
  | client number =>
    obtain ⟨depth, hframe⟩ := frameAt_of_mem_stack (List.mem_of_mem_head? h)
    exact ⟨.client number depth, rfl, hframe⟩
  | sweeper generation => exact ⟨.sweeper generation, rfl, h⟩

/-- Every operation below the innermost one of a client waits in its provider. -/
def Nested (m : Machine layout) : Prop :=
  ∀ number frame, frame ∈ (m.client number).stack.tail → frame.isProviding = true

theorem nested_ofConfig (config : Config) (clock : Instant) :
    (ofConfig layout config clock).Nested := by
  intro number frame hframe
  cases hframe

namespace Nested

variable {m n : Machine layout} {event : Event}

theorem step (h : m.Nested) (hstep : m.step event = some n) : n.Nested := by
  intro number frame hframe
  cases restack_of_step hstep number with
  | same stack_eq =>
    rw [stack_eq] at hframe
    exact h number frame hframe
  | @pushed request top event_eq opened mayCall handles stack_eq =>
    rw [stack_eq, List.tail_cons] at hframe
    cases hstack : (m.client number).stack with
    | nil =>
      rw [hstack] at hframe
      cases hframe
    | cons inner outer =>
      rw [hstack] at hframe
      rcases List.mem_cons.mp hframe with rfl | houter
      · simpa [Client.mayCall, Client.isProviding, hstack] using mayCall
      · exact h number frame (hstack ▸ houter)
  | replaced was kin stack_eq =>
    rw [stack_eq] at hframe
    exact h number frame (was ▸ hframe)
  | popped was stack_eq =>
    rw [stack_eq] at hframe
    exact h number frame (was ▸ List.mem_of_mem_tail hframe)

theorem top?_eq (h : m.Nested) {place : Place} {frame : Frame}
    (hframe : m.frameAt place = some frame) (hproviding : frame.isProviding = false) :
    m.top? place.worker = some frame := by
  cases place with
  | sweeper generation => exact hframe
  | client number depth =>
    have hmem := mem_stack_of_frameAt hframe
    cases hstack : (m.client number).stack with
    | nil =>
      rw [hstack] at hmem
      cases hmem
    | cons inner outer =>
      rw [hstack] at hmem
      rcases List.mem_cons.mp hmem with rfl | houter
      · simp [top?, Place.worker, hstack]
      · rw [h number frame (hstack ▸ houter)] at hproviding
        cases hproviding

end Nested

/-! ## Rules -/

/-- Whether every event of a run keeps a rule at its time. -/
def Heeds (m : Machine layout) (rule : Machine layout -> Event -> Prop) : List Event -> Prop
  | [] => True
  | event :: events => rule m event ∧ ∀ n, m.step event = some n → n.Heeds rule events

instance decidableHeeds (rule : Machine layout -> Event -> Prop)
    [∀ m event, Decidable (rule m event)] :
    (m : Machine layout) → (events : List Event) → Decidable (m.Heeds rule events)
  | _, [] => isTrue trivial
  | m, event :: events =>
    match hstep : m.step event with
    | none =>
        decidable_of_iff (rule m event)
          ⟨fun h => ⟨h, fun n hn => absurd (hstep.symm.trans hn) (by simp)⟩, And.left⟩
    | some next =>
        have := decidableHeeds rule next events
        decidable_of_iff (rule m event ∧ next.Heeds rule events)
          ⟨fun h => ⟨h.1, fun n hn => Option.some.inj (hstep.symm.trans hn) ▸ h.2⟩,
            fun h => ⟨h.1, h.2 next hstep⟩⟩

theorem heeds_induction {rule : Machine layout -> Event -> Prop} {P : Machine layout → Prop}
    (hkeep : ∀ {m n event}, P m → rule m event → m.step event = some n → P n)
    {m n : Machine layout} {events : List Event} (hstart : P m) (hheeds : m.Heeds rule events)
    (hrun : m.runAll events = some n) : P n := by
  induction events generalizing m with
  | nil =>
    cases hrun
    exact hstart
  | cons event events ih =>
    obtain ⟨next, hstep, hrest⟩ := Option.bind_eq_some_iff.mp hrun
    exact ih (hkeep hstart hheeds.1 hstep) (hheeds.2 next hstep) hrest

theorem run_induction {P : Machine layout → Prop}
    (hkeep : ∀ {m n event}, P m → m.step event = some n → P n) {m n : Machine layout}
    {events : List Event} (hstart : P m) (hrun : m.runAll events = some n) : P n := by
  induction events generalizing m with
  | nil =>
    cases hrun
    exact hstart
  | cons event events ih =>
    obtain ⟨next, hstep, hrest⟩ := Option.bind_eq_some_iff.mp hrun
    exact ih (hkeep hstart hstep) hrest

/-- The providers of a client ask for nothing. -/
def AsksAlone (m : Machine layout) : Event -> Prop
  | .call number _ => (m.client number).stack = []
  | _ => True

/-- Whether something may be asked for by a provider of `key`: it concerns a key above that one. -/
def Call.Above (above : Key -> Key -> Prop) (key : Key) : Call -> Prop
  | .access other _ => above other key
  | .purge => False
  | .statistics => True

/-- The provider of a key asks for nothing but keys above its own. -/
def AsksAbove (above : Key -> Key -> Prop) (m : Machine layout) : Event -> Prop
  | .call number request =>
      ∀ a outer, (m.client number).stack = .access a :: outer → Call.Above above a.key request
  | _ => True

instance decidableAsksAlone (m : Machine layout) : (event : Event) → Decidable (m.AsksAlone event)
  | .call number _ => inferInstanceAs (Decidable ((m.client number).stack = []))
  | .provide _ _ | .run _ | .tick _ | .attach | .detach | .reorder _ _ => isTrue trivial

instance Call.decidableAbove (above : Key -> Key -> Prop) [DecidableRel above] (key : Key) :
    (call : Call) → Decidable (Call.Above above key call)
  | .access other _ => inferInstanceAs (Decidable (above other key))
  | .purge => isFalse id
  | .statistics => isTrue trivial

instance decidableAsksAbove (above : Key -> Key -> Prop) [DecidableRel above]
    (m : Machine layout) : (event : Event) → Decidable (m.AsksAbove above event)
  | .call number request =>
    match hstack : (m.client number).stack with
    | .access a :: outer =>
        decidable_of_iff (Call.Above above a.key request)
          ⟨fun h b rest heq => by cases hstack.symm.trans heq; exact h, fun h => h a outer hstack⟩
    | [] | .pass _ :: _ | .clock :: _ | .taking _ :: _ =>
        isTrue fun a outer heq => by cases hstack.symm.trans heq
  | .provide _ _ | .run _ | .tick _ | .attach | .detach | .reorder _ _ => isTrue trivial

theorem AsksAlone.asksAbove {m : Machine layout} {event : Event} (above : Key -> Key -> Prop)
    (h : m.AsksAlone event) : m.AsksAbove above event := by
  cases event with
  | call number request =>
    intro a outer hstack
    rw [show (m.client number).stack = [] from h] at hstack
    cases hstack
  | _ => trivial

theorem Heeds.mono {first second : Machine layout -> Event -> Prop}
    (hle : ∀ m event, first m event → second m event) {m : Machine layout} {events : List Event}
    (h : m.Heeds first events) : m.Heeds second events := by
  induction events generalizing m with
  | nil => trivial
  | cons event events ih =>
    exact ⟨hle m event h.1, fun n hstep => ih (h.2 n hstep)⟩

/-- What is true of an operation and one further out on the same stack. -/
structure Climbs (above : Key -> Key -> Prop) (inner outer : Frame) : Prop where
  noPass : inner.isPass = false
  keys : ∀ {high low}, inner.key? = some high → outer.key? = some low → above high low

/-- Keys grow from the outermost to the innermost operation, and only the outermost is a pass. -/
def Ordered (above : Key -> Key -> Prop) (m : Machine layout) : Prop :=
  ∀ number, (m.client number).stack.Pairwise (Climbs above)

theorem ordered_ofConfig (above : Key -> Key -> Prop) (config : Config) (clock : Instant) :
    (ofConfig layout config clock).Ordered above :=
  fun _ => List.Pairwise.nil

theorem climbs_of_opening {above : Key -> Key -> Prop} {request : Call} {frame : Frame}
    {a : Access} (hopening : opening request = .more frame)
    (habove : Call.Above above a.key request) : Climbs above frame (.access a) := by
  unfold opening at hopening
  split at hopening
  · split at hopening <;> cases hopening
    exact ⟨rfl, by rintro high low ⟨⟩ ⟨⟩; exact habove⟩
  · cases hopening
    exact ⟨rfl, by rintro high low ⟨⟩ ⟨⟩; exact habove⟩
  · exact habove.elim
  · cases hopening
    exact ⟨rfl, by rintro high low ⟨⟩⟩

namespace Ordered

variable {above : Key -> Key -> Prop} {m n : Machine layout} {event : Event}

theorem step [IsTrans Key above] (h : m.Ordered above) (hrule : m.AsksAbove above event)
    (hstep : m.step event = some n) : n.Ordered above := by
  intro number
  cases restack_of_step hstep number with
  | same stack_eq =>
    rw [stack_eq]
    exact h number
  | @pushed request frame event_eq opened mayCall handles stack_eq =>
    rw [stack_eq]
    cases hstack : (m.client number).stack with
    | nil => exact List.pairwise_singleton _ _
    | cons inner outer =>
      have horder := h number
      rw [hstack] at horder
      have hproviding : inner.isProviding = true := by
        simpa [Client.mayCall, Client.isProviding, hstack] using mayCall
      cases inner with
      | access a =>
        subst event_eq
        have hfirst := climbs_of_opening opened (hrule a outer hstack)
        refine List.Pairwise.cons ?_ horder
        intro below hbelow
        rcases List.mem_cons.mp hbelow with rfl | houter
        · exact hfirst
        · -- the provider that asks stands above all others already
          refine ⟨hfirst.noPass, fun {high low} hhigh hlow => ?_⟩
          have hsecond := (List.pairwise_cons.mp horder).1 below houter
          exact IsTrans.trans _ _ _ (hfirst.keys hhigh rfl) (hsecond.keys rfl hlow)
      | pass p => cases hproviding
      | clock => cases hproviding
      | taking taking => cases hproviding
  | replaced was kin stack_eq =>
    have horder := h number
    rw [was, List.pairwise_cons] at horder
    rw [stack_eq, List.pairwise_cons]
    refine ⟨fun below hbelow => ?_, horder.2⟩
    have hclimbs := horder.1 below hbelow
    exact ⟨kin.isPass_eq.trans hclimbs.noPass,
      fun hhigh => hclimbs.keys (kin.key?_eq ▸ hhigh)⟩
  | popped was stack_eq =>
    have horder := h number
    rw [was, List.pairwise_cons] at horder
    rw [stack_eq]
    exact horder.2

theorem climbs (h : m.Ordered above) {number depth : Nat} {frame top : Frame}
    (hframe : m.frameAt (.client number depth) = some frame)
    (htop : m.top? (.client number) = some top) : frame = top ∨ Climbs above top frame := by
  have hmem := mem_stack_of_frameAt hframe
  have horder := h number
  simp only [top?] at htop
  cases hstack : (m.client number).stack with
  | nil =>
    rw [hstack] at htop
    cases htop
  | cons inner outer =>
    rw [hstack] at hmem horder htop
    cases htop
    rcases List.mem_cons.mp hmem with rfl | houter
    · exact Or.inl rfl
    · exact Or.inr ((List.pairwise_cons.mp horder).1 frame houter)

end Ordered

end Machine

end TtlCache
