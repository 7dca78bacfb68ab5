import TtlCache.Proofs.Machine.Panics

/-!
# Passes that providers ask for

A key stays locked while its provider runs, and so do the keys of the operations that the provider
runs inside of.  A pass that the provider asks for visits every stored key and every key that the
evictor is to be rid of.  If none of them is locked by the client itself, the pass comes to its end
and the value is stored afterwards.  Otherwise the pass waits at the first one for an operation that
waits for the pass, and neither ever goes on.
-/

namespace TtlCache

variable {layout : Layout}

theorem exists_first_mem {keys others : List Key} (h : ∃ key ∈ keys, key ∈ others) :
    ∃ before key after, keys = before ++ key :: after ∧ key ∈ others ∧
      ∀ earlier ∈ before, earlier ∉ others := by
  obtain ⟨key, hkey, hother⟩ := h
  have hsome : (keys.find? fun key => decide (key ∈ others)).isSome = true :=
    List.find?_isSome.mpr ⟨key, hkey, decide_eq_true hother⟩
  obtain ⟨first, hfirst⟩ := Option.isSome_iff_exists.mp hsome
  obtain ⟨hmem, before, after, heq, hbefore⟩ := List.find?_eq_some_iff_append.mp hfirst
  exact ⟨before, first, after, heq, of_decide_eq_true hmem,
    fun earlier hearlier => by simpa using hbefore earlier hearlier⟩

theorem Frame.access_of_providing {frame : Frame} (h : frame.isProviding = true) :
    ∃ a, frame = .access a ∧ a.isProviding = true := by
  cases frame with
  | access a => exact ⟨a, rfl, h⟩
  | _ => cases h

/-- An evictor that does not panic when it is asked for its excess. -/
def Evictor.IsCalm (evictor : Evictor) : Prop := ∀ text, evictor.custom ≠ some (.raises text)

theorem Evictor.IsCalm.exists_excess {evictor : Evictor} (h : evictor.IsCalm) :
    ∃ count, evictor.excess = .ok count := by
  unfold Evictor.excess
  split
  · exact ⟨_, rfl⟩
  · exact ⟨_, rfl⟩
  · exact ⟨_, rfl⟩
  · next text hcustom => exact absurd hcustom (h text)

namespace Cache

variable {c : Cache layout}

theorem exists_surplus (h : ∀ evictor, c.evictor = some evictor → evictor.IsCalm) :
    ∃ surplus, c.surplus = .ok surplus := by
  unfold surplus
  split
  · exact ⟨_, rfl⟩
  · next evictor hevictor =>
    obtain ⟨count, hcount⟩ := (h evictor hevictor).exists_excess
    split
    · exact ⟨_, by rw [hcount]; rfl⟩
    · exact ⟨_, rfl⟩

theorem candidates_of_mem_surplus {surplus : List Key} (h : c.surplus = .ok surplus) {key : Key}
    (hkey : key ∈ surplus) : ∃ evictor count, c.evictor = some evictor ∧ c.hasLive = true ∧
      evictor.excess = .ok count ∧ c.expired.length < count ∧
        c.candidates evictor count = surplus := by
  obtain rfl | ⟨evictor, count, hevictor, hlive, hexcess, hsurplus⟩ := surplus_cases h
  · cases hkey
  · have hcandidates : c.candidates evictor count = surplus := by
      simp [hsurplus, candidates, unexpired]
    refine ⟨evictor, count, hevictor, hlive, hexcess, ?_, hcandidates⟩
    by_contra hfew
    rw [← hcandidates, candidates, Nat.sub_eq_zero_of_le (Nat.le_of_not_lt hfew), List.take_zero]
      at hkey
    cases hkey

end Cache

namespace Machine

variable {m n : Machine layout} {place : Place} {number : Nat} {outer : List Frame}

/-! ## Keys that are locked while a provider runs -/

/-- The keys of the operations of a client that are in progress. -/
def heldKeys (m : Machine layout) (number : Nat) : List Key :=
  (m.client number).stack.filterMap Frame.key?

/-- A client whose innermost provider has asked for a pass, while nobody else is active. -/
structure Purging (m : Machine layout) (number : Nat) (outer : List Frame) : Prop where
  coherent : m.Coherent
  stack_eq : (m.client number).stack = .pass .enter :: outer
  providing : ∀ frame ∈ outer, ∃ a, frame = .access a ∧ a.isProviding = true
  others : ∀ other frame, m.frameAt other = some frame → other.worker = .client number

/-- The provider has the answer of its pass, which has made the given cache of what there was. -/
structure Resumes (m : Machine layout) (number : Nat) (outer : List Frame) (swept : Cache layout) :
    Prop where
  client : m.client number =
    { stack := outer, answer := some (.flag (swept.store.size == 0)) }
  store : m.cache.store = swept.store
  free : m.cache.passLock = none

/-- The innermost operation of a client is a pass that waits for a key of the client itself. -/
def WaitsForOwn (m : Machine layout) (number : Nat) (outer : List Frame) : Prop :=
  ∃ round ticket wanted keys survey,
    (m.client number).stack = .pass (.acquire round ticket wanted keys survey) :: outer ∧
      wanted ∈ m.heldKeys number

theorem Nested.provides (h : m.Nested) {frame : Frame}
    (hframe : frame ∈ (m.client number).stack.tail) :
    ∃ a, frame = .access a ∧ a.isProviding = true :=
  Frame.access_of_providing (h number frame hframe)

theorem stack_of_sameBut {frame : Frame} {top : Option Frame}
    (hstack : (m.client number).stack = frame :: outer)
    (hothers : m.SameBut n (.client number outer.length))
    (htop : n.frameAt (.client number outer.length) = top) :
    (n.client number).stack = top.toList ++ outer := by
  -- places count from the outermost operation, so the stacks are compared in reverse
  refine List.reverse_injective (List.ext_getElem? fun depth => ?_)
  have hwas : outer.reverse[outer.length]? = none := List.getElem?_eq_none (by simp)
  by_cases hdepth : depth = outer.length
  · subst hdepth
    refine htop.trans ?_
    cases top with
    | none => exact hwas.symm
    | some now => exact (if_pos rfl).symm.trans (getElem?_reverse_cons now outer _).symm
  · have hsame := hothers (.client number depth) (by simpa using hdepth)
    rw [frameAt, frameAt, hstack, getElem?_reverse_cons, if_neg hdepth] at hsame
    refine hsame.trans ?_
    cases top with
    | none => rfl
    | some now => exact ((getElem?_reverse_cons now outer _).trans (if_neg hdepth)).symm

theorem Coherent.stores (h : m.Coherent) (hidle : m.cache.sweeper.deciding = false) {key : Key}
    {kind : Kind} {ttl : Duration} {ticket : Nat} {stale : Bool} {value : Value}
    (hstack : (m.client number).stack =
      .access ⟨key, .create kind ttl, .provide ticket stale⟩ :: outer) (hkind : value.kind = kind) :
    ∃ n, m.runAll (.provide number (.value value) :: List.replicate 5 (.run (.client number))) =
        some n ∧ n.client number = { stack := outer, answer := some (.value value) } ∧
      n.cache.store.get? key = some ⟨value, m.cache.clock.deadlineAfter ttl⟩ := by
  obtain ⟨n, hn, hclient, hstore, -⟩ := creates h.owned hidle hstack hkind
  exact ⟨n, hn, hclient, by rw [hstore, Store.get?_insert, if_pos rfl]⟩

theorem Coherent.purges (h : m.Coherent) (hproviding : (m.client number).isProviding = true)
    (hothers : ∀ place frame, m.frameAt place = some frame → place.worker = .client number) :
    ∃ started, m.step (.call number .purge) = some started ∧ started.cache = m.cache ∧
      started.Purging number (m.client number).stack := by
  cases hstack : (m.client number).stack with
  | nil => simp [Client.isProviding, hstack] at hproviding
  | cons frame outer =>
    let started := m.setClient number { stack := .pass .enter :: frame :: outer, answer := none }
    have hhandles : 0 < m.clientHandles :=
      Nat.sub_pos_of_lt (h.staffed.served (by rw [hstack]; exact List.cons_ne_nil _ _))
    have hmay : (m.client number).mayCall = true := by
      rw [Client.mayCall, hproviding, Bool.or_true]
    have hcall : m.step (.call number .purge) = some started := by
      rw [call_of_mayCall (show opening .purge = .more _ from rfl) hmay hhandles, hstack]
    refine ⟨started, hcall, rfl, h.step hcall, ?_, ?_, ?_⟩
    · rw [client_setClient, if_pos rfl]
    · intro below hbelow
      rcases List.mem_cons.mp hbelow with rfl | houter
      · simp only [Client.isProviding, hstack] at hproviding
        exact Frame.access_of_providing hproviding
      · exact h.nested.provides (by rwa [hstack])
    · intro other there hthere
      by_cases hother : other = .client number (frame :: outer).length
      · rw [hother]
        rfl
      · refine hothers other there ?_
        rw [← sameBut_setClient (m := m) (n := started) rfl (.inl hstack) (.inr ⟨_, rfl⟩) other
          hother]
        exact hthere

namespace Purging

theorem alone (h : m.Purging number outer) :
    m.Alone (.client number outer.length) m .enter :=
  h.coherent.alone (frameAt_innermost h.stack_eq)

theorem heldKeys_eq (h : m.Purging number outer) :
    m.heldKeys number = outer.filterMap Frame.key? := by
  rw [heldKeys, h.stack_eq]
  rfl

theorem mem_outer (h : m.Purging number outer) {other : Place} {frame : Frame}
    (hother : other ≠ .client number outer.length) (hframe : m.frameAt other = some frame) :
    frame ∈ outer := by
  have hworker := h.others other frame hframe
  cases other with
  | sweeper generation => cases hworker
  | client same depth =>
    cases hworker
    have hdepth : depth ≠ outer.length := fun heq => hother (by rw [heq])
    rw [frameAt, h.stack_eq, getElem?_reverse_cons, if_neg hdepth] at hframe
    exact List.mem_reverse.mp (List.mem_of_getElem? hframe)

theorem unhindered (h : m.Purging number outer) {keys : List Key}
    (hapart : ∀ key ∈ keys, key ∉ m.heldKeys number) :
    m.Unhindered (.client number outer.length) keys where
  turn := by
    intro other frame hother hframe
    obtain ⟨a, rfl, -⟩ := h.providing frame (h.mem_outer hother hframe)
    rfl
  claims := by
    intro other frame hother hframe claim hclaim
    have houter := h.mem_outer hother hframe
    obtain ⟨a, rfl, hproviding⟩ := h.providing frame houter
    obtain ⟨ticket, hclaims⟩ := Access.claims_of_providing hproviding
    rw [Frame.claims, hclaims, List.mem_singleton] at hclaim
    subst hclaim
    refine .inr ⟨rfl, fun hkey => hapart a.key hkey ?_⟩
    rw [h.heldKeys_eq]
    exact List.mem_filterMap.mpr ⟨.access a, houter, rfl⟩

/-! ## Passes that come to their end -/

theorem ends (h : m.Purging number outer) {surplus : List Key}
    (hsurplus : m.cache.surplus = .ok surplus)
    (hstored : ∀ key ∈ m.cache.store.keys, key ∉ m.heldKeys number)
    (hranked : ∀ key ∈ surplus, key ∉ m.heldKeys number) :
    ∃ steps n, m.Completes (.client number outer.length)
      (List.replicate steps (.run (.client number))) n ∧ n.Coherent ∧
        n.Resumes number outer (m.cache.swept surplus) := by
  have hcalm : m.Unhindered (.client number outer.length) m.cache.itinerary := by
    refine h.unhindered fun key hkey => ?_
    rw [Cache.itinerary, hsurplus] at hkey
    exact (List.mem_append.mp hkey).elim (hstored key) (hranked key)
  obtain ⟨n, locks, htoils, hended, hleave, -⟩ := h.alone.ends_of_unhindered hcalm
  obtain ⟨steps, hcompletes⟩ := htoils.completes hended.frame
  have hresult : m.cache.passResult = ⟨(m.cache.swept surplus).decided,
      .flag ((m.cache.swept surplus).store.size == 0),
        m.cache.store.keys.length + surplus.length⟩ := by
    rw [Cache.passResult, hsurplus]
  rw [hresult] at hleave hended
  have hcache := Option.some.inj hleave
  have hstack := stack_of_sameBut h.stack_eq hended.others hended.frame
  refine ⟨steps, n, hcompletes, hended.coherent, ⟨?_, ?_, ?_⟩⟩
  · rw [hended.client_eq hstack, show (Place.client number outer.length).worker =
      .client number from rfl, if_pos rfl]
    rfl
  · rw [← hcache]
    rfl
  · rw [← hcache]

/-! ## Passes that wait for their own providers -/

/-- The pass comes to the first key that the client itself holds. -/
theorem comes_to_own_key (h : m.Purging number outer) {surplus : List Key}
    (hsurplus : m.cache.surplus = .ok surplus)
    (hown : ∃ key ∈ m.heldKeys number, key ∈ m.cache.store.keys ∨ key ∈ surplus) :
    ∃ middle round wanted keys survey, m.Toils (.client number outer.length) middle ∧
      m.Alone (.client number outer.length) middle (.visit round (wanted :: keys) survey) ∧
        wanted ∈ m.heldKeys number := by
  by_cases hstored : ∃ key ∈ m.cache.store.keys, key ∈ m.heldKeys number
  · obtain ⟨before, wanted, keys, hkeys, hwanted, hbefore⟩ := exists_first_mem hstored
    have hcalm := h.unhindered hbefore
    obtain ⟨listed, hlisted, halone, -⟩ := h.alone.sets_out hcalm
    rw [hkeys] at halone
    obtain ⟨_, -, middle, hmiddle, hthere, -⟩ := halone.reviews hcalm (List.Subset.refl _)
    exact ⟨middle, _, wanted, keys, _, hlisted.trans hmiddle, hthere, hwanted⟩
  · -- no stored key stands in the way, so the pass comes to choose
    have hranked : ∃ key ∈ surplus, key ∈ m.heldKeys number := by
      obtain ⟨key, hheld, hstores | hgoes⟩ := hown
      · exact absurd ⟨key, hstores, hheld⟩ hstored
      · exact ⟨key, hgoes, hheld⟩
    obtain ⟨before, wanted, keys, hkeys, hwanted, hbefore⟩ := exists_first_mem hranked
    obtain ⟨evictor, count, hevictor, hlive, hexcess, hmore, hcandidates⟩ :=
      Cache.candidates_of_mem_surplus hsurplus (hkeys ▸ List.mem_append_right _ List.mem_cons_self)
    obtain ⟨survey, choosing, hchoosing, halone, -⟩ := h.alone.arrives_at_candidates
      (h.unhindered fun key hkey hheld => hstored ⟨key, hkey, hheld⟩) (List.Subset.refl _)
      hevictor hlive hexcess hmore
    rw [hcandidates, hkeys] at halone
    obtain ⟨_, -, middle, hmiddle, hthere, -⟩ :=
      halone.selects (h.unhindered hbefore) (List.Subset.refl _)
    exact ⟨middle, _, wanted, keys, _, hchoosing.trans hmiddle, hthere, hwanted⟩

theorem waits (h : m.Purging number outer) {surplus : List Key}
    (hsurplus : m.cache.surplus = .ok surplus)
    (hown : ∃ key ∈ m.heldKeys number, key ∈ m.cache.store.keys ∨ key ∈ surplus) :
    ∃ steps n, m.runAll (List.replicate steps (.run (.client number))) = some n ∧ n.Coherent ∧
      n.WaitsForOwn number outer := by
  obtain ⟨middle, round, wanted, keys, survey, hmiddle, halone, hwanted⟩ :=
    h.comes_to_own_key hsurplus hown
  have hregister : (Pass.visit round (wanted :: keys) survey).step (.client number) middle.cache =
      some (middle.cache.relock (middle.cache.locks.join wanted .waiting),
        .more (.acquire round middle.cache.locks.nextTicket wanted keys survey)) := by
    simp only [Pass.step, LockTable.register_eq]
    rfl
  obtain ⟨n, hran, -, hthere⟩ := halone.advance hregister
  have hstack := stack_of_sameBut h.stack_eq hthere.others hthere.frame
  obtain ⟨steps, hsteps, -⟩ := (hmiddle.trans (.step halone.busy hran (.refl n))).runAll
  refine ⟨steps, n, hsteps, hthere.coherent, _, _, wanted, _, _, hstack, ?_⟩
  rw [h.heldKeys_eq] at hwanted
  rw [heldKeys, hstack]
  exact hwanted

end Purging

/-- Whatever anybody does, the pass goes on waiting. -/
theorem Coherent.stays (h : m.Coherent) (hwaits : m.WaitsForOwn number outer) {event : Event}
    (hstep : m.step event = some n) : (n.client number).stack = (m.client number).stack := by
  obtain ⟨round, ticket, wanted, keys, survey, hstack, hwanted⟩ := hwaits
  have hframe := frameAt_innermost hstack
  -- the key is held by an operation whose provider cannot end before the pass
  obtain ⟨depth, a, hholder, hproviding, rfl⟩ : ∃ depth a,
      m.frameAt (.client number depth) = some (.access a) ∧ a.isProviding = true ∧
        a.key = wanted := by
    obtain ⟨frame, hmem, hkey⟩ := List.mem_filterMap.mp hwanted
    rw [hstack, List.mem_cons] at hmem
    rcases hmem with rfl | houter
    · cases hkey
    · have hbelow : frame ∈ (m.client number).stack.tail := by rwa [hstack]
      obtain ⟨a, rfl, hproviding⟩ := h.nested.provides hbelow
      obtain ⟨depth, hholder⟩ := frameAt_of_mem_stack (List.mem_of_mem_tail hbelow)
      exact ⟨depth, a, hholder, hproviding, Option.some.inj hkey⟩
  have hblocked : m.cache.locks.acquire? ticket = none := by
    refine Option.eq_none_iff_forall_ne_some.mpr fun locks hlocks => ?_
    exact h.owned.unkept_of_acquire hframe List.mem_cons_self hlocks _ _ hholder
      (Access.keeps_of_providing hproviding)
  have hstands : (Frame.pass (.acquire round ticket a.key keys survey)).step (.client number)
      m.cache = none := by
    simp [Frame.step, Pass.step, hblocked]
  have hacting : m.acting event ≠ some (.client number outer.length) := by
    intro hacting
    cases own_of_step hstep hacting hframe with
    | provided was => cases was
    | more step => cases hstands.symm.trans step
    | done step => cases hstands.symm.trans step
  have hnow := frameAt_step hstep hacting hframe
  cases restack_of_step hstep number with
  | same stack_eq => exact stack_eq
  | pushed _ _ mayCall =>
    simp [Client.mayCall, Client.isProviding, hstack, Frame.isProviding] at mayCall
  | replaced was kin stack_eq =>
    cases hstack.symm.trans was
    rw [frameAt_innermost stack_eq] at hnow
    rw [stack_eq, hstack, Option.some.inj hnow]
  | popped was stack_eq =>
    cases hstack.symm.trans was
    rw [frameAt_outside stack_eq] at hnow
    cases hnow

theorem Coherent.stays_for_ever (h : m.Coherent) (hwaits : m.WaitsForOwn number outer)
    {events : List Event} (hrun : m.runAll events = some n) :
    (n.client number).stack = (m.client number).stack := by
  have hinvariant : n.Coherent ∧ (n.client number).stack = (m.client number).stack := by
    refine run_induction (P := fun o => o.Coherent ∧
      (o.client number).stack = (m.client number).stack) ?_ ⟨h, rfl⟩ hrun
    rintro o later event ⟨hcoherent, hsame⟩ hstep
    have hstill : o.WaitsForOwn number outer := by
      unfold WaitsForOwn heldKeys at hwaits ⊢
      rwa [hsame]
    exact ⟨hcoherent.step hstep, (hcoherent.stays hstill hstep).trans hsame⟩
  exact hinvariant.2

/-! ## Runs -/

/--
A provider that asks for a pass while nobody else is active.  If no key of an operation that the
client has in progress is stored, or is to go for the sake of the capacity, then the pass comes to
its end by itself, and whatever value the provider comes to is stored and answered with.  Otherwise
the client comes by itself to wait for a key of its own, and waits for ever, whatever others do.
-/
theorem provider_passes_end_but_for_own_keys {config : Config} {clock : Instant}
    {events : List Event} {key : Key} {kind : Kind} {ttl : Duration} {ticket : Nat} {stale : Bool}
    (hevictor : ∀ evictor, config.evictor = some evictor → evictor.Origin ∧ evictor.IsCalm)
    (hrun : (ofConfig layout config clock).runAll events = some m)
    (hstack : (m.client number).stack =
      .access ⟨key, .create kind ttl, .provide ticket stale⟩ :: outer)
    (hothers : ∀ place frame, m.frameAt place = some frame → place.worker = .client number) :
    ∃ surplus started, m.cache.surplus = .ok surplus ∧
      m.step (.call number .purge) = some started ∧
      ((∀ held ∈ m.heldKeys number, m.cache.contains held = false ∧ held ∉ surplus) →
        ∃ steps n, started.Completes (.client number (outer.length + 1))
            (List.replicate steps (.run (.client number))) n ∧
          n.Resumes number (m.client number).stack (m.cache.swept surplus) ∧
          ∀ value : Value, value.kind = kind → ∃ last,
            n.runAll (.provide number (.value value) ::
              List.replicate 5 (.run (.client number))) = some last ∧
            last.client number = { stack := outer, answer := some (.value value) } ∧
            last.cache.store.get? key = some ⟨value, n.cache.clock.deadlineAfter ttl⟩) ∧
      ((∃ held ∈ m.heldKeys number, m.cache.contains held = true ∨ held ∈ surplus) →
        ∃ steps blocked, started.runAll (List.replicate steps (.run (.client number))) =
            some blocked ∧ blocked.WaitsForOwn number (m.client number).stack ∧
          ∀ later n, blocked.runAll later = some n →
            (n.client number).stack = (blocked.client number).stack) := by
  have hcoherent := coherent_of_run (fun evictor hsome => (hevictor evictor hsome).1) hrun
  have hcalm : ∀ evictor, m.cache.evictor = some evictor → evictor.IsCalm := by
    intro now hnow text hcustom
    have hterms := terms_of_run hrun
    rw [Cache.terms, hnow] at hterms
    obtain ⟨first, hfirst, hsame⟩ := Option.map_eq_some_iff.mp hterms.symm
    exact (hevictor first hfirst).2 text ((Prod.mk.inj hsame).1.trans hcustom)
  obtain ⟨surplus, hsurplus⟩ := Cache.exists_surplus hcalm
  have hproviding : (m.client number).isProviding = true := by
    rw [Client.isProviding, hstack]
    rfl
  obtain ⟨started, hstarted, hcache, hpurging⟩ := hcoherent.purges hproviding hothers
  have hkeys : started.heldKeys number = m.heldKeys number := hpurging.heldKeys_eq
  have hsurplus' : started.cache.surplus = .ok surplus := hcache ▸ hsurplus
  have hstored : ∀ held, held ∈ started.cache.store.keys ↔ m.cache.contains held = true := by
    intro held
    rw [hcache]
    exact hcoherent.placed.mem_keys
  refine ⟨surplus, started, hsurplus, hstarted, fun hapart => ?_, fun hown => ?_⟩
  · obtain ⟨steps, n, hcompletes, hsound, hresumes⟩ := hpurging.ends hsurplus'
      (fun held hkept hheld => by
        have habsent := (hapart held (hkeys ▸ hheld)).1
        rw [(hstored held).mp hkept] at habsent
        cases habsent)
      fun held hgoes hheld => (hapart held (hkeys ▸ hheld)).2 hgoes
    rw [hcache] at hresumes
    refine ⟨steps, n, ?_, hresumes, fun value hkind => ?_⟩
    · rw [hstack] at hcompletes
      exact hcompletes
    · have hidle := (hsound.freed hresumes.free).verdict
      exact hsound.stores hidle (by rw [hresumes.client, hstack]) hkind
  · obtain ⟨steps, blocked, hblocked, hsound, hwaits⟩ := hpurging.waits hsurplus' (by
      obtain ⟨held, hheld, hstands⟩ := hown
      exact ⟨held, hkeys ▸ hheld, hstands.imp_left (hstored held).mpr⟩)
    exact ⟨steps, blocked, hblocked, hwaits, fun later n => hsound.stays_for_ever hwaits⟩

def renewal (key : Key) : List Event :=
  creation 0 "a" leastTtl .unit ++
    [.tick leastTtl, .call 0 (.access key (.create .unit leastTtl))] ++
    List.replicate 4 (.run (.client 0))

theorem provider_passes_end_but_for_own_keys_renewal :
    (∃ m started steps n last, runAll (ofConfig .flat keepLast ⟨0⟩) (renewal "b") = some m ∧
      m.step (.call 0 .purge) = some started ∧
      started.Completes (.client 0 1) (List.replicate steps (.run (.client 0))) n ∧
      n.Resumes 0 (m.client 0).stack (m.cache.swept []) ∧
      n.runAll (.provide 0 (.value .unit) :: List.replicate 5 (.run (.client 0))) = some last ∧
      last.client 0 = { stack := [], answer := some (.value .unit) } ∧
      last.cache.contains "b" = true) ∧
    ∃ m started steps blocked, runAll (ofConfig .flat keepLast ⟨0⟩) (renewal "a") = some m ∧
      m.step (.call 0 .purge) = some started ∧
      started.runAll (List.replicate steps (.run (.client 0))) = some blocked ∧
      blocked.WaitsForOwn 0 (m.client 0).stack ∧
      ∀ later n, blocked.runAll later = some n →
        (n.client 0).stack = (blocked.client 0).stack := by
  have hevictor : ∀ evictor, keepLast.evictor = some evictor →
      evictor.Origin ∧ evictor.IsCalm := by
    refine fun evictor hsome => ⟨origin_keepLast evictor hsome, fun text hcustom => ?_⟩
    cases hsome
    cases hcustom
  constructor
  · have hstart : (runAll (ofConfig .flat keepLast ⟨0⟩) (renewal "b")).any fun m =>
        decide ((m.client 0).stack =
          [.access ⟨"b", .create .unit leastTtl, .provide 1 false⟩]) &&
        decide (∀ place ∈ m.places, place.worker = .client 0) &&
        decide (∀ held ∈ m.heldKeys 0, m.cache.contains held = false) && !m.cache.hasLive := by
      decide +kernel
    simp only [Option.any_eq_true, Bool.and_eq_true, decide_eq_true_eq, Bool.not_eq_true'] at hstart
    obtain ⟨m, hm, ⟨⟨hstack, hplaces⟩, hheld⟩, hdead⟩ := hstart
    obtain ⟨surplus, started, hsurplus, hstarted, hends, -⟩ :=
      provider_passes_end_but_for_own_keys hevictor hm hstack fun place frame hframe =>
        hplaces place (mem_places.mpr (Option.isSome_of_eq_some hframe))
    obtain rfl : surplus = [] := by
      refine List.eq_nil_iff_forall_not_mem.mpr fun key hkey => ?_
      obtain ⟨_, _, _, hlive, -⟩ := Cache.candidates_of_mem_surplus hsurplus hkey
      exact Bool.false_ne_true (hdead.symm.trans hlive)
    obtain ⟨steps, n, hcompletes, hresumes, hstores⟩ :=
      hends fun held hmem => ⟨hheld held hmem, List.not_mem_nil⟩
    obtain ⟨last, hlast, hclient, hget⟩ := hstores .unit rfl
    refine ⟨m, started, steps, n, last, hm, hstarted, hcompletes, hresumes, hlast, hclient, ?_⟩
    rw [Cache.contains, hget]
    rfl
  · have hstart : (runAll (ofConfig .flat keepLast ⟨0⟩) (renewal "a")).any fun m =>
        decide ((m.client 0).stack =
          [.access ⟨"a", .create .unit leastTtl, .provide 1 true⟩]) &&
        decide (∀ place ∈ m.places, place.worker = .client 0) && m.cache.contains "a" := by
      decide +kernel
    simp only [Option.any_eq_true, Bool.and_eq_true, decide_eq_true_eq] at hstart
    obtain ⟨m, hm, ⟨hstack, hplaces⟩, hstands⟩ := hstart
    obtain ⟨surplus, started, -, hstarted, -, hwaits⟩ :=
      provider_passes_end_but_for_own_keys hevictor hm hstack fun place frame hframe =>
        hplaces place (mem_places.mpr (Option.isSome_of_eq_some hframe))
    have hown : "a" ∈ m.heldKeys 0 := by
      rw [heldKeys, hstack]
      exact List.mem_cons_self
    obtain ⟨steps, blocked, hblocked, hwaiting, hstays⟩ := hwaits ⟨"a", hown, .inl hstands⟩
    exact ⟨m, started, steps, blocked, hm, hstarted, hblocked, hwaiting, hstays⟩

/--
A client makes its expired entry anew while nobody else is active, and the provider asks for a pass.
Neither the pass nor the provider ever comes to its end.
-/
theorem pass_waits_for_its_own_provider :
    Config.initial.evictor = none ∧
    ∃ m blocked, runAll (ofConfig .flat .initial ⟨0⟩) (renewal "a") = some m ∧
      (m.client 0).isProviding = true ∧
      (∀ place frame, m.frameAt place = some frame → place.worker = .client 0) ∧
      m.runAll (.call 0 .purge :: List.replicate 5 (.run (.client 0))) = some blocked ∧
      ∀ later n, blocked.runAll later = some n →
        (n.frameAt (.client 0 1)).isSome = true ∧
          n.frameAt (.client 0 0) = m.frameAt (.client 0 0) := by
  have hstart : (runAll (ofConfig .flat .initial ⟨0⟩) (renewal "a")).any fun m =>
      decide ((m.client 0).stack = [.access ⟨"a", .create .unit leastTtl, .provide 1 true⟩]) &&
      decide (∀ place ∈ m.places, place.worker = .client 0) &&
      (m.runAll (.call 0 .purge :: List.replicate 5 (.run (.client 0)))).any fun blocked =>
        decide ((blocked.client 0).stack =
          [.pass (.acquire .expiry 2 "a" [] ⟨⟨leastTtl.nanos⟩, [], false⟩),
            .access ⟨"a", .create .unit leastTtl, .provide 1 true⟩]) := by
    decide +kernel
  simp only [Option.any_eq_true, Bool.and_eq_true, decide_eq_true_eq] at hstart
  obtain ⟨m, hm, ⟨hstack, hplaces⟩, blocked, hblocked, hwaiting⟩ := hstart
  have hnone : ∀ evictor, Config.initial.evictor = some evictor → evictor.Origin := by
    rintro evictor ⟨⟩
  have hcoherent : blocked.Coherent :=
    coherent_of_run hnone ((runAll_append _ _ _).trans (by rw [hm]; exact hblocked))
  have hown : blocked.WaitsForOwn 0 [.access ⟨"a", .create .unit leastTtl, .provide 1 true⟩] := by
    refine ⟨_, _, "a", _, _, hwaiting, ?_⟩
    rw [heldKeys, hwaiting]
    exact List.mem_cons_self
  refine ⟨rfl, m, blocked, hm, ?_, fun place frame hframe => ?_, hblocked, fun later n hlater => ?_⟩
  · rw [Client.isProviding, hstack]
    rfl
  · exact hplaces place (mem_places.mpr (Option.isSome_of_eq_some hframe))
  · have hstays := hcoherent.stays_for_ever hown hlater
    simp only [frameAt, hstays, hwaiting, hstack]
    exact ⟨rfl, rfl⟩

end Machine

end TtlCache
