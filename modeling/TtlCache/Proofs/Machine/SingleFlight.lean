import TtlCache.Proofs.Machine.Answers

/-!
# One provider at a time

A provider runs while its key is held.  So no other provider runs for the key, and whatever other
threads do meanwhile, nothing changes about the key: what was seen before the provider ran is still
there when its outcome is carried out.  Who comes for the key later finds the value that was
stored, unless it has expired or was removed or evicted.
-/

namespace TtlCache

variable {layout : Layout}

namespace Machine

def Spares (m : Machine layout) (place : Place) : List Event -> Prop
  | [] => True
  | event :: events =>
      m.acting event ≠ some place ∧ ∀ n, m.step event = some n → n.Spares place events

variable {m n : Machine layout} {event : Event} {place : Place} {frame : Frame} {key : Key}

theorem frameAt_step (hstep : m.step event = some n) (hplace : m.acting event ≠ some place)
    (hframe : m.frameAt place = some frame) : n.frameAt place = some frame := by
  cases step_cases hstep with
  | aside frames alike acting => rw [frames, hframe]
  | opened other fresh hfresh free now others alike acting =>
    have hne : place ≠ other := by
      rintro rfl
      rw [free] at hframe
      cases hframe
    rw [others place hne, hframe]
  | ended other access next outcome was after now others same acting event =>
    have hne : place ≠ other := fun heq => hplace (heq ▸ acting)
    rw [others place hne, hframe]
  | stepped other own cache progress was step now others alike acting event =>
    have hne : place ≠ other := fun heq => hplace (heq ▸ acting)
    rw [others place hne, hframe]

theorem sameKey_step {excused : Key -> Prop} (howned : m.Owned) (htidy : m.Tidy excused)
    (hstep : m.step event = some n) (hplace : m.acting event ≠ some place)
    (hframe : m.frameAt place = some frame) (hkeeps : frame.Keeps key) :
    m.cache.SameKey n.cache key := by
  refine htidy.isolated howned hstep fun other own hacting hown hmine => hplace ?_
  rw [hacting, howned.keeper_unique hown hframe hmine hkeeps]

theorem sameKey_run {excused : Key -> Prop} {events : List Event} (howned : m.Owned)
    (htidy : m.Tidy excused) (hrun : m.runAll events = some n) (hspares : m.Spares place events)
    (hframe : m.frameAt place = some frame) (hkeeps : frame.Keeps key) :
    n.frameAt place = some frame ∧ m.cache.SameKey n.cache key := by
  induction events generalizing m excused with
  | nil =>
    cases hrun
    exact ⟨hframe, .refl _ key⟩
  | cons event events ih =>
    obtain ⟨next, hnext, hrest⟩ := Option.bind_eq_some_iff.mp hrun
    obtain ⟨hplace, hlater⟩ := hspares
    have hfirst := sameKey_step howned htidy hnext hplace hframe hkeeps
    obtain ⟨hlast, hsecond⟩ := ih (howned.step hnext) (htidy.step howned hnext) hrest
      (hlater next hnext) (frameAt_step hnext hplace hframe)
    exact ⟨hlast, hfirst.trans hsecond⟩

end Machine

/-! ## What a lookup remembers -/

namespace Access

/--
Whether the entry of the key is still what the lookup saw, as long as the operation relies on it:
while its provider is to run or runs, and when it is about to replace or to remove the entry.
-/
def Recalls (a : Access) (log : List Line) (c : Cache layout) : Prop :=
  match a.point with
  | .missed ticket stale | .provide ticket stale =>
      ∃ now, ⟨now, .looked a.key ticket a.request (c.store.get? a.key)⟩ ∈ log ∧
        liveAt now (c.store.get? a.key) = none ∧ stale = c.contains a.key
  | .perform ticket todo _ => overwritesFirst todo = true →
      ∃ now, ⟨now, .looked a.key ticket a.request (c.store.get? a.key)⟩ ∈ log ∧
        liveAt now (c.store.get? a.key) = none
  | _ => True

variable {a : Access} {c d : Cache layout} {log : List Line}

theorem Recalls.later {longer : List Line} (h : a.Recalls log c)
    (hget : d.store.get? a.key = c.store.get? a.key) (hlonger : log ⊆ longer) :
    a.Recalls longer d := by
  have hmissed : ∀ {ticket stale}, (∃ now,
      ⟨now, .looked a.key ticket a.request (c.store.get? a.key)⟩ ∈ log ∧
        liveAt now (c.store.get? a.key) = none ∧ stale = (c.store.get? a.key).isSome) →
      ∃ now, ⟨now, .looked a.key ticket a.request (c.store.get? a.key)⟩ ∈ longer ∧
        liveAt now (c.store.get? a.key) = none ∧ stale = (c.store.get? a.key).isSome := by
    intro ticket stale hseen
    obtain ⟨now, hnow, hrest⟩ := hseen
    exact ⟨now, hlonger hnow, hrest⟩
  unfold Recalls Cache.contains at h ⊢
  rw [hget]
  cases hpoint : a.point with
  | missed ticket stale =>
    simp only [hpoint] at h
    exact hmissed h
  | provide ticket stale =>
    simp only [hpoint] at h
    exact hmissed h
  | perform ticket todo answer =>
    simp only [hpoint] at h
    intro hfirst
    obtain ⟨now, hnow, hdead⟩ := h hfirst
    exact ⟨now, hlonger hnow, hdead⟩
  | register => trivial
  | acquire ticket => trivial
  | look ticket => trivial
  | release ticket answer => trivial

theorem claims_of_providing (h : a.isProviding = true) :
    ∃ ticket, a.claims = [⟨ticket, a.key, .holding⟩] := by
  unfold isProviding at h
  split at h
  · next ticket stale hpoint => exact ⟨ticket, by rw [claims, hpoint]⟩
  · cases h

theorem keeps_of_providing (h : a.isProviding = true) : (Frame.access a).Keeps a.key := by
  obtain ⟨ticket, hclaims⟩ := claims_of_providing h
  refine ⟨ticket, ?_⟩
  rw [Frame.claims, hclaims]
  exact List.mem_cons_self

theorem recalls_of_unkept (h : ¬(Frame.access a).Keeps a.key) : a.Recalls log c := by
  have hnot : ∀ ticket, a.claims ≠ [⟨ticket, a.key, .holding⟩] := by
    intro ticket hclaims
    refine h ⟨ticket, ?_⟩
    rw [Frame.claims, hclaims]
    exact List.mem_cons_self
  unfold Recalls
  split
  · next ticket stale hpoint => exact absurd (by rw [claims, hpoint]) (hnot ticket)
  · next ticket stale hpoint => exact absurd (by rw [claims, hpoint]) (hnot ticket)
  · next ticket todo answer hpoint => exact absurd (by rw [claims, hpoint]) (hnot ticket)
  · trivial

theorem recalls_look {ticket : Nat} (hpoint : a.point = .look ticket) :
    Recalls { a with point := (a.look c ticket).2 } (log ++ c.write (a.note? c))
      (a.look c ticket).1 := by
  have hnote : a.note? c = some (.looked a.key ticket a.request (c.store.get? a.key)) := by
    rw [note?, hpoint]
  have hget := a.get?_look c ticket a.key
  rw [if_pos rfl] at hget
  have hsight := a.sight_look c ticket
  generalize (a.look c ticket).2 = point at hsight
  rw [hnote, Cache.write_some]
  cases hsight with
  | answered verdict plan =>
    intro hfirst
    obtain ⟨hsame, hdead⟩ : seenAfter a.request (c.store.get? a.key) = c.store.get? a.key ∧
        liveAt c.clock (c.store.get? a.key) = none := by
      cases plan with
      | expire same dead => exact ⟨same, dead⟩
      | nothing present => cases hfirst
      | miss same => cases hfirst
      | hit same present => cases hfirst
      | untrack gone => cases hfirst
    rw [hget, hsame]
    exact ⟨c.clock, List.mem_append_right _ List.mem_cons_self, hdead⟩
  | missed verdict create dead =>
    obtain ⟨kind, ttl, hrequest⟩ := create
    have hsame : seenAfter a.request (c.store.get? a.key) = c.store.get? a.key := by
      rw [hrequest]
      rfl
    rw [hsame] at hget
    refine ⟨c.clock, ?_, ?_, ?_⟩
    · rw [hget]
      exact List.mem_append_right _ List.mem_cons_self
    · rwa [hget]
    · rw [Cache.contains, hget]

theorem recalls_step {progress : Progress Access} {next : Access} {excused : Key -> Prop}
    (h : a.step c = some (d, progress)) (hnext : progress.point? = some next)
    (hrecalls : a.Recalls log c) (hkept : ∀ hold ∈ a.holds, hold.Kept c excused) :
    next.Recalls (log ++ c.write (a.note? c)) d := by
  cases stride_of_step h with
  | register =>
    cases hnext
    trivial
  | acquire acquired =>
    cases hnext
    trivial
  | @look key request ticket =>
    cases hnext
    exact recalls_look (a := ⟨key, request, .look ticket⟩) rfl
  | missed =>
    cases hnext
    obtain ⟨now, hmem, hdead, hstale⟩ := hrecalls
    exact ⟨now, List.mem_append_left _ hmem, hdead, hstale⟩
  | @effect key request ticket effect todo answer after applied =>
    cases hnext
    have hmine := hkept ⟨ticket, key, effect :: todo, overwritesFirst (effect :: todo)⟩
      List.mem_cons_self
    intro hfirst
    rw [hmine.later rfl] at hfirst
    cases hfirst
  | unregister unregistered =>
    cases hnext
    trivial
  | panic unregistered =>
    cases hnext
    trivial
  | release => cases hnext

/-- When the provider has ended, what the lookup saw is what is replaced or removed. -/
theorem recalls_afterProvider {next : Access} {now : Instant} {outcome : Outcome}
    {more : List Line} (h : a.afterProvider now outcome = some next) (hrecalls : a.Recalls log c) :
    next.Recalls (log ++ more) c := by
  unfold afterProvider at h
  split at h
  · next ticket stale kind ttl hpoint hrequest =>
    simp only [Recalls, hpoint] at hrecalls
    obtain ⟨seen, hmem, hdead, -⟩ := hrecalls
    have hseen : ∃ now, ⟨now, .looked a.key ticket a.request (c.store.get? a.key)⟩ ∈ log ++ more ∧
        liveAt now (c.store.get? a.key) = none :=
      ⟨seen, List.mem_append_left _ hmem, hdead⟩
    split at h
    · split at h
      · cases h
        exact fun _ => hseen
      · cases h
    · cases h
      exact fun _ => hseen
    · cases h
      exact fun _ => hseen
  · cases h

end Access

namespace Machine

variable {m n : Machine layout} {event : Event} {log : List Line}

/-- An event leaves every operation with what its lookup saw. -/
theorem recalls_step (h : Chronicle log m)
    (hrecalls : ∀ {place a}, m.frameAt place = some (.access a) → a.Recalls log m.cache)
    (hstep : m.step event = some n) {place : Place} {a : Access}
    (hframe : n.frameAt place = some (.access a)) : a.Recalls (log ++ m.lines event) n.cache := by
  have hlonger : log ⊆ log ++ m.lines event := List.subset_append_left _ _
  -- an operation that takes no part relies on its key only if it holds it
  have others : m.acting event ≠ some place → m.frameAt place = some (.access a) →
      a.Recalls (log ++ m.lines event) n.cache := by
    intro hplace hwas
    by_cases hkeeps : (Frame.access a).Keeps a.key
    · have hsame := sameKey_step h.owned h.tidy hstep hplace hwas hkeeps
      exact (hrecalls hwas).later hsame.get?_eq hlonger
    · exact Access.recalls_of_unkept hkeeps
  cases step_cases hstep with
  | aside frames alike acting =>
    rw [frames] at hframe
    exact others (by simp [acting]) hframe
  | opened other fresh hfresh free now same alike acting =>
    by_cases hother : place = other
    · subst hother
      cases now.symm.trans hframe
      cases hfresh
      trivial
    · rw [same place hother] at hframe
      exact others (by simp [acting]) hframe
  | ended other access next outcome was after now same cache acting event =>
    by_cases hother : place = other
    · subst hother
      cases now.symm.trans hframe
      rw [cache]
      exact Access.recalls_afterProvider after (hrecalls was)
    · rw [same place hother] at hframe
      exact others (by simp [acting, Ne.symm hother]) hframe
  | stepped other own cache progress was step now same alike acting event =>
    by_cases hother : place = other
    · subst hother
      have hnext := now.symm.trans hframe
      cases Frame.stride_of_step step with
      | access hown =>
        rw [Progress.point?_map] at hnext
        obtain ⟨next, hpoint, heq⟩ := Option.map_eq_some_iff.mp hnext
        cases heq
        have hafter := Access.recalls_step hown hpoint (hrecalls was) fun hold => h.tidy.kept was
        rw [lines, note?_of_run acting was event]
        exact hafter.later (alike.get?_eq a.key) (List.Subset.refl _)
      | pass hown =>
        rw [Progress.point?_map] at hnext
        obtain ⟨next, -, heq⟩ := Option.map_eq_some_iff.mp hnext
        cases heq
      | clock => cases hnext
      | take => cases hnext
      | taken => cases hnext
    · rw [same place hother] at hframe
      exact others (by simp [acting, Ne.symm hother]) hframe

theorem recalls_of_run {config : Config} {clock : Instant} {events : List Event}
    (hrun : (ofConfig layout config clock).runAll events = some m)
    (hsound : ∀ evictor, config.evictor = some evictor → evictor.ranking.Sound) {place : Place}
    {a : Access} (hframe : m.frameAt place = some (.access a)) :
    a.Recalls ((ofConfig layout config clock).record events) m.cache := by
  have hboth := record_induction (P := fun log m => Chronicle log m ∧
    ∀ {place a}, m.frameAt place = some (.access a) → a.Recalls log m.cache) ?_ ?_ hrun
  · exact hboth.2 hframe
  · intro log m n event h hstep
    exact ⟨h.1.step hstep, recalls_step h.1 h.2 hstep⟩
  · have hempty : (ofConfig layout config clock).runAll [] = some (ofConfig layout config clock) :=
      rfl
    refine ⟨chronicle_of_run hempty hsound, fun {place a} hstart => ?_⟩
    rw [frameAt_ofConfig] at hstart
    cases hstart

end Machine

/-! ## What comes after a value was stored -/

def Note.removes (key : Key) : Note -> Bool
  | .evicted k _ | .looked k _ .forget _ => decide (k = key)
  | _ => false

/-- The deadline of an entry as last moved, up to the line that replaces the entry. -/
def lastDeadline (key : Key) (deadline : Instant) : List Line -> Instant
  | [] => deadline
  | line :: lines =>
      if line.note.replaces key then deadline
      else lastDeadline key (line.postpone key deadline) lines

theorem Note.stored_of_replaces {note : Note} {key : Key} (h : note.replaces key = true)
    (hkept : note.removes key = false) : ∃ ticket entry, note = .stored key ticket entry := by
  cases note with
  | stored k ticket entry =>
    have hkey : k = key := by simpa [replaces] using h
    exact ⟨ticket, entry, by rw [hkey]⟩
  | looked k ticket request seen => cases request <;> simp_all [replaces, removes]
  | _ => simp_all [replaces, removes]

theorem lastDeadline_cases (key : Key) (deadline : Instant) (lines : List Line) :
    ((∀ line ∈ lines, line.note.replaces key = false) ∧
        lastDeadline key deadline lines = lines.foldl (Line.postpone key) deadline) ∨
      ∃ first line rest, lines = first ++ line :: rest ∧
        (∀ line ∈ first, line.note.replaces key = false) ∧ line.note.replaces key = true ∧
          lastDeadline key deadline lines = first.foldl (Line.postpone key) deadline := by
  induction lines generalizing deadline with
  | nil => exact Or.inl ⟨List.forall_mem_nil _, rfl⟩
  | cons line lines ih =>
    cases hreplaces : line.note.replaces key with
    | true =>
      refine Or.inr ⟨[], line, lines, rfl, List.forall_mem_nil _, hreplaces, ?_⟩
      simp [lastDeadline, hreplaces]
    | false =>
      have hskip : lastDeadline key deadline (line :: lines) =
          lastDeadline key (line.postpone key deadline) lines := by
        simp [lastDeadline, hreplaces]
      rw [hskip]
      rcases ih (line.postpone key deadline) with
        ⟨hnone, hlast⟩ | ⟨first, next, rest, rfl, hfirst, hnext, hlast⟩
      · refine Or.inl ⟨fun other hother => ?_, hlast⟩
        rcases List.mem_cons.mp hother with rfl | hmem
        · exact hreplaces
        · exact hnone other hmem
      · refine Or.inr ⟨line :: first, next, rest, rfl, fun other hother => ?_, hnext, hlast⟩
        rcases List.mem_cons.mp hother with rfl | hmem
        · exact hreplaces
        · exact hfirst other hmem

/-- A value that is neither removed nor evicted stands until its deadline. -/
theorem Chronicle.stands_on {m : Machine layout} {log before middle after : List Line}
    {clock now : Instant} {key : Key} {ticket : Nat} {entry : Entry} (h : Chronicle log m)
    (hsplit : log = before ++ ⟨clock, .stored key ticket entry⟩ :: middle ++ after)
    (hkept : ∀ line ∈ middle, line.note.removes key = false)
    (hpast : ∀ line ∈ middle, line.clock.nanos ≤ now.nanos)
    (hlive : now.nanos < (lastDeadline key entry.deadline middle).nanos) :
    Stands (before ++ ⟨clock, .stored key ticket entry⟩ :: middle) key
      { entry with deadline := lastDeadline key entry.deadline middle } := by
  rcases lastDeadline_cases key entry.deadline middle with
    ⟨hnone, hlast⟩ | ⟨first, line, rest, rfl, hfirst, hreplaces, hlast⟩
  · exact ⟨before, clock, ticket, entry, middle, rfl, hnone, by rw [hlast]; rfl⟩
  · -- a value is only stored when the one before has expired
    have hline : line ∈ first ++ line :: rest := List.mem_append_right _ List.mem_cons_self
    obtain ⟨same, new, hnote⟩ := Note.stored_of_replaces hreplaces (hkept line hline)
    have hlog : log = (before ++ ⟨clock, .stored key ticket entry⟩ :: first) ++
        line :: (rest ++ after) := by
      rw [hsplit]
      simp
    have hstood : Stands (before ++ ⟨clock, .stored key ticket entry⟩ :: first) key
        (entry.after key first) := ⟨before, clock, ticket, entry, first, rfl, hfirst, rfl⟩
    have hvacant := (h.justified hlog).vacant hnote
    have hlt : line.clock.nanos < (entry.after key first).deadline.nanos := by
      have hle := hpast line hline
      rw [hlast] at hlive
      exact Nat.lt_of_le_of_lt hle hlive
    rw [liveAt_ledger_iff.mpr ⟨hstood, hlt⟩] at hvacant
    cases hvacant

theorem verdict_create {key : Key} {now : Instant} {seen : Option Entry} {kind : Kind}
    {ttl : Duration} {entry : Entry} (hlive : liveAt now seen = some entry)
    (hkind : entry.value.kind = kind) :
    (Request.create kind ttl).verdict key now seen = some (.value entry.value) := by
  simp [Request.verdict, hlive, Entry.read, hkind]

namespace Machine

/--
In every run, at most one provider runs for a key.  While an operation holds its key nothing that
others do changes the entry of the key or whether it is ranked, and what the lookup saw is still
there when the operation replaces or removes it.  Once a value has been stored, who looks the key
up for a value of that kind gets it and runs no provider, as long as its deadline, as last moved,
is still to come at that time and the key has neither been removed nor evicted in between.
-/
theorem providers_run_alone {config : Config} {clock : Instant} {events : List Event}
    {m : Machine layout} (hevictor : ∀ evictor, config.evictor = some evictor → evictor.Origin)
    (hrun : (ofConfig layout config clock).runAll events = some m) :
    (∀ a b x y, m.frameAt a = some (.access x) → m.frameAt b = some (.access y) →
      x.isProviding = true → y.isProviding = true → x.key = y.key → a = b) ∧
    (∀ place a, m.frameAt place = some (.access a) → (Frame.access a).Keeps a.key →
      a.Recalls ((ofConfig layout config clock).record events) m.cache ∧
        ∀ more n, m.runAll more = some n → m.Spares place more →
          n.frameAt place = some (.access a) ∧ m.cache.SameKey n.cache a.key) ∧
    (∀ before stored key ticket entry middle now own kind ttl seen after,
      (ofConfig layout config clock).record events =
        before ++ ⟨stored, .stored key ticket entry⟩ :: middle ++
          ⟨now, .looked key own (.create kind ttl) seen⟩ :: after →
      entry.value.kind = kind → (∀ line ∈ middle, line.note.removes key = false) →
      now.nanos < (lastDeadline key entry.deadline middle).nanos →
        Sequel key own (.create kind ttl) (some (.value entry.value)) (linesOf after own)) ∧
    ∀ number a outer own before stored ticket entry middle kind ttl,
      (m.client number).stack = .access a :: outer → a.point = .look own →
      a.request = .create kind ttl →
      (ofConfig layout config clock).record events =
        before ++ ⟨stored, .stored a.key ticket entry⟩ :: middle →
      entry.value.kind = kind → (∀ line ∈ middle, line.note.removes a.key = false) →
      m.cache.clock.nanos < (lastDeadline a.key entry.deadline middle).nanos →
        ∃ steps n, m.runAll (List.replicate steps (.run (.client number))) = some n ∧
          n.client number = { stack := outer, answer := some (.value entry.value) } := by
  have hsound : ∀ evictor, config.evictor = some evictor → evictor.ranking.Sound :=
    fun evictor hsome => (hevictor evictor hsome).sound
  have hchronicle := chronicle_of_run hrun hsound
  refine ⟨?_, ?_, ?_, ?_⟩
  · intro a b x y ha hb hx hy hkey
    have hkept := Access.keeps_of_providing hy
    rw [← hkey] at hkept
    exact hchronicle.owned.keeper_unique ha hb (Access.keeps_of_providing hx) hkept
  · intro place a hframe hkeeps
    refine ⟨recalls_of_run hrun hsound hframe, fun more n hmore hspares => ?_⟩
    exact sameKey_run hchronicle.owned hchronicle.tidy hmore hspares hframe hkeeps
  · intro before stored key ticket entry middle now own kind ttl seen after hlog hkind hkept hlive
    have hjustified := hchronicle.justified hlog
    have hpast : ∀ line ∈ middle, line.clock.nanos ≤ now.nanos := fun line hline =>
      hjustified.past line (List.mem_append_right _ (List.mem_cons_of_mem _ hline))
    have hstands := hchronicle.stands_on hlog hkept hpast hlive
    have hseen : liveAt now seen =
        some { entry with deadline := lastDeadline key entry.deadline middle } :=
      (hjustified.sees rfl).trans (liveAt_ledger_iff.mpr ⟨hstands, hlive⟩)
    rw [← verdict_create hseen hkind]
    exact sequel_of_justified fun first line last hsplit =>
      hchronicle.justified (hlog.trans hsplit)
  · intro number a outer own before stored ticket entry middle kind ttl hstack hpoint hrequest hlog
      hkind hkept hlive
    have hpast : ∀ line ∈ middle, line.clock.nanos ≤ m.cache.clock.nanos := fun line hline =>
      hchronicle.past line (hlog ▸ List.mem_append_right _ (List.mem_cons_of_mem _ hline))
    have hsplit : (ofConfig layout config clock).record events =
        before ++ ⟨stored, .stored a.key ticket entry⟩ :: middle ++ [] := by
      rw [hlog, List.append_nil]
    have hstands := hchronicle.stands_on hsplit hkept hpast hlive
    rw [← hlog] at hstands
    obtain ⟨steps, n, hn, hreaches⟩ := reaches hchronicle.owned hstack hpoint
    have hseen : liveAt m.cache.clock (m.cache.store.get? a.key) =
        some { entry with deadline := lastDeadline a.key entry.deadline middle } :=
      (hchronicle.balanced.liveAt_eq a.key).trans (liveAt_ledger_iff.mpr ⟨hstands, hlive⟩)
    rw [hrequest, verdict_create hseen hkind] at hreaches
    exact ⟨steps, n, hn, hreaches⟩

/-- One client waits while the provider of another one runs, and a third moves the deadline. -/
def rendezvous : List Event :=
  (creation 0 "a" leastTtl (.u32 7)).take 5 ++
    [.call 1 (.access "a" (.create .u32 leastTtl)), .run (.client 1)] ++
    (creation 0 "a" leastTtl (.u32 7)).drop 5 ++
    [.call 2 (.access "a" (.extend ⟨100⟩))] ++ List.replicate 5 (.run (.client 2)) ++
    [.tick ⟨3⟩] ++ List.replicate 6 (.run (.client 1))

/-- Who waited for the key finds the value, even after the deadline has been moved. -/
theorem providers_run_alone_rendezvous :
    ∃ m, runAll (ofConfig .flat keepLast ⟨0⟩) rendezvous = some m ∧
      ∃ before middle after, (ofConfig .flat keepLast ⟨0⟩).record rendezvous =
          before ++ ⟨⟨0⟩, .stored "a" 0 ⟨.u32 7, Instant.deadlineAfter ⟨0⟩ leastTtl⟩⟩ :: middle ++
            ⟨⟨3⟩, .looked "a" 1 (.create .u32 leastTtl) (some ⟨.u32 7, ⟨100⟩⟩)⟩ :: after ∧
        Sequel "a" 1 (.create .u32 leastTtl) (some (.value (.u32 7))) (linesOf after 1) := by
  have hrun : runAll (ofConfig .flat keepLast ⟨0⟩) rendezvous = some _ := rfl
  have hlog : (ofConfig .flat keepLast ⟨0⟩).record rendezvous =
      [⟨⟨0⟩, .granted "a" 0⟩, ⟨⟨0⟩, .looked "a" 0 (.create .u32 leastTtl) none⟩,
        ⟨⟨0⟩, .provided "a" 0 (.create .u32 leastTtl)⟩,
        ⟨⟨0⟩, .returned "a" 0 (.u32 7) leastTtl⟩] ++
      ⟨⟨0⟩, .stored "a" 0 ⟨.u32 7, Instant.deadlineAfter ⟨0⟩ leastTtl⟩⟩ ::
      [⟨⟨0⟩, .answered "a" 0 (.value (.u32 7))⟩, ⟨⟨0⟩, .granted "a" 2⟩,
        ⟨⟨0⟩, .looked "a" 2 (.extend ⟨100⟩) (some ⟨.u32 7, Instant.deadlineAfter ⟨0⟩ leastTtl⟩)⟩,
        ⟨⟨0⟩, .answered "a" 2 (.flag true)⟩, ⟨⟨3⟩, .granted "a" 1⟩] ++
      ⟨⟨3⟩, .looked "a" 1 (.create .u32 leastTtl) (some ⟨.u32 7, ⟨100⟩⟩)⟩ ::
      [⟨⟨3⟩, .answered "a" 1 (.value (.u32 7))⟩] := rfl
  have hlater := (providers_run_alone origin_keepLast hrun).2.2.1 _ _ _ _ _ _ _ _ _ _ _ _ hlog rfl
    (by simp [Note.removes]) (by decide)
  exact ⟨_, hrun, _, _, _, hlog, hlater⟩

end Machine

end TtlCache
