import TtlCache.Proofs.Machine.Custody

/-!
# What operations rest on

What an operation does after its lookup rests on what it saw.  `Access.Finding` says what that can
be and what follows from it at once.  An operation that is about to remove an entry, or whose
provider is to replace one, has seen the entry; since it holds the key, the entry is still there
when the time comes.  The same goes for the marks of a pass.
-/

namespace TtlCache

variable {layout : Layout}

def Request.kind? : Request -> Option Kind
  | .get kind | .create kind _ => some kind
  | .extend _ | .forget => none

namespace Access

/-- What a lookup finds, what it makes of the cache, and where it leads to. -/
inductive Finding (key : Key) (ticket : Nat) (c : Cache layout) :
    Request -> Cache layout -> AccessPoint -> Prop where
  | vacant {request : Request} (absent : c.store.get? key = none) :
      Finding key ticket c request c (lookVacant ticket request)
  | expired {kind : Kind} {entry : Entry} (present : c.store.get? key = some entry)
      (dead : entry.isExpired c.clock = true) :
      Finding key ticket c (.get kind) c (.perform ticket (expire key) (.found none))
  | stale {kind : Kind} {ttl : Duration} {entry : Entry}
      (present : c.store.get? key = some entry) (dead : entry.isExpired c.clock = true) :
      Finding key ticket c (.create kind ttl) c (.missed ticket true)
  | found {kind : Kind} {entry : Entry} (present : c.store.get? key = some entry)
      (live : entry.isExpired c.clock = false) (fits : entry.value.kind = kind) :
      Finding key ticket c (.get kind) c
        (.perform ticket (hit key) (.found (some (entry.value, entry.remaining c.clock))))
  | reused {kind : Kind} {ttl : Duration} {entry : Entry}
      (present : c.store.get? key = some entry) (live : entry.isExpired c.clock = false)
      (fits : entry.value.kind = kind) :
      Finding key ticket c (.create kind ttl) c (.perform ticket (hit key) (.value entry.value))
  | mistaken {request : Request} {kind : Kind} {entry : Entry}
      (present : c.store.get? key = some entry) (live : entry.isExpired c.clock = false)
      (asks : request.kind? = some kind) (differs : entry.value.kind ≠ kind) :
      Finding key ticket c request c (.perform ticket [] (.panicked (.wrongKind key kind)))
  | extended {deadline : Instant} {entry : Entry} (present : c.store.get? key = some entry) :
      Finding key ticket c (.extend deadline)
        { c with store := c.store.insert key (entry.extend deadline) }
        (.perform ticket [] (.flag true))
  | forgotten {entry : Entry} (present : c.store.get? key = some entry) :
      Finding key ticket c .forget { c with store := c.store.erase key }
        (.perform ticket [.untrack key] (.flag true))

theorem finding_look (key : Key) (request : Request) (point : AccessPoint) (ticket : Nat)
    (c : Cache layout) :
    Finding key ticket c request (look ⟨key, request, point⟩ c ticket).1
      (look ⟨key, request, point⟩ c ticket).2 := by
  cases hget : c.store.get? key with
  | none =>
    simp only [look, hget]
    exact .vacant hget
  | some entry =>
    simp only [look, hget]
    cases request with
    | get kind =>
      cases hexpired : entry.isExpired c.clock with
      | true =>
        simp only [lookEntry, hexpired, if_true]
        exact .expired hget hexpired
      | false =>
        by_cases hfits : entry.value.kind = kind
        · simp only [lookEntry, hexpired, Entry.read, if_pos hfits]
          exact .found hget hexpired hfits
        · simp only [lookEntry, hexpired, Entry.read, if_neg hfits]
          exact .mistaken hget hexpired rfl hfits
    | create kind ttl =>
      cases hexpired : entry.isExpired c.clock with
      | true =>
        simp only [lookEntry, hexpired, if_true]
        exact .stale hget hexpired
      | false =>
        by_cases hfits : entry.value.kind = kind
        · simp only [lookEntry, hexpired, Entry.read, if_pos hfits]
          exact .reused hget hexpired hfits
        · simp only [lookEntry, hexpired, Entry.read, if_neg hfits]
          exact .mistaken hget hexpired rfl hfits
    | extend deadline => exact .extended hget
    | forget => exact .forgotten hget

def relies (a : Access) : List Key :=
  match a.point with
  | .missed _ true | .provide _ true | .perform _ (.erase _ :: _) _ => [a.key]
  | _ => []

end Access

def Pass.relies : Pass -> List Key
  | .visit _ _ survey | .acquire _ _ _ _ survey | .judge _ _ _ _ survey | .untrack _ _ _ survey
  | .dismiss _ _ _ _ survey | .release _ _ _ _ survey | .weigh survey | .choose _ survey =>
      survey.marks.map Mark.key
  | .remove todo mark marks =>
      if overwritesFirst todo then mark.key :: marks.map Mark.key else marks.map Mark.key
  | .free _ _ marks | .unwind marks _ | .drop _ _ marks _ => marks.map Mark.key
  | .enter | .queue | .collect _ _ _ | .decide | .sum _ _ | .leave _ => []

/-- The keys of whose entries an operation is sure. -/
def Frame.relies : Frame -> List Key
  | .access a => a.relies
  | .pass p => p.relies
  | .clock | .taking _ => []

theorem keeps_of_mark {frame : Frame} {marks : List Mark} {key : Key}
    (hsub : ∀ mark ∈ marks, mark.claim ∈ frame.claims) (h : key ∈ marks.map Mark.key) :
    frame.Keeps key := by
  obtain ⟨mark, hmark, rfl⟩ := List.mem_map.mp h
  exact ⟨mark.ticket, hsub mark hmark⟩

theorem Frame.keeps_of_relies {frame : Frame} {key : Key} (h : key ∈ frame.relies) :
    frame.Keeps key := by
  have marked : ∀ {p : Pass} (before : List Claim) {marks : List Mark},
      p.claims = before ++ marks.map Mark.claim → key ∈ marks.map Mark.key →
        (Frame.pass p).Keeps key := by
    intro p before marks hclaims hkey
    refine keeps_of_mark (fun mark hmark => ?_) hkey
    change mark.claim ∈ p.claims
    rw [hclaims]
    exact List.mem_append_right _ (List.mem_map_of_mem hmark)
  cases frame with
  | access a =>
    obtain ⟨own, request, point⟩ := a
    simp only [relies, Access.relies] at h
    split at h
    · next ticket => cases List.mem_singleton.mp h; exact ⟨ticket, List.mem_singleton_self _⟩
    · next ticket => cases List.mem_singleton.mp h; exact ⟨ticket, List.mem_singleton_self _⟩
    · next ticket _ _ _ => cases List.mem_singleton.mp h; exact ⟨ticket, List.mem_singleton_self _⟩
    · cases h
  | pass p =>
    cases p with
    | visit round keys survey => exact marked [] rfl h
    | acquire round ticket own keys survey => exact marked [_] rfl h
    | judge round ticket own keys survey => exact marked [_] rfl h
    | untrack ticket own keys survey => exact marked [_] rfl h
    | dismiss round ticket own keys survey => exact marked [_] rfl h
    | release round ticket own keys survey => exact marked [_] rfl h
    | weigh survey => exact marked [] rfl h
    | choose count survey => exact marked [] rfl h
    | remove todo mark marks =>
      have hkeys : key ∈ mark.key :: marks.map Mark.key := by
        simp only [relies, Pass.relies] at h
        split at h
        · exact h
        · exact List.mem_cons_of_mem _ h
      exact marked [] (rfl : _ = [] ++ (mark :: marks).map Mark.claim) hkeys
    | free ticket own marks => exact marked [_] rfl h
    | unwind marks panic => exact marked [] rfl h
    | drop ticket own marks panic => exact marked [_] rfl h
    | _ => cases h
  | clock => cases h
  | taking taking => cases h

/-! ## Steps -/

variable {c d : Cache layout}

theorem Effect.contains_apply {effect : Effect} (h : effect.apply c = some d) {key : Key}
    (hkey : effect ≠ .erase key) (hcontains : c.contains key = true) : d.contains key = true := by
  cases effect with
  | erase other =>
    cases h
    have hne : key ≠ other := fun heq => hkey (by rw [heq])
    rwa [Cache.contains, Store.get?_erase, if_neg hne]
  | put other value deadline =>
    cases h
    rw [Cache.contains, Store.get?_insert]
    split
    · rfl
    · exact hcontains
  | wake =>
    obtain ⟨sweeper, -, rfl⟩ := Option.map_eq_some_iff.mp h
    exact hcontains
  | _ => cases h; exact hcontains

namespace Access

theorem contains_of_finding {key : Key} {ticket : Nat} {request : Request} {point : AccessPoint}
    (h : Finding key ticket c request d point) {k : Key}
    (hk : k ∈ relies ⟨key, request, point⟩) : d.contains k = true := by
  have present : ∀ {entry}, c.store.get? key = some entry → k ∈ [key] → c.contains k = true := by
    intro entry hentry hmem
    rw [List.mem_singleton.mp hmem, Cache.contains, hentry]
    rfl
  cases h with
  | vacant absent => cases request <;> cases hk
  | expired found dead => exact present found hk
  | stale found dead => exact present found hk
  | _ => cases hk

/-- The entry that an operation is sure of after a step has been there before it, or is found. -/
theorem contains_step {a next : Access} (h : a.step c = some (d, .more next))
    (hkept : ∀ hold ∈ a.holds, ∀ effect ∈ hold.pending.tail, effect.overwrites = false)
    (hrelies : ∀ key ∈ a.relies, c.contains key = true) :
    ∀ key ∈ next.relies, d.contains key = true := by
  generalize hprogress : Progress.more next = progress at h
  cases stride_of_step h with
  | @look key request ticket =>
    cases hprogress
    intro k hk
    exact contains_of_finding (finding_look key request (.look ticket) ticket c) hk
  | @missed key request ticket stale =>
    cases hprogress
    cases stale with
    | true => exact hrelies
    | false => exact List.forall_mem_nil _
  | @effect key request ticket effect todo answer after applied =>
    cases hprogress
    intro k hk
    -- nothing is removed after the first effect
    have hlater := hkept _ (List.mem_singleton_self _)
    cases todo with
    | nil => cases hk
    | cons second todo =>
      have hsecond := hlater second List.mem_cons_self
      cases second with
      | erase other => cases hsecond
      | _ => cases hk
  | release => cases hprogress
  | _ =>
    cases hprogress
    exact List.forall_mem_nil _

theorem contains_afterProvider {a next : Access} {now : Instant} {outcome : Outcome}
    (h : a.afterProvider now outcome = some next)
    (hrelies : ∀ key ∈ a.relies, c.contains key = true) :
    ∀ key ∈ next.relies, c.contains key = true := by
  obtain ⟨own, request, point⟩ := a
  unfold afterProvider at h
  split at h
  · next ticket stale kind ttl hpoint hrequest =>
    cases hpoint
    split at h
    · split at h <;> cases h
      exact List.forall_mem_nil _
    · cases h
      cases stale with
      | true => exact hrelies
      | false => exact List.forall_mem_nil _
    · cases h
      exact List.forall_mem_nil _
  · cases h

end Access

namespace Pass

theorem relies_clear (marks : List Mark) : (clear marks).relies = marks.map Mark.key := by
  cases marks <;> rfl

theorem relies_endRound (survey : Survey) (round : Round) :
    (endRound c survey round).relies = survey.marks.map Mark.key := by
  cases round with
  | expiry =>
    simp only [endRound]
    split
    · rfl
    · exact relies_clear _
  | eviction => exact relies_clear _

theorem relies_weighExcess (survey : Survey) :
    (weighExcess c survey).relies = survey.marks.map Mark.key := by
  unfold weighExcess
  split
  · exact relies_clear _
  · split
    · rfl
    · split
      · exact relies_clear _
      · rfl

theorem relies_giveUp {ticket : Nat} {key : Key} {marks : List Mark} {next : Pass}
    (h : next.relies = marks.map Mark.key) :
    (giveUp c ticket key marks next).2.relies = marks.map Mark.key := by
  rcases (giveUp_spec c ticket key marks next).2.2.2 with hsame | ⟨panic, hdrop⟩
  · rwa [hsame]
  · rw [hdrop]
    rfl

theorem relies_judge (round : Round) (ticket : Nat) (key : Key) (keys : List Key)
    (survey : Survey) :
    ∀ k ∈ (match round with
        | .expiry => judgeExpiry c ticket key keys survey
        | .eviction => judgeEviction c ticket key keys survey).relies,
      k ∈ survey.marks.map Mark.key ∨ c.contains k = true := by
  have marked : ∀ removal, c.contains key = true →
      ∀ k ∈ (survey.mark ticket key removal).marks.map Mark.key,
        k ∈ survey.marks.map Mark.key ∨ c.contains k = true := by
    intro removal hcontains k hk
    rw [Survey.mark, List.map_append, List.mem_append] at hk
    refine hk.imp_right fun hown => ?_
    rwa [List.mem_singleton.mp hown]
  cases round with
  | expiry =>
    simp only [judgeExpiry]
    split
    · exact fun k hk => Or.inl hk
    · next entry hentry =>
      split
      · exact marked .expired (by rw [Cache.contains, hentry]; rfl)
      · exact fun k hk => Or.inl hk
  | eviction =>
    simp only [judgeEviction]
    split
    · next hcontains => exact marked .evicted hcontains
    · exact fun k hk => Or.inl hk

theorem contains_of_effect {effect : Effect} {todo : List Effect} {mark : Mark} {marks : List Mark}
    (h : effect.apply c = some d) (hsheds : (Pass.remove (effect :: todo) mark marks).Sheds)
    (hnodup : ((Pass.remove (effect :: todo) mark marks).holds.map Hold.key).Nodup)
    (hrelies : ∀ key ∈ (Pass.remove (effect :: todo) mark marks).relies, c.contains key = true) :
    ∀ key ∈ (Pass.remove todo mark marks).relies, d.contains key = true := by
  intro key hkey
  have hmarks : key ∈ marks.map Mark.key := by cases hsheds.next <;> exact hkey
  have hholds : mark.key ∉ marks.map Mark.key := by
    simp only [holds, List.map_cons, List.map_map] at hnodup
    exact (List.nodup_cons.mp hnodup).1
  have hne : effect ≠ .erase key := by
    rintro rfl
    cases hsheds.next
    exact hholds hmarks
  refine Effect.contains_apply h hne (hrelies key ?_)
  simp only [relies]
  split
  · exact List.mem_cons_of_mem _ hmarks
  · exact hmarks

theorem contains_step {p next : Pass} {who : Worker} (h : p.step who c = some (d, .more next))
    (hsheds : p.Sheds) (hnodup : (p.holds.map Hold.key).Nodup)
    (hrelies : ∀ key ∈ p.relies, c.contains key = true) :
    ∀ key ∈ next.relies, d.contains key = true := by
  have same : ∀ {q : Pass}, q.relies = p.relies → ∀ key ∈ q.relies, c.contains key = true := by
    intro q hq key hkey
    exact hrelies key (hq ▸ hkey)
  have givenUp : ∀ ticket key marks (q : Pass), q.relies = marks.map Mark.key →
      p.relies = marks.map Mark.key → ∀ k ∈ (giveUp c ticket key marks q).2.relies,
        (giveUp c ticket key marks q).1.contains k = true := by
    intro ticket key marks q hq hp k hk
    rw [relies_giveUp hq] at hk
    rw [Cache.contains, (giveUp_spec c ticket key marks q).1]
    exact hrelies k (hp ▸ hk)
  generalize hprogress : Progress.more next = progress at h
  cases stride_of_step h with
  | visited => cases hprogress; exact same (relies_endRound _ _)
  | @judgeExpiry ticket key keys survey =>
    cases hprogress
    intro k hk
    exact (relies_judge .expiry ticket key keys survey k hk).elim (hrelies k) id
  | @judgeEviction ticket key keys survey =>
    cases hprogress
    intro k hk
    exact (relies_judge .eviction ticket key keys survey k hk).elim (hrelies k) id
  | weigh => cases hprogress; exact same (relies_weighExcess _)
  | dismiss => cases hprogress; exact givenUp _ _ _ _ rfl rfl
  | effect applied =>
    cases hprogress
    exact contains_of_effect applied hsheds hnodup hrelies
  | removed => cases hprogress; exact givenUp _ _ _ _ rfl rfl
  | @free ticket key marks => cases hprogress; exact same (relies_clear marks)
  | unwind =>
    cases hprogress
    next mark marks panic =>
    intro k hk
    rw [relies_giveUp rfl] at hk
    rw [Cache.contains, (giveUp_spec c mark.ticket mark.key marks _).1]
    exact hrelies k (List.mem_cons_of_mem _ hk)
  | leave => cases hprogress
  | _ => cases hprogress; exact hrelies

end Pass

theorem Frame.contains_step {frame next : Frame} {who : Worker}
    (h : frame.step who c = some (d, .more next)) (hsheds : frame.Sheds)
    (hnodup : (frame.holds.map Hold.key).Nodup)
    (hkept : ∀ hold ∈ frame.holds, ∀ effect ∈ hold.pending.tail, effect.overwrites = false)
    (hrelies : ∀ key ∈ frame.relies, c.contains key = true) :
    ∀ key ∈ next.relies, d.contains key = true := by
  cases next with
  | access next =>
    obtain ⟨a, rfl, hstep⟩ := Frame.access_of_step h
    exact Access.contains_step hstep hkept hrelies
  | pass next =>
    obtain ⟨p, rfl, hstep⟩ := Frame.pass_of_step h
    exact Pass.contains_step hstep hsheds hnodup hrelies
  | clock => exact List.forall_mem_nil _
  | taking taking => exact List.forall_mem_nil _

namespace Machine

variable {m n : Machine layout} {event : Event} {excused : Key -> Prop}

def Reliable (m : Machine layout) : Prop :=
  ∀ place frame, m.frameAt place = some frame → ∀ key ∈ frame.relies, m.cache.contains key = true

theorem reliable_ofConfig (config : Config) (clock : Instant) :
    (ofConfig layout config clock).Reliable := by
  intro place frame hframe
  rw [frameAt_ofConfig] at hframe
  cases hframe

theorem Reliable.step (h : m.Reliable) (howned : m.Owned) (htidy : m.Tidy excused)
    (hstep : m.step event = some n) : n.Reliable := by
  intro place frame hframe key hkey
  -- what stands still counts on keys that it holds, which nobody else touches
  have stood : ∀ {frame}, m.frameAt place = some frame → m.acting event ≠ some place →
      ∀ key ∈ frame.relies, n.cache.contains key = true := by
    intro frame hwas hacting key hkey
    have hkeeps := Frame.keeps_of_relies hkey
    have hsame := htidy.isolated howned hstep fun other held hother hheld hkept =>
      hacting (howned.keeper_unique hwas hheld hkeeps hkept ▸ hother)
    rw [hsame.contains_eq]
    exact h place frame hwas key hkey
  cases step_cases hstep with
  | aside frames alike acting =>
    exact stood (frames place ▸ hframe) (by simp [acting]) key hkey
  | opened first began fresh free now others alike acting =>
    by_cases hplace : place = first
    · subst hplace
      cases now.symm.trans hframe
      cases fresh <;> cases hkey
    · exact stood (others place hplace ▸ hframe) (by simp [acting]) key hkey
  | ended first access next outcome was after now others same acting event =>
    by_cases hplace : place = first
    · subst hplace
      cases now.symm.trans hframe
      rw [same]
      exact Access.contains_afterProvider after (h place _ was) key hkey
    · exact stood (others place hplace ▸ hframe) (by simp [acting, Ne.symm hplace]) key hkey
  | stepped first before cache progress was step now others alike acting event kept =>
    by_cases hplace : place = first
    · subst hplace
      rw [now] at hframe
      cases progress with
      | done answer => cases hframe
      | more next =>
        cases hframe
        rw [kept _ rfl]
        exact Frame.contains_step step (htidy.sheds was) (howned.nodup_keys was)
          (fun hold hhold => (htidy.kept was hhold).first) (h place _ was) key hkey
    · exact stood (others place hplace ▸ hframe) (by simp [acting, Ne.symm hplace]) key hkey

end Machine

end TtlCache
