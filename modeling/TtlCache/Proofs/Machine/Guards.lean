import TtlCache.Proofs.Machine.Lookups
import TtlCache.Proofs.Machine.Places
import TtlCache.Proofs.Machine.Strides

/-!
# Guards of operations

An operation names its guards by their tickets.  What it takes them for is read off the point that
it has come to: `Frame.claims`.  The claims of all operations are true of the lock table, and no
two operations claim the same guard.  With the exclusion of holders it follows that a key is held
at one place at most.
-/

namespace TtlCache

variable {layout : Layout}

/-- A guard as an operation takes it to be. -/
structure Claim where
  ticket : Nat
  key : Key
  stage : GuardStage
  deriving DecidableEq, Repr

def Mark.claim (mark : Mark) : Claim := ⟨mark.ticket, mark.key, .holding⟩

def Access.claims (a : Access) : List Claim :=
  match a.point with
  | .register => []
  | .acquire ticket => [⟨ticket, a.key, .waiting⟩]
  | .look ticket | .missed ticket _ | .provide ticket _ | .perform ticket _ _ =>
      [⟨ticket, a.key, .holding⟩]
  | .release ticket _ => [⟨ticket, a.key, .leaving⟩]

def Pass.claims : Pass -> List Claim
  | .enter | .queue | .collect _ _ _ | .decide | .sum _ _ | .leave _ => []
  | .visit _ _ survey | .weigh survey | .choose _ survey => survey.marks.map Mark.claim
  | .acquire _ ticket key _ survey => ⟨ticket, key, .waiting⟩ :: survey.marks.map Mark.claim
  | .judge _ ticket key _ survey | .untrack ticket key _ survey | .dismiss _ ticket key _ survey =>
      ⟨ticket, key, .holding⟩ :: survey.marks.map Mark.claim
  | .release _ ticket key _ survey => ⟨ticket, key, .leaving⟩ :: survey.marks.map Mark.claim
  | .remove _ mark marks => mark.claim :: marks.map Mark.claim
  | .free ticket key marks => ⟨ticket, key, .leaving⟩ :: marks.map Mark.claim
  | .unwind marks _ => marks.map Mark.claim
  | .drop ticket key marks _ => ⟨ticket, key, .leaving⟩ :: marks.map Mark.claim

/-- The guards of an operation. -/
def Frame.claims : Frame -> List Claim
  | .access a => a.claims
  | .pass p => p.claims
  | .clock | .taking _ => []

/-- Whether an operation holds a key. -/
def Frame.Keeps (frame : Frame) (key : Key) : Prop :=
  ∃ ticket, ⟨ticket, key, .holding⟩ ∈ frame.claims

def LockTable.Grants (t : LockTable Key) (claim : Claim) : Prop :=
  ∃ guard, t.guards.get? claim.ticket = some guard ∧ guard.key = claim.key ∧
    guard.stage = claim.stage

/-- What the step of an operation does to the lock table and to its claims. -/
inductive Handling (t : LockTable Key) (claims : List Claim) :
    LockTable Key -> List Claim -> Prop where
  | keep {after} (perm : after.Perm claims) : Handling t claims t after
  | join (key : Key) :
      Handling t claims (t.join key .waiting) (⟨t.nextTicket, key, .waiting⟩ :: claims)
  | acquire {ticket key rest u} (was : claims = ⟨ticket, key, .waiting⟩ :: rest)
      (acquired : t.acquire? ticket = some u) :
      Handling t claims u (⟨ticket, key, .holding⟩ :: rest)
  | unregister {ticket key rest} (was : claims = ⟨ticket, key, .holding⟩ :: rest) :
      Handling t claims (t.unregister ticket).2 (⟨ticket, key, .leaving⟩ :: rest)
  | release {ticket key rest} (was : claims = ⟨ticket, key, .leaving⟩ :: rest) :
      Handling t claims (t.release ticket) rest

theorem Frame.Fresh.claims_eq {frame : Frame} (h : frame.Fresh) : frame.claims = [] := by
  cases h <;> rfl

/-! ## Steps -/

theorem Effect.locks_apply {effect : Effect} {c d : Cache layout} (h : effect.apply c = some d) :
    d.locks = c.locks := by
  cases effect with
  | wake =>
    obtain ⟨sweeper, -, rfl⟩ := Option.map_eq_some_iff.mp h
    rfl
  | erase key => cases h; rfl
  | put key value deadline => cases h; rfl
  | use key => cases h; rfl
  | untrack key => cases h; rfl
  | count counter => cases h; rfl

theorem Access.Sight.claims_eq {a : Access} {ticket : Nat} {now : Instant} {seen : Option Entry}
    {point : AccessPoint} (h : Sight a.key ticket now a.request seen point) :
    ({ a with point := point } : Access).claims = [⟨ticket, a.key, .holding⟩] := by
  cases h <;> rfl

theorem Access.handling_step {a : Access} {c d : Cache layout} {progress : Progress Access}
    (h : a.step c = some (d, progress)) :
    Handling c.locks a.claims d.locks ((progress.point?.map Access.claims).getD []) := by
  cases stride_of_step h with
  | @register key => exact .join key
  | acquire acquired => exact .acquire rfl acquired
  | @look key request ticket =>
    have hsight := sight_look ⟨key, request, .look ticket⟩ c ticket
    rw [(look_rest ⟨key, request, .look ticket⟩ c ticket).1]
    exact .keep (.of_eq hsight.claims_eq)
  | missed => exact .keep (.refl _)
  | effect applied =>
    rw [Effect.locks_apply applied]
    exact .keep (.refl _)
  | @unregister key request ticket answer locks unregistered =>
    have hunregister : Handling c.locks [⟨ticket, key, .holding⟩] (c.locks.unregister ticket).2
        [⟨ticket, key, .leaving⟩] := .unregister rfl
    rwa [unregistered] at hunregister
  | @panic key request ticket answer panic locks unregistered =>
    have hunregister : Handling c.locks [⟨ticket, key, .holding⟩] (c.locks.unregister ticket).2
        [⟨ticket, key, .leaving⟩] := .unregister rfl
    rwa [unregistered] at hunregister
  | release => exact .release rfl

theorem Pass.claims_clear (marks : List Mark) :
    (clear marks).claims = marks.map Mark.claim := by
  cases marks <;> rfl

theorem Pass.claims_endRound (c : Cache layout) (survey : Survey) (round : Round) :
    (endRound c survey round).claims = survey.marks.map Mark.claim := by
  cases round with
  | expiry =>
    simp only [endRound]
    split
    · rfl
    · exact claims_clear _
  | eviction => exact claims_clear _

theorem Pass.claims_weighExcess (c : Cache layout) (survey : Survey) :
    (weighExcess c survey).claims = survey.marks.map Mark.claim := by
  unfold weighExcess
  split
  · exact claims_clear _
  · split
    · rfl
    · split
      · exact claims_clear _
      · rfl

theorem Pass.claims_mark (survey : Survey) (ticket : Nat) (key : Key) (removal : Removal) :
    ((survey.mark ticket key removal).marks.map Mark.claim).Perm
      (⟨ticket, key, .holding⟩ :: survey.marks.map Mark.claim) := by
  rw [Survey.mark, List.map_append]
  exact List.perm_append_singleton _ _

theorem Pass.claims_judgeExpiry (c : Cache layout) (ticket : Nat) (key : Key) (keys : List Key)
    (survey : Survey) :
    (judgeExpiry c ticket key keys survey).claims.Perm
      (⟨ticket, key, .holding⟩ :: survey.marks.map Mark.claim) := by
  unfold judgeExpiry
  split
  · exact .refl _
  · split
    · exact claims_mark survey ticket key .expired
    · exact .refl _

theorem Pass.claims_judgeEviction (c : Cache layout) (ticket : Nat) (key : Key) (keys : List Key)
    (survey : Survey) :
    (judgeEviction c ticket key keys survey).claims.Perm
      (⟨ticket, key, .holding⟩ :: survey.marks.map Mark.claim) := by
  unfold judgeEviction
  split
  · exact claims_mark survey ticket key .evicted
  · exact .refl _

theorem Pass.handling_giveUp {c : Cache layout} {ticket : Nat} {key : Key} {marks : List Mark}
    {next : Pass} {claims : List Claim}
    (hwas : claims = ⟨ticket, key, .holding⟩ :: marks.map Mark.claim)
    (hnext : next.claims = ⟨ticket, key, .leaving⟩ :: marks.map Mark.claim) :
    Handling c.locks claims (giveUp c ticket key marks next).1.locks
      (giveUp c ticket key marks next).2.claims := by
  have hunregister := Handling.unregister (t := c.locks) hwas
  unfold giveUp
  split
  · next hpanic =>
    rw [hpanic] at hunregister
    rwa [hnext]
  · next hpanic => rwa [hpanic] at hunregister

theorem Pass.handling_step {p : Pass} {who : Worker} {c d : Cache layout}
    {progress : Progress Pass} (h : p.step who c = some (d, progress)) :
    Handling c.locks p.claims d.locks ((progress.point?.map Pass.claims).getD []) := by
  cases stride_of_step h with
  | enter => exact .keep (.refl _)
  | begin free => exact .keep (.refl _)
  | list listed => exact .keep (.refl _)
  | listed behind => exact .keep (.refl _)
  | @register round key => exact .join key
  | @visited round survey => exact .keep (.of_eq (claims_endRound c survey round))
  | acquire acquired => exact .acquire rfl acquired
  | judgeExpiry => exact .keep (claims_judgeExpiry c _ _ _ _)
  | judgeEviction => exact .keep (claims_judgeEviction c _ _ _ _)
  | untrack => exact .keep (.refl _)
  | dismiss => exact handling_giveUp rfl rfl
  | release => exact .release rfl
  | @weigh survey => exact .keep (.of_eq (claims_weighExcess c survey))
  | choose => exact .keep (.refl _)
  | effect applied =>
    rw [Effect.locks_apply applied]
    exact .keep (.refl _)
  | removed => exact handling_giveUp rfl rfl
  | free =>
    simp only [Progress.point?, Option.map_some, Option.getD_some, claims_clear]
    exact .release rfl
  | decide begun => exact .keep (.refl _)
  | sum listed => exact .keep (.refl _)
  | summed behind => exact .keep (.refl _)
  | unwind => exact handling_giveUp rfl rfl
  | unwound => exact .keep (.refl _)
  | drop => exact .release rfl
  | leave => exact .keep (.refl _)

theorem Frame.handling_step {frame : Frame} {who : Worker} {c d : Cache layout}
    {progress : Progress Frame} (h : frame.step who c = some (d, progress)) :
    Handling c.locks frame.claims d.locks ((progress.point?.map Frame.claims).getD []) := by
  cases stride_of_step h with
  | access step =>
    rw [Progress.point?_map, Option.map_map]
    exact Access.handling_step step
  | pass step =>
    rw [Progress.point?_map, Option.map_map]
    exact Pass.handling_step step
  | clock => exact .keep (.refl _)
  | take => exact .keep (.refl _)
  | taken => exact .keep (.refl _)

theorem Access.claims_afterProvider {a next : Access} {now : Instant} {outcome : Outcome}
    (h : a.afterProvider now outcome = some next) : next.claims = a.claims := by
  unfold afterProvider at h
  split at h
  · next hpoint hrequest =>
    split at h
    · split at h
      · cases h
        simp only [claims, hpoint]
      · cases h
    · cases h
      simp only [claims, hpoint]
    · cases h
      simp only [claims, hpoint]
  · cases h

/-! ## True claims -/

/-- True claims, no two of them on one guard. -/
structure LockTable.Bears (t : LockTable Key) (claims : List Claim) : Prop where
  granted : ∀ {claim}, claim ∈ claims → t.Grants claim
  apart : (claims.map Claim.ticket).Nodup

/-- A step keeps claims true, those of others too, and claims no guard of others. -/
structure Handled (t : LockTable Key) (claims : List Claim) (u : LockTable Key)
    (after : List Claim) : Prop where
  sound : u.Sound
  bears : u.Bears after
  others : ∀ {claim}, t.Grants claim → (∀ mine ∈ claims, mine.ticket ≠ claim.ticket) →
    u.Grants claim
  tickets : ∀ {claim}, claim ∈ after →
    claim.ticket = t.nextTicket ∨ ∃ mine ∈ claims, mine.ticket = claim.ticket

section

variable {t u : LockTable Key} {ticket : Nat} {key : Key} {rest : List Claim}

theorem LockTable.Bears.tail {claim : Claim} (h : t.Bears (claim :: rest)) :
    t.Bears rest ∧ ∀ other ∈ rest, other.ticket ≠ claim.ticket := by
  have hapart := h.apart
  rw [List.map_cons, List.nodup_cons] at hapart
  refine ⟨⟨fun hmem => h.granted (List.mem_cons_of_mem _ hmem), hapart.2⟩, ?_⟩
  exact fun other hother heq => hapart.1 (heq ▸ List.mem_map_of_mem hother)

theorem LockTable.Bears.cons {claim : Claim} (h : t.Bears rest) (hclaim : t.Grants claim)
    (hnew : ∀ other ∈ rest, other.ticket ≠ claim.ticket) : t.Bears (claim :: rest) where
  granted := by
    intro other hother
    rcases List.mem_cons.mp hother with rfl | hrest
    · exact hclaim
    · exact h.granted hrest
  apart := by
    rw [List.map_cons, List.nodup_cons]
    refine ⟨fun hmem => ?_, h.apart⟩
    obtain ⟨other, hother, heq⟩ := List.mem_map.mp hmem
    exact hnew other hother heq

theorem Handled.of_first {before stage : GuardStage}
    (hbears : t.Bears (⟨ticket, key, before⟩ :: rest)) (hsound : u.Sound)
    (hothers : ∀ claim, t.Grants claim → claim.ticket ≠ ticket → u.Grants claim)
    (hfirst : u.Grants ⟨ticket, key, stage⟩) :
    Handled t (⟨ticket, key, before⟩ :: rest) u (⟨ticket, key, stage⟩ :: rest) := by
  obtain ⟨hrest, hapart⟩ := hbears.tail
  have hkept : u.Bears rest :=
    ⟨fun hmem => hothers _ (hrest.granted hmem) (hapart _ hmem), hrest.apart⟩
  refine ⟨hsound, hkept.cons hfirst hapart, ?_, ?_⟩
  · intro claim hclaim hmine
    exact hothers claim hclaim (hmine _ List.mem_cons_self).symm
  · intro claim hclaim
    rcases List.mem_cons.mp hclaim with rfl | hmem
    · exact Or.inr ⟨_, List.mem_cons_self, rfl⟩
    · exact Or.inr ⟨claim, List.mem_cons_of_mem _ hmem, rfl⟩

theorem Handled.join {claims : List Claim} (hsound : t.Sound) (hbears : t.Bears claims)
    (key : Key) :
    Handled t claims (t.join key .waiting) (⟨t.nextTicket, key, .waiting⟩ :: claims) := by
  have hold : ∀ claim, t.Grants claim → claim.ticket ≠ t.nextTicket := by
    rintro claim ⟨guard, hguard, -⟩ heq
    rw [heq] at hguard
    exact hsound.nextTicket_fresh (Table.mem_keys_iff.mpr (hguard ▸ rfl))
  have hkept : ∀ claim, t.Grants claim → (t.join key .waiting).Grants claim := by
    intro claim hclaim
    obtain ⟨guard, hguard, hrest⟩ := hclaim
    refine ⟨guard, ?_, hrest⟩
    rw [LockTable.get?_guards_join, if_neg (hold claim ⟨guard, hguard, hrest⟩), hguard]
  have hclaims : (t.join key .waiting).Bears claims :=
    ⟨fun hmem => hkept _ (hbears.granted hmem), hbears.apart⟩
  refine ⟨hsound.join key (by simp) (by simp), hclaims.cons ?_ ?_, ?_, ?_⟩
  · exact ⟨_, by rw [LockTable.get?_guards_join, if_pos rfl], rfl, rfl⟩
  · exact fun other hother => hold other (hbears.granted hother)
  · exact fun hclaim _ => hkept _ hclaim
  · intro claim hclaim
    rcases List.mem_cons.mp hclaim with rfl | hmem
    · exact Or.inl rfl
    · exact Or.inr ⟨claim, hmem, rfl⟩

theorem Handled.acquire (hsound : t.Sound) (hbears : t.Bears (⟨ticket, key, .waiting⟩ :: rest))
    (h : t.acquire? ticket = some u) :
    Handled t (⟨ticket, key, .waiting⟩ :: rest) u (⟨ticket, key, .holding⟩ :: rest) := by
  obtain ⟨guard, hguard, hstage, hfree, rfl⟩ := LockTable.acquire?_eq_some_iff.mp h
  obtain ⟨known, hknown, hkey, -⟩ := hbears.granted List.mem_cons_self
  cases hguard.symm.trans hknown
  refine .of_first hbears (hsound.acquire hguard hstage hfree) ?_ ?_
  · rintro claim ⟨other, hother, hrest⟩ hne
    exact ⟨other, by rw [LockTable.get?_guards_advance, if_neg hne, hother], hrest⟩
  · refine ⟨{ guard with stage := .holding }, ?_, hkey, rfl⟩
    rw [LockTable.get?_guards_advance, if_pos rfl, hguard]
    rfl

theorem Handled.unregister (hsound : t.Sound)
    (hbears : t.Bears (⟨ticket, key, .holding⟩ :: rest)) :
    Handled t (⟨ticket, key, .holding⟩ :: rest) (t.unregister ticket).2
      (⟨ticket, key, .leaving⟩ :: rest) := by
  obtain ⟨guard, hguard, hkey, hstage⟩ := hbears.granted List.mem_cons_self
  obtain ⟨record, hrecord, -⟩ := hsound.recorded hguard (by simp [hstage])
  have hguards := LockTable.Sound.guards_unregister hguard hrecord (hsound.wanted hrecord)
  refine .of_first hbears (hsound.unregister hguard hstage).2 ?_ ?_
  · rintro claim ⟨other, hother, hrest⟩ hne
    refine ⟨other, ?_, hrest⟩
    rw [hguards, LockTable.get?_guards_advance, if_neg hne, hother]
  · refine ⟨{ guard with stage := .leaving }, ?_, hkey, rfl⟩
    rw [hguards, LockTable.get?_guards_advance, if_pos rfl, hguard]
    rfl

theorem Handled.release (hsound : t.Sound) (hbears : t.Bears (⟨ticket, key, .leaving⟩ :: rest)) :
    Handled t (⟨ticket, key, .leaving⟩ :: rest) (t.release ticket) rest := by
  obtain ⟨guard, hguard, -, hstage⟩ := hbears.granted List.mem_cons_self
  obtain ⟨hrest, hapart⟩ := hbears.tail
  have hkept : ∀ claim, t.Grants claim → claim.ticket ≠ ticket →
      (t.release ticket).Grants claim := by
    rintro claim ⟨other, hother, hother'⟩ hne
    exact ⟨other, by rw [LockTable.release, Table.get?_erase, if_neg hne, hother], hother'⟩
  refine ⟨hsound.release hguard hstage, ⟨?_, hrest.apart⟩, ?_, ?_⟩
  · exact fun hmem => hkept _ (hrest.granted hmem) (hapart _ hmem)
  · exact fun hclaim hmine => hkept _ hclaim (hmine _ List.mem_cons_self).symm
  · exact fun hmem => Or.inr ⟨_, List.mem_cons_of_mem _ hmem, rfl⟩

end

theorem Handling.handled {t u : LockTable Key} {claims after : List Claim}
    (h : Handling t claims u after) (hsound : t.Sound) (hbears : t.Bears claims) :
    Handled t claims u after := by
  cases h with
  | keep perm =>
    refine ⟨hsound, ⟨?_, (perm.map Claim.ticket).nodup_iff.mpr hbears.apart⟩, ?_, ?_⟩
    · exact fun hmem => hbears.granted (perm.mem_iff.mp hmem)
    · exact fun hclaim _ => hclaim
    · exact fun hmem => Or.inr ⟨_, perm.mem_iff.mp hmem, rfl⟩
  | join key => exact .join hsound hbears key
  | acquire was acquired =>
    subst was
    exact .acquire hsound hbears acquired
  | unregister was =>
    subst was
    exact .unregister hsound hbears
  | release was =>
    subst was
    exact .release hsound hbears

namespace Machine

/-- The lock table is sound, and the claims of all operations are true and on different guards. -/
structure Owned (m : Machine layout) : Prop where
  sound : m.cache.locks.Sound
  bears : ∀ {place frame}, m.frameAt place = some frame → m.cache.locks.Bears frame.claims
  disjoint : ∀ {a b frame other claim same}, m.frameAt a = some frame →
    m.frameAt b = some other → claim ∈ frame.claims → same ∈ other.claims →
    claim.ticket = same.ticket → a = b

theorem frameAt_ofConfig (config : Config) (clock : Instant) (place : Place) :
    (ofConfig layout config clock).frameAt place = none := by
  cases place <;> rfl

theorem owned_ofConfig (config : Config) (clock : Instant) :
    (ofConfig layout config clock).Owned where
  sound := LockTable.sound_empty
  bears := by
    intro place frame hframe
    rw [frameAt_ofConfig] at hframe
    cases hframe
  disjoint := by
    intro a b frame other claim same hframe
    rw [frameAt_ofConfig] at hframe
    cases hframe

namespace Owned

variable {m n : Machine layout}

/-- It is enough to look at the operation that takes the step. -/
theorem update (h : m.Owned) {place : Place} {claims after : List Claim}
    (hothers : m.SameBut n place)
    (hhandled : Handled m.cache.locks claims n.cache.locks after)
    (hwas : ∀ {claim}, claim ∈ claims →
      ∃ frame, m.frameAt place = some frame ∧ claim ∈ frame.claims)
    (hnow : ∀ {frame}, n.frameAt place = some frame → frame.claims = after) : n.Owned := by
  -- the guards of other operations are not those of this one
  have foreign : ∀ {other frame claim}, other ≠ place → m.frameAt other = some frame →
      claim ∈ frame.claims → ∀ mine ∈ claims, mine.ticket ≠ claim.ticket := by
    intro other frame claim hother hframe hclaim mine hmine heq
    obtain ⟨own, hown, hmine⟩ := hwas hmine
    exact hother (h.disjoint hframe hown hclaim hmine heq.symm)
  have apart : ∀ {other frame claim mine}, other ≠ place → m.frameAt other = some frame →
      claim ∈ frame.claims → mine ∈ after → mine.ticket ≠ claim.ticket := by
    intro other frame claim mine hother hframe hclaim hmine heq
    rcases hhandled.tickets hmine with hnew | ⟨was, hwasMem, hsame⟩
    · obtain ⟨guard, hguard, -⟩ := (h.bears hframe).granted hclaim
      have hlt := h.sound.ticket_lt hguard
      omega
    · exact foreign hother hframe hclaim was hwasMem (hsame.trans heq)
  constructor
  case sound => exact hhandled.sound
  case bears =>
    intro other frame hframe
    by_cases hother : other = place
    · subst hother
      rw [hnow hframe]
      exact hhandled.bears
    · rw [hothers other hother] at hframe
      refine ⟨fun hclaim => ?_, (h.bears hframe).apart⟩
      exact hhandled.others ((h.bears hframe).granted hclaim) (foreign hother hframe hclaim)
  case disjoint =>
    intro a b frame other claim same ha hb hclaim hsame heq
    by_cases haplace : a = place
    · subst haplace
      by_cases hbplace : b = a
      · exact hbplace.symm
      · rw [hothers b hbplace] at hb
        rw [hnow ha] at hclaim
        exact absurd heq (apart hbplace hb hsame hclaim)
    · rw [hothers a haplace] at ha
      by_cases hbplace : b = place
      · subst hbplace
        rw [hnow hb] at hsame
        exact absurd heq.symm (apart haplace ha hclaim hsame)
      · rw [hothers b hbplace] at hb
        exact h.disjoint ha hb hclaim hsame heq

theorem step (h : m.Owned) {event : Event} (hstep : m.step event = some n) : n.Owned := by
  cases step_cases hstep with
  | aside frames alike acting =>
    refine ⟨alike.locks_eq ▸ h.sound, ?_, ?_⟩
    · intro place frame hframe
      rw [frames] at hframe
      exact alike.locks_eq ▸ h.bears hframe
    · intro a b frame other claim same ha hb
      rw [frames] at ha hb
      exact h.disjoint ha hb
  | opened place frame fresh free now others alike acting =>
    have hhandled : Handled m.cache.locks [] n.cache.locks [] := by
      rw [alike.locks_eq]
      have hnothing : m.cache.locks.Bears [] :=
        ⟨fun hmem => absurd hmem List.not_mem_nil, List.nodup_nil⟩
      exact (Handling.keep (.refl _)).handled h.sound hnothing
    refine h.update others hhandled (fun hclaim => absurd hclaim List.not_mem_nil) ?_
    intro frame hframe
    cases now.symm.trans hframe
    exact fresh.claims_eq
  | ended place access next outcome was after now others same acting event =>
    have hhandled : Handled m.cache.locks access.claims n.cache.locks access.claims := by
      rw [same]
      exact (Handling.keep (.refl _)).handled h.sound (h.bears was)
    refine h.update others hhandled (fun hclaim => ⟨_, was, hclaim⟩) ?_
    intro frame hframe
    cases now.symm.trans hframe
    exact Access.claims_afterProvider after
  | stepped place frame cache progress was step now others alike acting event =>
    have hhandled := (Frame.handling_step step).handled h.sound (h.bears was)
    refine h.update others (alike.locks_eq ▸ hhandled) (fun hclaim => ⟨_, was, hclaim⟩) ?_
    intro frame hframe
    rw [now] at hframe
    rw [hframe]
    rfl

theorem keeper_unique (h : m.Owned) {a b : Place} {frame other : Frame} {key : Key}
    (ha : m.frameAt a = some frame) (hb : m.frameAt b = some other) (hframe : frame.Keeps key)
    (hother : other.Keeps key) : a = b := by
  obtain ⟨ticket, hclaim⟩ := hframe
  obtain ⟨same, hsame⟩ := hother
  obtain ⟨guard, hguard, hkey, hstage⟩ := (h.bears ha).granted hclaim
  obtain ⟨second, hsecond, hkey', hstage'⟩ := (h.bears hb).granted hsame
  have heq := h.sound.holder_unique hguard hsecond hstage hstage' (hkey.trans hkey'.symm)
  exact h.disjoint ha hb hclaim hsame heq

/-- Who holds a key gives it back without a panic. -/
theorem unregister_eq_none (h : m.Owned) {place : Place} {frame : Frame}
    (hframe : m.frameAt place = some frame) {ticket : Nat} {key : Key}
    (hclaim : ⟨ticket, key, .holding⟩ ∈ frame.claims) :
    (m.cache.locks.unregister ticket).1 = none := by
  obtain ⟨guard, hguard, -, hstage⟩ := (h.bears hframe).granted hclaim
  exact (h.sound.unregister hguard hstage).1

end Owned

end Machine

end TtlCache
