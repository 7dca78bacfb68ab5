import TtlCache.Proofs.Machine.Care

/-!
# Custody of keys

What `Frame.holds` says of one operation is put together here for all of them.  A key is held by
one operation at most, no other one changes it in the meantime, and what is true of a held key
stays true.  `Machine.Tidy` is the invariant: every held key is as its holder takes it to be, and
every other key is in order.
-/

namespace TtlCache

variable {layout : Layout}

/-! ## Held keys and guards -/

def Hold.claim (hold : Hold) : Claim := ⟨hold.ticket, hold.key, .holding⟩

theorem filter_claims_marks (marks : List Mark) :
    (marks.map Mark.claim).filter (fun claim => decide (claim.stage = .holding)) =
      (marks.map Mark.hold).map Hold.claim := by
  rw [List.map_map, List.filter_eq_self.mpr]
  · rfl
  · intro claim hclaim
    obtain ⟨mark, -, rfl⟩ := List.mem_map.mp hclaim
    rfl

namespace Frame

theorem claims_holding (frame : Frame) :
    frame.claims.filter (fun claim => decide (claim.stage = .holding)) =
      frame.holds.map Hold.claim := by
  cases frame with
  | access a =>
    cases hpoint : a.point <;>
      simp [claims, holds, Access.claims, Access.holds, hpoint, Hold.claim]
  | pass p =>
    cases p <;>
      simp [claims, holds, Pass.claims, Pass.holds, filter_claims_marks, Hold.claim, Mark.claim]
  | clock => rfl
  | taking taking => rfl

theorem mem_claims_of_hold {frame : Frame} {hold : Hold} (h : hold ∈ frame.holds) :
    hold.claim ∈ frame.claims := by
  have hmem : hold.claim ∈ frame.holds.map Hold.claim := List.mem_map_of_mem h
  rw [← claims_holding] at hmem
  exact List.mem_of_mem_filter hmem

theorem exists_hold {frame : Frame} {ticket : Nat} {key : Key}
    (h : ⟨ticket, key, .holding⟩ ∈ frame.claims) :
    ∃ hold ∈ frame.holds, hold.ticket = ticket ∧ hold.key = key := by
  have hmem : (⟨ticket, key, .holding⟩ : Claim) ∈ frame.holds.map Hold.claim := by
    rw [← claims_holding, List.mem_filter]
    exact ⟨h, rfl⟩
  obtain ⟨hold, hhold, heq⟩ := List.mem_map.mp hmem
  exact ⟨hold, hhold, congrArg Claim.ticket heq, congrArg Claim.key heq⟩

theorem keeps_iff {frame : Frame} {key : Key} :
    frame.Keeps key ↔ ∃ hold ∈ frame.holds, hold.key = key := by
  constructor
  · rintro ⟨ticket, hclaim⟩
    obtain ⟨hold, hhold, -, hkey⟩ := exists_hold hclaim
    exact ⟨hold, hhold, hkey⟩
  · rintro ⟨hold, hhold, rfl⟩
    exact ⟨hold.ticket, mem_claims_of_hold hhold⟩

def began? : Frame -> Option Instant
  | .pass p => p.began?
  | _ => none

theorem Fresh.began?_eq {frame : Frame} (h : frame.Fresh) : frame.began? = none := by
  cases h <;> rfl

end Frame

/-! ## Steps -/

theorem Cache.Alike.sameKey {c d : Cache layout} (h : c.Alike d) (key : Key) : c.SameKey d key :=
  ⟨h.get?_eq key, Cache.tracks_congr h.evictor_eq key⟩

namespace Pass

variable {c d : Cache layout}

theorem began?_clear (marks : List Mark) : (clear marks).began? = none := by
  cases marks <;> rfl

theorem began?_endRound {survey : Survey} {round : Round} {now : Instant}
    (h : (endRound c survey round).began? = some now) : survey.now = now := by
  cases round with
  | expiry =>
    simp only [endRound] at h
    split at h
    · exact Option.some.inj h
    · rw [began?_clear] at h
      cases h
  | eviction =>
    rw [endRound, began?_clear] at h
    cases h

theorem began?_judgeExpiry (c : Cache layout) (ticket : Nat) (key : Key) (keys : List Key)
    (survey : Survey) : (judgeExpiry c ticket key keys survey).began? = some survey.now := by
  unfold judgeExpiry
  split
  · rfl
  · split <;> rfl

theorem began?_judgeEviction (c : Cache layout) (ticket : Nat) (key : Key) (keys : List Key)
    (survey : Survey) : (judgeEviction c ticket key keys survey).began? = some survey.now := by
  unfold judgeEviction
  split <;> rfl

theorem began?_weighExcess {survey : Survey} {now : Instant}
    (h : (weighExcess c survey).began? = some now) : survey.now = now := by
  unfold weighExcess at h
  split at h
  · rw [began?_clear] at h
    cases h
  · split at h
    · cases h
    · split at h
      · rw [began?_clear] at h
        cases h
      · exact Option.some.inj h

theorem began?_giveUp {ticket : Nat} {key : Key} {marks : List Mark} {next : Pass} {now : Instant}
    (h : (giveUp c ticket key marks next).2.began? = some now) : next.began? = some now := by
  rcases (giveUp_spec c ticket key marks next).2.2.2 with hsame | ⟨panic, hdrop⟩
  · rwa [hsame] at h
  · rw [hdrop] at h
    cases h

theorem began?_step {p next : Pass} {who : Worker} {now : Instant}
    (h : p.step who c = some (d, .more next)) (hbegan : next.began? = some now) :
    p.began? = some now ∨ now = c.clock := by
  cases stride_of_step h with
  | enter => cases hbegan
  | begin free => exact Or.inr (Option.some.inj hbegan).symm
  | list listed => exact Or.inl hbegan
  | listed behind => exact Or.inl hbegan
  | register => exact Or.inl hbegan
  | visited => exact Or.inl (congrArg some (began?_endRound hbegan))
  | acquire acquired => exact Or.inl hbegan
  | judgeExpiry =>
    rw [began?_judgeExpiry] at hbegan
    exact Or.inl hbegan
  | judgeEviction =>
    rw [began?_judgeEviction] at hbegan
    exact Or.inl hbegan
  | untrack => exact Or.inl hbegan
  | @dismiss round ticket key keys survey =>
    have hnext : (Pass.release round ticket key keys survey).began? = some now :=
      began?_giveUp hbegan
    exact Or.inl hnext
  | release => exact Or.inl hbegan
  | weigh => exact Or.inl (congrArg some (began?_weighExcess hbegan))
  | choose => exact Or.inl hbegan
  | effect applied => cases hbegan
  | removed =>
    have hnone := began?_giveUp hbegan
    cases hnone
  | free =>
    rw [began?_clear] at hbegan
    cases hbegan
  | decide begun => cases hbegan
  | sum listed => cases hbegan
  | summed behind => cases hbegan
  | unwind =>
    have hnone := began?_giveUp hbegan
    cases hnone
  | unwound => cases hbegan
  | drop => cases hbegan

/-- A pass that removes an entry is on its way through the effects of the mark. -/
def Sheds : Pass -> Prop
  | .remove todo mark _ => todo <:+ mark.effects
  | _ => True

/-- The next effect of a removal, and the ones after it. -/
inductive Sheds.Next (mark : Mark) : Effect -> List Effect -> Prop where
  | erase : Next mark (.erase mark.key) [.untrack mark.key, .count mark.removal.counter]
  | untrack : Next mark (.untrack mark.key) [.count mark.removal.counter]
  | count : Next mark (.count mark.removal.counter) []

theorem Sheds.next {effect : Effect} {todo : List Effect} {mark : Mark} {marks : List Mark}
    (h : (Pass.remove (effect :: todo) mark marks).Sheds) : Next mark effect todo := by
  have hsuffix : effect :: todo <:+ mark.effects := h
  simp only [Mark.effects, List.suffix_cons_iff, List.suffix_nil, List.cons.injEq,
    reduceCtorEq, or_false] at hsuffix
  rcases hsuffix with ⟨rfl, rfl⟩ | ⟨rfl, rfl⟩ | ⟨rfl, rfl⟩
  · exact .erase
  · exact .untrack
  · exact .count

theorem sheds_clear (marks : List Mark) : (clear marks).Sheds := by
  cases marks with
  | nil => trivial
  | cons mark marks => exact List.suffix_refl _

theorem sheds_endRound (c : Cache layout) (survey : Survey) (round : Round) :
    (endRound c survey round).Sheds := by
  cases round with
  | expiry =>
    simp only [endRound]
    split
    · trivial
    · exact sheds_clear _
  | eviction => exact sheds_clear _

theorem sheds_weighExcess (c : Cache layout) (survey : Survey) : (weighExcess c survey).Sheds := by
  unfold weighExcess
  split
  · exact sheds_clear _
  · split
    · trivial
    · split
      · exact sheds_clear _
      · trivial

theorem sheds_judgeExpiry (c : Cache layout) (ticket : Nat) (key : Key) (keys : List Key)
    (survey : Survey) : (judgeExpiry c ticket key keys survey).Sheds := by
  unfold judgeExpiry
  split
  · trivial
  · split <;> trivial

theorem sheds_judgeEviction (c : Cache layout) (ticket : Nat) (key : Key) (keys : List Key)
    (survey : Survey) : (judgeEviction c ticket key keys survey).Sheds := by
  unfold judgeEviction
  split <;> trivial

theorem sheds_giveUp {c : Cache layout} {ticket : Nat} {key : Key} {marks : List Mark} {next : Pass}
    (h : next.Sheds) : (giveUp c ticket key marks next).2.Sheds := by
  rcases (giveUp_spec c ticket key marks next).2.2.2 with hsame | ⟨panic, hdrop⟩
  · rwa [hsame]
  · rw [hdrop]
    trivial

theorem sheds_step {p next : Pass} {who : Worker} (h : p.step who c = some (d, .more next))
    (hsheds : p.Sheds) : next.Sheds := by
  cases stride_of_step h with
  | @visited round survey => exact sheds_endRound c survey round
  | judgeExpiry => exact sheds_judgeExpiry c _ _ _ _
  | judgeEviction => exact sheds_judgeEviction c _ _ _ _
  | dismiss => exact sheds_giveUp trivial
  | @weigh survey => exact sheds_weighExcess c survey
  | @effect effect todo => exact (List.suffix_cons effect todo).trans hsheds
  | removed => exact sheds_giveUp trivial
  | @free ticket key marks => exact sheds_clear marks
  | unwind => exact sheds_giveUp trivial
  | _ => trivial

end Pass

namespace Frame

variable {frame : Frame} {c d : Cache layout} {excused : Key -> Prop}

theorem began?_step {who : Worker} {progress : Progress Frame} {next : Frame} {now : Instant}
    (h : frame.step who c = some (d, progress)) (hnext : progress.point? = some next)
    (hbegan : next.began? = some now) : frame.began? = some now ∨ now = c.clock := by
  cases stride_of_step h with
  | access step =>
    rw [Progress.point?_map] at hnext
    obtain ⟨a, -, rfl⟩ := Option.map_eq_some_iff.mp hnext
    cases hbegan
  | @pass p d progress step =>
    cases progress <;> cases hnext
    exact Pass.began?_step step hbegan
  | clock =>
    cases hnext
    cases hbegan
  | take =>
    cases hnext
    cases hbegan
  | taken => cases hnext

/-- What an operation that removes an entry is about. -/
def Sheds : Frame -> Prop
  | .pass p => p.Sheds
  | _ => True

theorem Fresh.sheds (h : frame.Fresh) : frame.Sheds := by
  cases h <;> trivial

theorem sheds_step {who : Worker} {progress : Progress Frame} {next : Frame}
    (h : frame.step who c = some (d, progress)) (hnext : progress.point? = some next)
    (hsheds : frame.Sheds) : next.Sheds := by
  cases stride_of_step h with
  | access step =>
    rw [Progress.point?_map] at hnext
    obtain ⟨a, -, rfl⟩ := Option.map_eq_some_iff.mp hnext
    trivial
  | @pass p d progress step =>
    cases progress <;> cases hnext
    exact Pass.sheds_step step hsheds
  | clock =>
    cases hnext
    trivial
  | take =>
    cases hnext
    trivial
  | taken => cases hnext

theorem careful_step {who : Worker} {progress : Progress Frame}
    (h : frame.step who c = some (d, progress)) (hranked : c.Ranked)
    (hkept : ∀ hold ∈ frame.holds, hold.Kept c excused)
    (hapart : (frame.holds.map Hold.key).Nodup)
    (htime : ∀ now, frame.began? = some now → now.nanos ≤ c.clock.nanos)
    (hnew : ∀ ticket key locks, ⟨ticket, key, .waiting⟩ ∈ frame.claims →
      c.locks.acquire? ticket = some locks → Hold.Kept ⟨ticket, key, [], false⟩ c excused) :
    Careful c frame.holds excused (frame.note? c) d ((progress.point?.map holds).getD []) := by
  cases stride_of_step h with
  | access step =>
    rw [Progress.point?_map, Option.map_map]
    exact Access.careful_step step hranked hkept hnew
  | pass step =>
    rw [Progress.point?_map, Option.map_map]
    exact Pass.careful_step step hranked hkept hapart htime hnew
  | clock => exact .of_idle hranked rfl rfl rfl
  | take => exact .of_idle hranked rfl rfl rfl
  | taken => exact .of_idle hranked rfl rfl rfl

end Frame

namespace Machine

variable {m n : Machine layout} {event : Event}

theorem Owned.nodup_keys (h : m.Owned) {place : Place} {frame : Frame}
    (hframe : m.frameAt place = some frame) : (frame.holds.map Hold.key).Nodup := by
  have hbears := h.bears hframe
  have htickets : ((frame.holds.map Hold.claim).map Claim.ticket).Nodup := by
    rw [← frame.claims_holding]
    exact (List.filter_sublist.map Claim.ticket).nodup hbears.apart
  rw [List.map_map, List.Nodup, List.pairwise_map] at htickets
  rw [List.Nodup, List.pairwise_map]
  refine htickets.imp_of_mem ?_
  intro first second hfirst hsecond hne heq
  obtain ⟨guard, hguard, hkey, hstage⟩ := hbears.granted (Frame.mem_claims_of_hold hfirst)
  obtain ⟨other, hother, hkey', hstage'⟩ := hbears.granted (Frame.mem_claims_of_hold hsecond)
  refine hne (h.sound.holder_unique hguard hother hstage hstage' ?_)
  exact (hkey.trans heq).trans hkey'.symm

/-- Every held key is as its holder takes it to be, and every other one is in order. -/
structure Tidy (m : Machine layout) (excused : Key -> Prop) : Prop where
  ranked : m.cache.Ranked
  kept : ∀ {place frame hold}, m.frameAt place = some frame → hold ∈ frame.holds →
    hold.Kept m.cache excused
  free : ∀ {key}, (∀ place frame, m.frameAt place = some frame → ¬frame.Keeps key) →
    m.cache.evictor.isSome = true →
      Settles [] (m.cache.contains key = true) (m.cache.Tracks key) (excused key)
  timely : ∀ {place frame now}, m.frameAt place = some frame → frame.began? = some now →
    now.nanos ≤ m.cache.clock.nanos
  sheds : ∀ {place frame}, m.frameAt place = some frame → frame.Sheds

/-- A key that can be acquired is held by nobody: its mutex would be locked. -/
theorem Owned.unkept_of_acquire (h : m.Owned) {place : Place} {frame : Frame} {ticket : Nat}
    {key : Key} {locks : LockTable Key} (hframe : m.frameAt place = some frame)
    (hwaiting : ⟨ticket, key, .waiting⟩ ∈ frame.claims)
    (hacquire : m.cache.locks.acquire? ticket = some locks) :
    ∀ other held, m.frameAt other = some held → ¬held.Keeps key := by
  rintro other held hheld ⟨same, hclaim⟩
  obtain ⟨guard, hguard, hstage, hfree, -⟩ := LockTable.acquire?_eq_some_iff.mp hacquire
  obtain ⟨known, hknown, hkey, -⟩ := (h.bears hframe).granted hwaiting
  obtain ⟨holder, hholder, hkey', hholding⟩ := (h.bears hheld).granted hclaim
  cases hguard.symm.trans hknown
  obtain ⟨record, hrecord, hmutex⟩ := h.sound.recorded hguard (by simp [hstage])
  obtain ⟨record', hrecord', hmutex'⟩ := h.sound.recorded hholder (by simp [hholding])
  have hsame : record' = record := by
    rw [hkey] at hrecord
    rw [hkey', hrecord] at hrecord'
    exact (Option.some.inj hrecord').symm
  have hlocked : m.cache.locks.isLocked guard.mutex = true := by
    rw [LockTable.isLocked_iff]
    exact ⟨same, holder, hholder, by rw [← hmutex', ← hmutex, hsame], by simp [hholding]⟩
  rw [hfree] at hlocked
  cases hlocked

namespace Tidy

variable {excused : Key -> Prop}

theorem ofConfig {config : Config} {clock : Instant}
    (hsound : ∀ evictor, config.evictor = some evictor → evictor.ranking.Sound)
    (hexcused : ∀ evictor key, config.evictor = some evictor → key ∈ evictor.worst → excused key) :
    (Machine.ofConfig layout config clock).Tidy excused where
  ranked := hsound
  kept := by
    intro place frame hold hframe
    rw [frameAt_ofConfig] at hframe
    cases hframe
  free := by
    intro key _ _
    constructor
    · intro hcontains
      have habsent : (Store.empty : Store layout).get? key = none := Store.get?_empty key
      simp [Machine.ofConfig, Cache.ofConfig, Cache.contains, habsent] at hcontains
    · rintro ⟨evictor, hevictor, hmem⟩
      exact Or.inr (hexcused evictor key hevictor hmem)
  timely := by
    intro place frame now hframe
    rw [frameAt_ofConfig] at hframe
    cases hframe
  sheds := by
    intro place frame hframe
    rw [frameAt_ofConfig] at hframe
    cases hframe

theorem mono {after : Key -> Prop} (h : m.Tidy excused) (hle : ∀ key, excused key → after key) :
    m.Tidy after where
  ranked := h.ranked
  kept := by
    intro place frame hold hframe hhold
    exact (h.kept hframe hhold).stable (.refl _ _) (Nat.le_refl _) rfl (hle hold.key)
  free := by
    intro key hkey hsome
    exact (h.free hkey hsome).mono Iff.rfl Iff.rfl (hle key)
  timely := h.timely
  sheds := h.sheds

theorem aside (h : m.Tidy excused) (hframes : ∀ place, n.frameAt place = m.frameAt place)
    (halike : m.cache.Alike n.cache) : n.Tidy (excusedAfter excused none) where
  ranked := Cache.ranked_congr halike.evictor_eq h.ranked
  kept := by
    intro place frame hold hframe hhold
    rw [hframes] at hframe
    exact (h.kept hframe hhold).stable (halike.sameKey hold.key) halike.clock_le
      (by rw [halike.evictor_eq]) excusedAfter_none
  free := by
    intro key hkey hsome
    rw [halike.evictor_eq] at hsome
    have hsettled := h.free (fun place frame hframe => hkey place frame (by rwa [hframes])) hsome
    exact hsettled.stable (halike.sameKey key) excusedAfter_none
  timely := by
    intro place frame now hframe hbegan
    rw [hframes] at hframe
    exact Nat.le_trans (h.timely hframe hbegan) halike.clock_le
  sheds := by
    intro place frame hframe
    rw [hframes] at hframe
    exact h.sheds hframe

theorem update (h : m.Tidy excused) (howned : m.Owned) {place : Place} {cache : Cache layout}
    {holds after : List Hold} {note : Option Note} (hothers : m.SameBut n place)
    (hcareful : Careful m.cache holds excused note cache after) (halike : cache.Alike n.cache)
    (hwas : ∀ hold ∈ holds, ∃ frame, m.frameAt place = some frame ∧ hold ∈ frame.holds)
    (hheld : ∀ frame, m.frameAt place = some frame → frame.holds = holds)
    (hnow : ∀ frame, n.frameAt place = some frame → frame.holds = after)
    (hgone : n.frameAt place = none → after = [])
    (hbegan : ∀ frame now, n.frameAt place = some frame → frame.began? = some now →
      now.nanos ≤ n.cache.clock.nanos)
    (hsheds : ∀ frame, n.frameAt place = some frame → frame.Sheds) :
    n.Tidy (excusedAfter excused note) := by
  have hclock : m.cache.clock.nanos ≤ n.cache.clock.nanos := by
    have hle := halike.clock_le
    rw [hcareful.clock_eq] at hle
    exact hle
  have hevictor : n.cache.evictor.isSome = m.cache.evictor.isSome := by
    rw [halike.evictor_eq, hcareful.evictor_eq]
  -- a key that this operation does not hold stays as it is
  have hsame : ∀ key, (∀ frame, m.frameAt place = some frame → ¬frame.Keeps key) →
      m.cache.SameKey n.cache key ∧ (excused key → excusedAfter excused note key) := by
    intro key hkey
    have hfree : ∀ hold ∈ holds, hold.key ≠ key := by
      intro hold hhold heq
      obtain ⟨frame, hframe, hmem⟩ := hwas hold hhold
      exact hkey frame hframe (Frame.keeps_iff.mpr ⟨hold, hmem, heq⟩)
    refine ⟨(hcareful.same key hfree).trans (halike.sameKey key), ?_⟩
    refine fun hx => ⟨hx, fun told htold hstores => ?_⟩
    obtain ⟨hold, hhold, heq⟩ := hcareful.stores told key htold hstores
    exact hfree hold hhold heq
  constructor
  case ranked => exact Cache.ranked_congr halike.evictor_eq hcareful.ranked
  case kept =>
    intro other frame hold hframe hhold
    by_cases hother : other = place
    · subst hother
      rw [hnow frame hframe] at hhold
      exact (hcareful.kept hold hhold).stable (halike.sameKey hold.key) halike.clock_le
        (by rw [halike.evictor_eq]) id
    · rw [hothers other hother] at hframe
      have hkeeps : frame.Keeps hold.key := Frame.keeps_iff.mpr ⟨hold, hhold, rfl⟩
      obtain ⟨hkey, hexcused⟩ := hsame hold.key fun own hown hkeeps' =>
        hother (howned.keeper_unique hframe hown hkeeps hkeeps')
      exact (h.kept hframe hhold).stable hkey hclock hevictor hexcused
  case free =>
    intro key hkey hsome
    by_cases hmine : ∃ hold ∈ holds, hold.key = key
    · obtain ⟨hold, hhold, rfl⟩ := hmine
      have hleft : ∀ other ∈ after, other.key ≠ hold.key := by
        intro other hother heq
        cases hframe : n.frameAt place with
        | none => rw [hgone hframe] at hother; cases hother
        | some frame =>
          rw [← hnow frame hframe] at hother
          exact hkey place frame hframe (Frame.keeps_iff.mpr ⟨other, hother, heq⟩)
      rw [halike.evictor_eq] at hsome
      exact (hcareful.left hold hhold hleft hsome).stable (halike.sameKey hold.key) id
    · have hunkept : ∀ other frame, m.frameAt other = some frame → ¬frame.Keeps key := by
        intro other frame hframe hkeeps
        by_cases hother : other = place
        · subst hother
          rw [Frame.keeps_iff, hheld frame hframe] at hkeeps
          exact hmine hkeeps
        · exact hkey other frame (by rw [hothers other hother, hframe]) hkeeps
      obtain ⟨hkeySame, hexcused⟩ := hsame key fun frame hframe => hunkept place frame hframe
      rw [hevictor] at hsome
      exact (h.free hunkept hsome).stable hkeySame hexcused
  case timely =>
    intro other frame now hframe hnowBegan
    by_cases hother : other = place
    · subst hother
      exact hbegan frame now hframe hnowBegan
    · rw [hothers other hother] at hframe
      exact Nat.le_trans (h.timely hframe hnowBegan) hclock
  case sheds =>
    intro other frame hframe
    by_cases hother : other = place
    · subst hother
      exact hsheds frame hframe
    · rw [hothers other hother] at hframe
      exact h.sheds hframe

theorem careful_of_step (h : m.Tidy excused) (howned : m.Owned) {place : Place} {frame : Frame}
    {who : Worker} {cache : Cache layout} {progress : Progress Frame}
    (hframe : m.frameAt place = some frame)
    (hstep : frame.step who m.cache = some (cache, progress)) :
    Careful m.cache frame.holds excused (frame.note? m.cache) cache
      ((progress.point?.map Frame.holds).getD []) := by
  refine Frame.careful_step hstep h.ranked (fun hold => h.kept hframe) (howned.nodup_keys hframe)
    (fun now => h.timely hframe) ?_
  intro ticket key locks hwaiting hacquire
  refine ⟨by simp, by simp, by simp, h.free ?_⟩
  exact howned.unkept_of_acquire hframe hwaiting hacquire

theorem step (h : m.Tidy excused) (howned : m.Owned) (hstep : m.step event = some n) :
    n.Tidy (excusedAfter excused (m.note? event)) := by
  cases step_cases hstep with
  | aside frames alike acting =>
    rw [note?_of_aside acting]
    exact h.aside frames alike
  | opened place frame fresh free now others alike acting =>
    rw [note?_of_aside acting]
    have hholds : frame.holds = [] := by cases fresh <;> rfl
    have hcareful : Careful m.cache [] excused none m.cache [] :=
      .of_idle h.ranked rfl rfl rfl
    refine h.update howned others hcareful alike (List.forall_mem_nil _) ?_ ?_ (fun _ => rfl) ?_ ?_
    · intro other hframe
      rw [free] at hframe
      cases hframe
    · intro other hframe
      cases now.symm.trans hframe
      exact hholds
    · intro other began hframe hbegan
      cases now.symm.trans hframe
      rw [fresh.began?_eq] at hbegan
      cases hbegan
    · intro other hframe
      cases now.symm.trans hframe
      exact fresh.sheds
  | ended place access next outcome was after now others same acting event =>
    rw [note?_of_provide acting was event]
    obtain ⟨hidle, hnote⟩ := Access.idle_of_afterProvider after
    have hcareful : Careful m.cache access.holds excused (access.returned? outcome) m.cache
        next.holds :=
      .of_same h.ranked rfl rfl rfl (fun hold => h.kept was) hidle
        (Access.kept_afterProvider after fun hold => h.kept was) hnote
    have halike : m.cache.Alike n.cache := by
      rw [same]
      exact Cache.Alike.refl _
    refine h.update howned others hcareful halike (fun hold hhold => ⟨_, was, hhold⟩) ?_ ?_ ?_ ?_ ?_
    · intro frame hframe
      cases was.symm.trans hframe
      rfl
    · intro frame hframe
      cases now.symm.trans hframe
      rfl
    · intro hgone
      rw [now] at hgone
      cases hgone
    · intro frame began hframe hbegan
      cases now.symm.trans hframe
      cases hbegan
    · intro frame hframe
      cases now.symm.trans hframe
      trivial
  | stepped place frame cache progress was step now others alike acting event =>
    rw [note?_of_run acting was event]
    have hcareful := h.careful_of_step howned was step
    refine h.update howned others hcareful alike (fun hold hhold => ⟨_, was, hhold⟩) ?_ ?_ ?_ ?_ ?_
    · intro other hframe
      cases was.symm.trans hframe
      rfl
    · intro next hframe
      rw [now] at hframe
      rw [hframe]
      rfl
    · intro hgone
      rw [now] at hgone
      rw [hgone]
      rfl
    · intro next began hframe hbegan
      rw [now] at hframe
      have hle := alike.clock_le
      rw [hcareful.clock_eq] at hle
      rcases Frame.began?_step step hframe hbegan with hwas | heq
      · exact Nat.le_trans (h.timely was hwas) hle
      · rwa [heq]
    · intro next hframe
      rw [now] at hframe
      exact Frame.sheds_step step hframe (h.sheds was)

theorem evictor_step (h : m.Tidy excused) (howned : m.Owned) (hstep : m.step event = some n) :
    n.cache.evictor.isSome = m.cache.evictor.isSome := by
  cases step_cases hstep with
  | aside frames alike acting => rw [alike.evictor_eq]
  | opened place frame fresh free now others alike acting => rw [alike.evictor_eq]
  | ended place access next outcome was after now others same acting event => rw [same]
  | stepped place frame cache progress was step now others alike acting event =>
    rw [alike.evictor_eq, (h.careful_of_step howned was step).evictor_eq]

/-- An event changes a key only if it is a step of the operation that holds it. -/
theorem isolated (h : m.Tidy excused) (howned : m.Owned) (hstep : m.step event = some n) {key : Key}
    (hkey : ∀ place frame, m.acting event = some place → m.frameAt place = some frame →
      ¬frame.Keeps key) : m.cache.SameKey n.cache key := by
  cases step_cases hstep with
  | aside frames alike acting => exact alike.sameKey key
  | opened place frame fresh free now others alike acting => exact alike.sameKey key
  | ended place access next outcome was after now others same acting event =>
    rw [same]
    exact .refl _ key
  | stepped place frame cache progress was step now others alike acting event =>
    have hcareful := h.careful_of_step howned was step
    have hfirst := hcareful.same key fun hold hhold heq =>
      hkey place frame acting was (Frame.keeps_iff.mpr ⟨hold, hhold, heq⟩)
    exact hfirst.trans (alike.sameKey key)

end Tidy

/-! ## Runs -/

/-- Whether no entry of a key was stored according to a record. -/
def Unstored (log : List Line) (key : Key) : Prop := ∀ line ∈ log, ¬line.note.Stores key

theorem excusedAfter_unstored (excused : Key -> Prop) (log : List Line) :
    excusedAfter (fun key => excused key ∧ Unstored log key) (m.note? event) =
      fun key => excused key ∧ Unstored (log ++ m.lines event) key := by
  funext key
  have hlines : (∀ line ∈ m.lines event, ¬line.note.Stores key) ↔
      ∀ told, m.note? event = some told → ¬told.Stores key := by
    cases hnote : m.note? event with
    | none => simp [lines, hnote, Cache.write_none]
    | some told => simp [lines, hnote, Cache.write_some]
  rw [excusedAfter, ← hlines, and_assoc, Unstored, Unstored, List.forall_mem_append]

/-- In every run, all guards are true and all keys are as they are taken to be. -/
theorem owned_tidy_of_run {config : Config} {clock : Instant} {events : List Event}
    {excused : Key -> Prop} (hrun : (ofConfig layout config clock).runAll events = some m)
    (hsound : ∀ evictor, config.evictor = some evictor → evictor.ranking.Sound)
    (hexcused : ∀ evictor key, config.evictor = some evictor → key ∈ evictor.worst → excused key) :
    m.Owned ∧ m.cache.evictor.isSome = config.evictor.isSome ∧ m.Tidy fun key =>
      excused key ∧ Unstored ((ofConfig layout config clock).record events) key := by
  refine record_induction (P := fun log m => m.Owned ∧
    m.cache.evictor.isSome = config.evictor.isSome ∧
      m.Tidy fun key => excused key ∧ Unstored log key) ?_ ?_ hrun
  · rintro log m n event ⟨howned, hevictor, htidy⟩ hstep
    refine ⟨howned.step hstep, (htidy.evictor_step howned hstep).trans hevictor, ?_⟩
    rw [← excusedAfter_unstored]
    exact htidy.step howned hstep
  · refine ⟨owned_ofConfig config clock, rfl, .ofConfig hsound ?_⟩
    intro evictor key hevictor hmem
    exact ⟨hexcused evictor key hevictor hmem, List.forall_mem_nil _⟩

end Machine

end TtlCache
