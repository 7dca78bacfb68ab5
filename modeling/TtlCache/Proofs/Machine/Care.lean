import TtlCache.Proofs.Machine.Holds

/-!
# Steps with care

Every step of an operation on a key and every step of a pass is careful: it changes no key but
those that it holds, and of these it keeps what `Hold.Kept` says.  A lookup decides what is to come
from what it saw; a pass marks a key as expired by the time at which it began.
-/

namespace TtlCache

variable {layout : Layout}

/-! ## Operations on a key -/

namespace Access

variable {a : Access} {c d : Cache layout} {excused : Key -> Prop}

section

variable {key : Key} {now : Instant} {request : Request} {seen : Option Entry} {todo : List Effect}

theorem Plan.own (h : Plan key now request seen todo) :
    (∀ effect ∈ todo, ∀ k, effect.key? = some k → key = k) ∧
      ∀ effect ∈ todo.tail, effect.overwrites = false := by
  cases h <;> simp [Access.hit, Access.expire, Effect.key?, Effect.overwrites]

theorem Plan.settles (h : Plan key now request seen todo) {tracked excused : Prop}
    (hagree : Settles [] (seen.isSome = true) tracked excused) :
    Settles todo ((seenAfter request seen).isSome = true) tracked excused := by
  cases h with
  | nothing present => rwa [present]
  | miss same => rwa [same]
  | hit same present =>
    rw [same]
    exact ⟨fun _ => trivial, fun _ => Or.inl present⟩
  | expire same dead => exact ⟨False.elim, False.elim⟩
  | untrack gone => exact ⟨by simp [gone], False.elim⟩

theorem Plan.doomed (h : Plan key now request seen todo) (hdoomed : overwritesFirst todo = true) :
    ∀ entry, seenAfter request seen = some entry → entry.isExpired now = true := by
  cases h with
  | expire same dead =>
    rw [same]
    exact liveAt_eq_none_iff.mp dead
  | nothing present => cases hdoomed
  | miss same => cases hdoomed
  | hit same present => cases hdoomed
  | untrack gone => cases hdoomed

end

theorem careful_look {ticket : Nat} (hranked : c.Ranked)
    (hkept : Hold.Kept ⟨ticket, a.key, [], false⟩ c excused) :
    Careful c [⟨ticket, a.key, [], false⟩] excused
      (some (.looked a.key ticket a.request (c.store.get? a.key))) (a.look c ticket).1
      ({ a with point := (a.look c ticket).2 } : Access).holds := by
  obtain ⟨-, hevictor, hclock⟩ := a.look_rest c ticket
  have hstores : ∀ told key,
      some (Note.looked a.key ticket a.request (c.store.get? a.key)) = some told →
        ¬told.Stores key := by
    rintro told key htold ⟨_, _, rfl⟩
    cases htold
  have hget : (a.look c ticket).1.store.get? a.key = seenAfter a.request (c.store.get? a.key) := by
    rw [a.get?_look, if_pos rfl]
  have hsettled : ∀ todo, (∀ {tracked excused : Prop},
      Settles [] ((c.store.get? a.key).isSome = true) tracked excused →
        Settles todo ((seenAfter a.request (c.store.get? a.key)).isSome = true) tracked excused) →
      (a.look c ticket).1.evictor.isSome = true →
        Settles todo ((a.look c ticket).1.contains a.key = true) ((a.look c ticket).1.Tracks a.key)
          (excusedAfter excused (some (.looked a.key ticket a.request (c.store.get? a.key)))
            a.key) := by
    intro todo hsettles hsome
    rw [Cache.contains, hget]
    rw [hevictor] at hsome
    refine (hsettles (hkept.settled hsome)).mono Iff.rfl (Cache.tracks_congr hevictor _).symm ?_
    exact fun hx => ⟨hx, fun told htold => hstores told a.key htold⟩
  refine ⟨Cache.ranked_congr hevictor hranked, hclock, by rw [hevictor], ?_,
    fun told key htold hkey => absurd hkey (hstores told key htold), ?_, ?_⟩
  · intro key hkey
    refine ⟨?_, Cache.tracks_congr hevictor key⟩
    rw [a.get?_look, if_neg fun heq => hkey _ List.mem_cons_self heq.symm]
  · have hsight := a.sight_look c ticket
    generalize (a.look c ticket).2 = point at hsight ⊢
    intro hold hhold
    cases hsight with
    | answered verdict plan =>
      rw [List.mem_singleton.mp hhold]
      refine ⟨plan.own.1, plan.own.2, ?_, hsettled _ plan.settles⟩
      intro hdoomed entry hentry
      rw [hclock]
      exact plan.doomed hdoomed entry (hget.symm.trans hentry)
    | missed verdict create dead =>
      obtain ⟨kind, ttl, hrequest⟩ := create
      have hsame : seenAfter a.request (c.store.get? a.key) = c.store.get? a.key := by
        rw [hrequest]
        rfl
      rw [List.mem_singleton.mp hhold]
      refine ⟨by simp, by simp, ?_, hsettled _ fun hagree => by rwa [hsame]⟩
      intro _ entry hentry
      rw [hget, hsame] at hentry
      rw [hclock]
      exact liveAt_eq_none_iff.mp dead entry hentry
  · have hsight := a.sight_look c ticket
    generalize (a.look c ticket).2 = point at hsight ⊢
    intro hold hhold hleft
    rw [List.mem_singleton.mp hhold] at hleft
    cases hsight with
    | answered verdict plan => exact (hleft _ List.mem_cons_self rfl).elim
    | missed verdict create dead => exact (hleft _ List.mem_cons_self rfl).elim

theorem careful_step {progress : Progress Access} (h : a.step c = some (d, progress))
    (hranked : c.Ranked) (hkept : ∀ hold ∈ a.holds, hold.Kept c excused)
    (hnew : ∀ ticket key locks, ⟨ticket, key, .waiting⟩ ∈ a.claims →
      c.locks.acquire? ticket = some locks → Hold.Kept ⟨ticket, key, [], false⟩ c excused) :
    Careful c a.holds excused (a.note? c) d ((progress.point?.map Access.holds).getD []) := by
  cases stride_of_step h with
  | register => exact .of_idle hranked rfl rfl rfl
  | @acquire key request ticket locks acquired =>
    refine .of_same hranked rfl rfl rfl hkept (List.forall_mem_nil _) ?_ ?_
    · intro hold hhold
      rw [List.mem_singleton.mp hhold]
      exact hnew ticket key locks List.mem_cons_self acquired
    · rintro told other htold ⟨_, _, rfl⟩
      cases htold
  | look => exact careful_look hranked (hkept _ List.mem_cons_self)
  | missed =>
    refine .of_same hranked rfl rfl rfl hkept ?_ hkept ?_
    · intro hold hhold
      rw [List.mem_singleton.mp hhold]
    · rintro told key htold ⟨_, _, rfl⟩
      cases htold
  | @effect key request ticket effect todo answer after applied =>
    have hmine : Hold.Kept ⟨ticket, key, effect :: todo, effect.overwrites⟩ c excused :=
      hkept _ List.mem_cons_self
    have hnow : holds ⟨key, request, .perform ticket todo answer⟩ =
        [⟨ticket, key, todo, false⟩] := by
      simp only [holds, hmine.later rfl]
    simp only [Progress.point?, Option.map_some, Option.getD_some, hnow]
    refine .of_effect hranked applied rfl hmine (List.forall_mem_nil _) (List.forall_mem_nil _) ?_
    rintro told other htold ⟨same, entry, rfl⟩
    cases effect with
    | put k value deadline =>
      cases htold
      exact ⟨value, deadline, rfl⟩
    | erase k => cases htold
    | use k => cases htold
    | untrack k => cases htold
    | count counter => cases htold
    | wake => cases htold
  | unregister =>
    exact .of_same hranked rfl rfl rfl hkept (by simp [holds]) (List.forall_mem_nil _)
      (by simp [note?])
  | panic =>
    exact .of_same hranked rfl rfl rfl hkept (by simp [holds]) (List.forall_mem_nil _)
      (by simp [note?])
  | release =>
    refine .of_same hranked rfl rfl rfl hkept (List.forall_mem_nil _) (List.forall_mem_nil _) ?_
    rintro told key htold ⟨_, _, rfl⟩
    cases htold

theorem kept_afterProvider {next : Access} {now : Instant} {outcome : Outcome}
    (h : a.afterProvider now outcome = some next)
    (hkept : ∀ hold ∈ a.holds, hold.Kept c excused) : ∀ hold ∈ next.holds, hold.Kept c excused := by
  unfold afterProvider at h
  split at h
  · next ticket stale kind ttl hpoint hrequest =>
    have hmine : Hold.Kept ⟨ticket, a.key, [], true⟩ c excused :=
      hkept _ (by rw [holds, hpoint]; exact List.mem_cons_self)
    have hnothing : Hold.Kept ⟨ticket, a.key, [], false⟩ c excused :=
      ⟨hmine.own, hmine.first, by simp, hmine.settled⟩
    split at h
    · split at h
      · cases h
        intro hold hhold
        rw [List.mem_singleton.mp hhold]
        refine ⟨by simp [Effect.key?], by simp [Effect.overwrites], fun _ => hmine.doomed rfl,
          fun _ => ?_⟩
        exact ⟨fun _ => trivial, fun _ => Or.inl trivial⟩
      · cases h
    · cases h
      intro hold hhold
      rw [List.mem_singleton.mp hhold]
      cases stale with
      | true =>
        refine ⟨by simp [Effect.key?], by simp [Effect.overwrites], fun _ => hmine.doomed rfl,
          fun _ => ?_⟩
        exact ⟨False.elim, False.elim⟩
      | false => exact hnothing
    · cases h
      intro hold hhold
      rw [List.mem_singleton.mp hhold]
      exact hnothing
  · cases h

/-- While a provider runs nothing is to come, and its end stores nothing yet. -/
theorem idle_of_afterProvider {next : Access} {now : Instant} {outcome : Outcome}
    (h : a.afterProvider now outcome = some next) :
    (∀ hold ∈ a.holds, hold.pending = []) ∧
      ∀ told key, a.returned? outcome = some told → ¬told.Stores key := by
  unfold afterProvider at h
  split at h
  · next ticket stale kind ttl hpoint hrequest =>
    refine ⟨by simp [holds, hpoint], ?_⟩
    rintro told key htold ⟨_, _, rfl⟩
    simp only [returned?, hpoint, hrequest] at htold
    split at htold
    · cases htold
    · cases htold
  · cases h

end Access

/-! ## Passes -/

namespace Pass

variable {c d : Cache layout} {excused : Key -> Prop}

theorem holds_clear (marks : List Mark) :
    ∀ hold ∈ (clear marks).holds, hold ∈ marks.map Mark.hold ∨
      ∃ mark ∈ marks, hold = ⟨mark.ticket, mark.key, mark.effects, mark.isExpired⟩ := by
  cases marks with
  | nil => exact List.forall_mem_nil _
  | cons mark marks =>
    intro hold hhold
    rcases List.mem_cons.mp hhold with rfl | hmem
    · refine Or.inr ⟨mark, List.mem_cons_self, ?_⟩
      simp [Mark.effects, overwritesFirst, Effect.overwrites]
    · exact Or.inl (List.mem_cons_of_mem _ hmem)

theorem kept_effects {mark : Mark} (h : mark.hold.Kept c excused) :
    Hold.Kept ⟨mark.ticket, mark.key, mark.effects, mark.isExpired⟩ c excused := by
  refine ⟨?_, ?_, h.doomed, fun _ => ⟨False.elim, False.elim⟩⟩
  · simp [Mark.effects, Effect.key?]
  · simp [Mark.effects, Effect.overwrites]

theorem kept_clear {marks : List Mark} (h : ∀ hold ∈ marks.map Mark.hold, hold.Kept c excused) :
    ∀ hold ∈ (clear marks).holds, hold.Kept c excused := by
  intro hold hhold
  rcases holds_clear marks hold hhold with hmem | ⟨mark, hmark, rfl⟩
  · exact h hold hmem
  · exact kept_effects (h _ (List.mem_map_of_mem hmark))

theorem kept_endRound {survey : Survey} (round : Round)
    (h : ∀ hold ∈ survey.marks.map Mark.hold, hold.Kept c excused) :
    ∀ hold ∈ (endRound c survey round).holds, hold.Kept c excused := by
  cases round with
  | expiry =>
    simp only [endRound]
    split
    · exact h
    · exact kept_clear h
  | eviction => exact kept_clear h

theorem kept_weighExcess {survey : Survey}
    (h : ∀ hold ∈ survey.marks.map Mark.hold, hold.Kept c excused) :
    ∀ hold ∈ (weighExcess c survey).holds, hold.Kept c excused := by
  unfold weighExcess
  split
  · exact kept_clear h
  · split
    · exact h
    · split
      · exact kept_clear h
      · exact h

def began? : Pass -> Option Instant
  | .collect now _ _ => some now
  | .visit _ _ survey | .acquire _ _ _ _ survey | .judge _ _ _ _ survey | .untrack _ _ _ survey
  | .dismiss _ _ _ _ survey | .release _ _ _ _ survey | .weigh survey | .choose _ survey =>
      some survey.now
  | _ => none

theorem mem_hold_mark {survey : Survey} {ticket : Nat} {key : Key} {removal : Removal}
    {hold : Hold} :
    hold ∈ (survey.mark ticket key removal).marks.map Mark.hold ↔
      hold = ⟨ticket, key, [], Decidable.decide (removal = .expired)⟩ ∨
        hold ∈ survey.marks.map Mark.hold := by
  simp [Survey.mark, Mark.hold, Mark.isExpired, or_comm]

theorem kept_judgeExpiry {ticket : Nat} {key : Key} {keys : List Key} {survey : Survey}
    (htime : survey.now.nanos ≤ c.clock.nanos)
    (hkept : ∀ hold ∈ (Pass.judge .expiry ticket key keys survey).holds, hold.Kept c excused) :
    ∀ hold ∈ (judgeExpiry c ticket key keys survey).holds, hold.Kept c excused := by
  unfold judgeExpiry
  split
  · exact hkept
  · next entry hget =>
    split
    · next hexpired =>
      intro hold hhold
      rcases mem_hold_mark.mp hhold with rfl | hmem
      · have hmine := hkept _ List.mem_cons_self
        refine ⟨hmine.own, hmine.first, fun _ other hother => ?_, hmine.settled⟩
        cases hget.symm.trans hother
        exact Entry.isExpired_mono hexpired htime
      · exact hkept hold (List.mem_cons_of_mem _ hmem)
    · exact hkept

theorem kept_judgeEviction {ticket : Nat} {key : Key} {keys : List Key} {survey : Survey}
    (hkept : ∀ hold ∈ (Pass.judge .eviction ticket key keys survey).holds, hold.Kept c excused) :
    ∀ hold ∈ (judgeEviction c ticket key keys survey).holds, hold.Kept c excused := by
  have hmine := hkept _ List.mem_cons_self
  unfold judgeEviction
  split
  · intro hold hhold
    rcases mem_hold_mark.mp hhold with rfl | hmem
    · exact hmine
    · exact hkept hold (List.mem_cons_of_mem _ hmem)
  · next habsent =>
    intro hold hhold
    rcases List.mem_cons.mp hhold with rfl | hmem
    · refine ⟨by simp [Effect.key?], by simp, by simp, fun _ => ⟨?_, False.elim⟩⟩
      exact fun hcontains => absurd hcontains habsent
    · exact hkept hold (List.mem_cons_of_mem _ hmem)

theorem giveUp_spec (c : Cache layout) (ticket : Nat) (key : Key) (marks : List Mark)
    (next : Pass) :
    (giveUp c ticket key marks next).1.store = c.store ∧
      (giveUp c ticket key marks next).1.evictor = c.evictor ∧
      (giveUp c ticket key marks next).1.clock = c.clock ∧
      ((giveUp c ticket key marks next).2 = next ∨
        ∃ panic, (giveUp c ticket key marks next).2 = .drop ticket key marks panic) := by
  unfold giveUp
  split
  · exact ⟨rfl, rfl, rfl, Or.inl rfl⟩
  · exact ⟨rfl, rfl, rfl, Or.inr ⟨_, rfl⟩⟩

theorem careful_giveUp {p next : Pass} {ticket : Nat} {key : Key} {marks : List Mark}
    {note : Option Note} (hranked : c.Ranked) (hwas : ∀ hold ∈ p.holds, hold.Kept c excused)
    (hidle : ∀ hold ∈ p.holds, hold.pending = [])
    (hkept : ∀ hold ∈ marks.map Mark.hold, hold.Kept c excused)
    (hnext : next.holds = marks.map Mark.hold)
    (hnote : ∀ told key, note = some told → ¬told.Stores key) :
    Careful c p.holds excused note (giveUp c ticket key marks next).1
      (giveUp c ticket key marks next).2.holds := by
  obtain ⟨hstore, hevictor, hclock, hpass⟩ := giveUp_spec c ticket key marks next
  refine .of_same hranked hstore hevictor hclock hwas hidle ?_ hnote
  rcases hpass with hsame | ⟨panic, hdrop⟩
  · rwa [hsame, hnext]
  · rwa [hdrop]

theorem careful_step {p : Pass} {who : Worker} {progress : Progress Pass}
    (h : p.step who c = some (d, progress)) (hranked : c.Ranked)
    (hkept : ∀ hold ∈ p.holds, hold.Kept c excused) (hapart : (p.holds.map Hold.key).Nodup)
    (htime : ∀ now, p.began? = some now → now.nanos ≤ c.clock.nanos)
    (hnew : ∀ ticket key locks, ⟨ticket, key, .waiting⟩ ∈ p.claims →
      c.locks.acquire? ticket = some locks → Hold.Kept ⟨ticket, key, [], false⟩ c excused) :
    Careful c p.holds excused p.note? d ((progress.point?.map Pass.holds).getD []) := by
  have hnote : ∀ told key, p.note? = some told → ¬told.Stores key := by
    rintro told key htold ⟨_, _, rfl⟩
    unfold note? at htold
    split at htold
    · cases htold
    · split at htold <;> cases htold
    · cases htold
  have hmarks : ∀ {marks : List Mark}, ∀ hold ∈ marks.map Mark.hold, hold.pending = [] := by
    intro marks hold hhold
    obtain ⟨mark, -, rfl⟩ := List.mem_map.mp hhold
    rfl
  have hidle : ∀ {ticket key marks doomed},
      ∀ hold ∈ (⟨ticket, key, [], doomed⟩ :: List.map Mark.hold marks : List Hold),
        hold.pending = [] := by
    intro ticket key marks doomed hold hhold
    rcases List.mem_cons.mp hhold with rfl | hmem
    · rfl
    · exact hmarks hold hmem
  have hrest : ∀ {first rest}, p.holds = first :: rest → ∀ hold ∈ rest, hold.Kept c excused := by
    intro first rest hholds hold hhold
    exact hkept hold (hholds ▸ List.mem_cons_of_mem _ hhold)
  -- the first key that is held is not held again
  have hothers : ∀ {first rest}, p.holds = first :: rest →
      ∀ other ∈ rest, other.key ≠ first.key := by
    intro first rest hholds other hother heq
    rw [hholds, List.map_cons, List.nodup_cons] at hapart
    exact hapart.1 (heq ▸ List.mem_map_of_mem hother)
  cases stride_of_step h with
  | enter => exact .of_idle hranked rfl rfl rfl
  | begin free => exact .of_idle hranked rfl rfl rfl
  | list listed => exact .of_idle hranked rfl rfl rfl
  | listed behind => exact .of_idle hranked rfl rfl rfl
  | register => exact .of_same hranked rfl rfl rfl hkept hmarks hkept hnote
  | @visited round survey =>
    exact .of_same hranked rfl rfl rfl hkept hmarks (kept_endRound round hkept) hnote
  | @acquire round ticket key keys survey locks acquired =>
    refine .of_same hranked rfl rfl rfl hkept hmarks ?_ hnote
    intro hold hhold
    rcases List.mem_cons.mp hhold with rfl | hmem
    · exact hnew ticket key locks List.mem_cons_self acquired
    · exact hkept hold hmem
  | judgeExpiry =>
    exact .of_same hranked rfl rfl rfl hkept hidle (kept_judgeExpiry (htime _ rfl) hkept) hnote
  | judgeEviction =>
    exact .of_same hranked rfl rfl rfl hkept hidle (kept_judgeEviction hkept) hnote
  | @untrack ticket key keys survey =>
    have happly : (Effect.untrack key).apply c = some (c.notifyRemoved key) := rfl
    exact .of_effect hranked happly rfl (hkept _ List.mem_cons_self) (hrest rfl) (hothers rfl)
      (fun told k htold hstores => absurd hstores (hnote told k htold))
  | dismiss => exact careful_giveUp hranked hkept hidle (hrest rfl) rfl hnote
  | release => exact .of_same hranked rfl rfl rfl hkept hmarks hkept hnote
  | weigh => exact .of_same hranked rfl rfl rfl hkept hmarks (kept_weighExcess hkept) hnote
  | choose => exact .of_same hranked rfl rfl rfl hkept hmarks hkept hnote
  | @effect effect todo mark marks after applied =>
    have hmine := hkept _ List.mem_cons_self
    have hnow : (Pass.remove todo mark marks).holds =
        ⟨mark.ticket, mark.key, todo, false⟩ :: marks.map Mark.hold := by
      rw [holds, hmine.later rfl, Bool.and_false]
    simp only [Progress.point?, Option.map_some, Option.getD_some, hnow]
    exact .of_effect hranked applied rfl hmine (hrest rfl) (hothers rfl)
      (fun told k htold hstores => absurd hstores (hnote told k htold))
  | removed => exact careful_giveUp hranked hkept hidle (hrest rfl) rfl hnote
  | free => exact .of_same hranked rfl rfl rfl hkept hmarks (kept_clear hkept) hnote
  | decide begun => exact .of_idle hranked rfl rfl rfl
  | sum listed => exact .of_idle hranked rfl rfl rfl
  | summed behind => exact .of_idle hranked rfl rfl rfl
  | unwind => exact careful_giveUp hranked hkept hidle (hrest rfl) rfl hnote
  | unwound => exact .of_idle hranked rfl rfl rfl
  | drop => exact .of_same hranked rfl rfl rfl hkept hmarks hkept hnote
  | leave => exact .of_idle hranked rfl rfl rfl

end Pass

end TtlCache
