import TtlCache.Proofs.Machine.Custody
import TtlCache.Proofs.Machine.Threads

/-!
# Visits of a pass

A pass lists every key once, since a key stands in one shard and once in it, and the candidates of
its second round are ranked once each and not marked.  So the keys that a pass has still to visit
and those that it holds are all different, and it never waits for itself.
-/

namespace TtlCache

variable {layout : Layout}

/-! ## What a step does to the store -/

/-- What an operation can do to the store in one step. -/
inductive Store.Touch (s : Store layout) : Store layout -> Prop where
  | same : Touch s s
  | erased (key : Key) : Touch s (s.erase key)
  | inserted (key : Key) (entry : Entry) : Touch s (s.insert key entry)

theorem Effect.touch_apply {effect : Effect} {c d : Cache layout} (h : effect.apply c = some d) :
    c.store.Touch d.store := by
  cases effect with
  | erase key => cases h; exact .erased key
  | put key value deadline => cases h; exact .inserted key _
  | wake =>
    obtain ⟨sweeper, -, rfl⟩ := Option.map_eq_some_iff.mp h
    exact .same
  | _ => cases h; exact .same

theorem Access.touch_look (a : Access) (c : Cache layout) (ticket : Nat) :
    c.store.Touch (a.look c ticket).1.store := by
  unfold look
  split
  · exact .same
  · next entry hget =>
    cases a.request with
    | get kind => exact .same
    | create kind ttl => exact .same
    | extend deadline => exact .inserted _ _
    | forget => exact .erased _

theorem Access.touch_step {a : Access} {c d : Cache layout} {progress : Progress Access}
    (h : a.step c = some (d, progress)) : c.store.Touch d.store := by
  cases stride_of_step h with
  | look => exact touch_look _ c _
  | effect applied => exact Effect.touch_apply applied
  | _ => exact .same

theorem Pass.touch_step {p : Pass} {who : Worker} {c d : Cache layout} {progress : Progress Pass}
    (h : p.step who c = some (d, progress)) : c.store.Touch d.store := by
  have givenUp : ∀ ticket key marks next,
      c.store.Touch (giveUp c ticket key marks next).1.store := by
    intro ticket key marks next
    rw [(giveUp_spec c ticket key marks next).1]
    exact .same
  cases stride_of_step h with
  | dismiss => exact givenUp _ _ _ _
  | effect applied => exact Effect.touch_apply applied
  | removed => exact givenUp _ _ _ _
  | unwind => exact givenUp _ _ _ _
  | _ => exact .same

theorem Frame.touch_step {frame : Frame} {who : Worker} {c d : Cache layout}
    {progress : Progress Frame} (h : frame.step who c = some (d, progress)) :
    c.store.Touch d.store := by
  cases stride_of_step h with
  | access step => exact Access.touch_step step
  | pass step => exact Pass.touch_step step
  | _ => exact .same

/-! ## Where keys stand -/

namespace Store

variable {s t : Store layout}

def Placed (s : Store layout) : Prop :=
  ∀ number rows key, s.shard? number = some rows → key ∈ rows.keys →
    (layout.place key).val = number

theorem shard?_setShardOf (s : Store layout) (key : Key) (shard : Table Key Entry)
    (number : Nat) :
    (s.setShardOf key shard).shard? number =
      if (layout.place key).val = number then some shard else s.shard? number := by
  simp only [shard?, setShardOf, Vector.getElem?_set]

theorem shard?_shardOf (s : Store layout) (key : Key) :
    s.shard? (layout.place key).val = some (s.shardOf key) := by
  simp [shard?, shardOf]

theorem placed_empty : (empty : Store layout).Placed := by
  intro number rows key hshard hkey
  simp only [empty, shard?, Vector.getElem?_replicate, Option.ite_none_right_eq_some,
    Option.some.injEq] at hshard
  rw [← hshard.2] at hkey
  cases hkey

namespace Placed

theorem set (h : s.Placed) {key : Key} {shard : Table Key Entry}
    (hshard : ∀ other ∈ shard.keys, other = key ∨ other ∈ (s.shardOf key).keys) :
    (s.setShardOf key shard).Placed := by
  intro number rows other hrows hother
  rw [shard?_setShardOf] at hrows
  split at hrows
  · next heq =>
    cases hrows
    rcases hshard other hother with rfl | hold
    · exact heq
    · exact (h _ _ _ (s.shard?_shardOf key) hold).trans heq
  · exact h _ _ _ hrows hother

theorem touch (h : s.Placed) (htouch : s.Touch t) : t.Placed := by
  cases htouch with
  | same => exact h
  | erased key => exact h.set fun other hother => Or.inr (Table.mem_keys_erase.mp hother).2
  | inserted key entry => exact h.set fun other hother => Table.mem_keys_insert.mp hother

theorem reorder (h : s.Placed) {number : Nat} {rows : Table Key Entry}
    (hreorder : s.reorder? number rows = some t) : t.Placed := by
  unfold reorder? at hreorder
  split at hreorder
  · next hnumber =>
    simp only [Option.ite_none_right_eq_some, Option.some.injEq] at hreorder
    obtain ⟨hperm, rfl⟩ := hreorder
    intro other listed key hlisted hkey
    simp only [shard?, Vector.getElem?_set] at hlisted
    split at hlisted
    · next heq =>
      cases hlisted
      have hsame : key ∈ s.shards[number].keys :=
        ((List.isPerm_iff.mp hperm).map Prod.fst).mem_iff.mp hkey
      subst heq
      exact h _ _ _ (by simp [shard?, hnumber]) hsame
    · exact h _ _ _ hlisted hkey
  · cases hreorder

end Placed

end Store

theorem Machine.placed_step {m n : Machine layout} {event : Event} (h : m.cache.store.Placed)
    (hstep : m.step event = some n) : n.cache.store.Placed := by
  cases turn_of_step hstep with
  | detached enough dropped passes clients =>
    rw [(Cache.drops_of_detach dropped).store_eq]
    exact h
  | reordered reordered cache passes =>
    rw [cache]
    exact h.reorder reordered
  | worked top step passes => exact h.touch (Frame.touch_step step)
  | passed stage was step passes => exact h.touch (Pass.touch_step step)
  | finished stage was step dropped ended cache_eq passes =>
    rw [cache_eq, (Cache.drops_of_detach dropped).store_eq]
    exact h.touch (Pass.touch_step step)
  | idle cache passes => rw [cache]; exact h
  | ticked clock cache passes => rw [cache]; exact h
  | attached handles cache passes => rw [cache]; exact h
  | trod stage step cache passes => rw [cache]; exact h
  | missed gone free ended cache passes => rw [cache]; exact h
  | entered stage free alive cache passes => rw [cache]; exact h

/-! ## The keys of a pass -/

namespace Pass

/-- The keys that a pass holds and those that it waits for or has still to visit. -/
def agenda : Pass -> List Key
  | .collect _ _ keys => keys
  | .visit _ keys survey => survey.marks.map Mark.key ++ keys
  | .acquire _ _ key keys survey | .judge _ _ key keys survey | .untrack _ key keys survey
  | .dismiss _ _ key keys survey | .release _ _ key keys survey =>
      survey.marks.map Mark.key ++ key :: keys
  | .weigh survey | .choose _ survey => survey.marks.map Mark.key
  | _ => []

/-- The shard up to which a pass has listed keys, as long as it does so. -/
def listed? : Pass -> Option Nat
  | .collect _ shard _ => some shard
  | _ => none

/-- The keys of a pass are all different, and those listed so far are of the shards listed. -/
structure Apart (layout : Layout) (p : Pass) : Prop where
  nodup : p.agenda.Nodup
  behind : ∀ shard, p.listed? = some shard → ∀ key ∈ p.agenda, (layout.place key).val < shard

variable {c d : Cache layout}

theorem apart_of_agenda {p : Pass} (hnodup : p.agenda.Nodup) (hlisted : p.listed? = none) :
    p.Apart layout :=
  ⟨hnodup, fun shard hshard => absurd (hlisted.symm.trans hshard) (by simp)⟩

theorem apart_clear (marks : List Mark) : (clear marks).Apart layout := by
  cases marks <;> exact apart_of_agenda List.nodup_nil rfl

theorem apart_endRound {survey : Survey} (h : (survey.marks.map Mark.key).Nodup) (round : Round) :
    (endRound c survey round).Apart layout := by
  cases round with
  | expiry =>
    simp only [endRound]
    split
    · exact apart_of_agenda h rfl
    · exact apart_clear _
  | eviction => exact apart_clear _

theorem apart_weighExcess {survey : Survey} (h : (survey.marks.map Mark.key).Nodup) :
    (weighExcess c survey).Apart layout := by
  unfold weighExcess
  split
  · exact apart_clear _
  · split
    · exact apart_of_agenda List.nodup_nil rfl
    · split
      · exact apart_clear _
      · exact apart_of_agenda h rfl

theorem agenda_mark (round : Round) (keys : List Key) (survey : Survey) (ticket : Nat) (key : Key)
    (removal : Removal) : (Pass.visit round keys (survey.mark ticket key removal)).agenda =
      survey.marks.map Mark.key ++ key :: keys := by
  simp [agenda, Survey.mark]

theorem agenda_judgeExpiry (ticket : Nat) (key : Key) (keys : List Key) (survey : Survey) :
    (judgeExpiry c ticket key keys survey).agenda = survey.marks.map Mark.key ++ key :: keys ∧
      (judgeExpiry c ticket key keys survey).listed? = none := by
  unfold judgeExpiry
  split
  · exact ⟨rfl, rfl⟩
  · split
    · exact ⟨agenda_mark _ _ _ _ _ _, rfl⟩
    · exact ⟨rfl, rfl⟩

theorem agenda_judgeEviction (ticket : Nat) (key : Key) (keys : List Key) (survey : Survey) :
    (judgeEviction c ticket key keys survey).agenda = survey.marks.map Mark.key ++ key :: keys ∧
      (judgeEviction c ticket key keys survey).listed? = none := by
  unfold judgeEviction
  split
  · exact ⟨agenda_mark _ _ _ _ _ _, rfl⟩
  · exact ⟨rfl, rfl⟩

theorem apart_giveUp {ticket : Nat} {key : Key} {marks : List Mark} {next : Pass}
    (h : next.Apart layout) : (giveUp c ticket key marks next).2.Apart layout := by
  rcases (giveUp_spec c ticket key marks next).2.2.2 with hsame | ⟨panic, hdrop⟩
  · rwa [hsame]
  · rw [hdrop]
    exact apart_of_agenda List.nodup_nil rfl

theorem nodup_candidates (hranked : c.Ranked) {count : Nat} {marks : List Mark}
    (h : (marks.map Mark.key).Nodup) :
    (marks.map Mark.key ++ candidates c count marks).Nodup := by
  unfold candidates
  split
  · rwa [List.append_nil]
  · next evictor hevictor =>
    have hworst : evictor.worst.Nodup := (hranked evictor hevictor).nodup_worst
    refine List.nodup_append.mpr ⟨h, ?_, ?_⟩
    · exact ((List.take_sublist _ _).trans List.filter_sublist).nodup hworst
    · intro first hfirst second hsecond heq
      have hfilter := (List.mem_filter.mp (List.mem_of_mem_take hsecond)).2
      rw [← heq] at hfilter
      simp only [Bool.not_eq_eq_eq_not, Bool.not_true, List.contains_eq_mem,
        decide_eq_false_iff_not] at hfilter
      exact hfilter hfirst

theorem apart_step {p next : Pass} {who : Worker} (h : p.step who c = some (d, .more next))
    (hapart : p.Apart layout) (hplaced : c.store.Placed) (hranked : c.Ranked) :
    next.Apart layout := by
  have hnodup := hapart.nodup
  cases stride_of_step h with
  | begin free =>
    refine ⟨List.nodup_nil, fun shard hshard key hkey => ?_⟩
    cases hkey
  | @list now shard keys rows listed =>
    have hbehind := hapart.behind shard rfl
    refine ⟨List.nodup_append.mpr ⟨hnodup, rows.nodup_keys, ?_⟩, ?_⟩
    · intro first hfirst second hsecond heq
      have hlt := hbehind first hfirst
      have hplace := hplaced _ _ _ listed hsecond
      rw [heq, hplace] at hlt
      exact Nat.lt_irrefl _ hlt
    · intro after hafter key hkey
      cases hafter
      rcases List.mem_append.mp hkey with hold | hnew
      · exact Nat.lt_succ_of_lt (hbehind key hold)
      · exact Nat.lt_succ_of_le (Nat.le_of_eq (hplaced _ _ _ listed hnew))
  | listed behind => exact apart_of_agenda hnodup rfl
  | register => exact apart_of_agenda hnodup rfl
  | visited =>
    refine apart_endRound ?_ _
    simpa [agenda] using hnodup
  | acquire acquired => exact apart_of_agenda hnodup rfl
  | @judgeExpiry ticket key keys survey =>
    obtain ⟨hsame, hlisted⟩ := agenda_judgeExpiry (c := c) ticket key keys survey
    exact apart_of_agenda (hsame ▸ hnodup) hlisted
  | @judgeEviction ticket key keys survey =>
    obtain ⟨hsame, hlisted⟩ := agenda_judgeEviction (c := c) ticket key keys survey
    exact apart_of_agenda (hsame ▸ hnodup) hlisted
  | untrack => exact apart_of_agenda hnodup rfl
  | dismiss => exact apart_giveUp (apart_of_agenda hnodup rfl)
  | release =>
    refine apart_of_agenda (List.Sublist.nodup ?_ hnodup) rfl
    exact List.Sublist.append_left (List.sublist_cons_self _ _) _
  | weigh => exact apart_weighExcess hnodup
  | choose => exact apart_of_agenda (nodup_candidates hranked hnodup) rfl
  | removed => exact apart_giveUp (apart_of_agenda List.nodup_nil rfl)
  | free => exact apart_clear _
  | unwind => exact apart_giveUp (apart_of_agenda List.nodup_nil rfl)
  | _ => exact apart_of_agenda List.nodup_nil rfl

theorem Apart.unkept {round : Round} {ticket : Nat} {key : Key} {keys : List Key} {survey : Survey}
    (h : (Pass.acquire round ticket key keys survey).Apart layout) :
    ¬(Frame.pass (.acquire round ticket key keys survey)).Keeps key := by
  rintro ⟨same, hclaim⟩
  rcases List.mem_cons.mp hclaim with hown | hmark
  · cases hown
  · obtain ⟨mark, hmem, heq⟩ := List.mem_map.mp hmark
    have hkey : mark.key = key := congrArg Claim.key heq
    have hdisjoint := (List.nodup_append.mp h.nodup).2.2
    exact hdisjoint mark.key (List.mem_map_of_mem hmem) key List.mem_cons_self hkey

end Pass

namespace Machine

variable {m n : Machine layout} {event : Event}

/-- Every pass is to visit keys that are all different. -/
def Orderly (m : Machine layout) : Prop :=
  ∀ place p, m.frameAt place = some (.pass p) → p.Apart layout

theorem Orderly.step (h : m.Orderly) (hplaced : m.cache.store.Placed) (hranked : m.cache.Ranked)
    (hstep : m.step event = some n) : n.Orderly := by
  intro place p hframe
  cases came_of_step hstep hframe with
  | stood was => exact h place p was
  | began fresh =>
    cases fresh
    exact Pass.apart_of_agenda List.nodup_nil rfl
  | stepped was step =>
    obtain ⟨before, rfl, taken⟩ := Frame.pass_of_step step
    exact Pass.apart_step taken (h place before was) hplaced hranked

end Machine

end TtlCache
