import TtlCache.Proofs.Machine.Alone
import TtlCache.Proofs.Machine.Findings

/-!
# What a pass alone does

A pass alone lists all keys, holds the expired ones, asks the evictor for its excess, holds or
untracks as many candidates as that calls for, and removes what it holds.  So it comes to what
`Cache.passResult` says of the cache as it was when the pass began.
-/

namespace TtlCache

variable {layout : Layout}

def Mark.target (mark : Mark) : Removal × Key := (mark.removal, mark.key)

theorem Mark.map_target_snd (marks : List Mark) :
    (marks.map Mark.target).map Prod.snd = marks.map Mark.key := by
  rw [List.map_map]
  rfl

theorem Pass.giveUp_of_calm {c : Cache layout} {ticket : Nat} {key : Key} {marks : List Mark}
    {next : Pass} (h : (c.locks.unregister ticket).1 = none) :
    giveUp c ticket key marks next = (c.relock (c.locks.unregister ticket).2, next) := by
  cases hunregister : c.locks.unregister ticket with
  | mk panic locks =>
    rw [hunregister] at h
    subst h
    simp only [giveUp, hunregister]
    rfl

theorem Cache.keys_subset_itinerary (c : Cache layout) : c.store.keys ⊆ c.itinerary := by
  unfold itinerary
  split
  · exact List.Subset.refl _
  · exact List.subset_append_left _ _

theorem Cache.tracks_of_surplus {c : Cache layout} {surplus : List Key}
    (h : c.surplus = .ok surplus) {key : Key} (hkey : key ∈ surplus) : c.Tracks key := by
  obtain rfl | ⟨evictor, count, hevictor, -, -, rfl⟩ := Cache.surplus_cases h
  · cases hkey
  · exact ⟨evictor, hevictor, List.mem_of_mem_filter (List.mem_of_mem_take hkey)⟩

namespace Machine

variable {m n : Machine layout} {place : Place}

theorem Coherent.mem_itinerary (h : m.Coherent) (key : Key) (hkey : key ∈ m.cache.itinerary) :
    m.cache.contains key = true ∨ m.cache.Tracks key := by
  unfold Cache.itinerary at hkey
  split at hkey
  · exact .inl (h.placed.mem_keys.mp hkey)
  · next hsurplus =>
    rcases List.mem_append.mp hkey with hstored | hranked
    · exact .inl (h.placed.mem_keys.mp hstored)
    · exact .inr (Cache.tracks_of_surplus hsurplus hranked)

namespace Alone

variable {round : Round} {ticket : Nat} {key : Key} {keys visits rest : List Key}
  {survey : Survey} {marks : List Mark}

theorem begins (h : m.Alone place n .enter) (hcalm : m.Unhindered place visits) :
    m.Arrives place n (.collect n.cache.clock 0 []) (n.cache.engage place.worker) 0 := by
  refine .cons h rfl rfl fun next halone hcache => ?_
  have hfree : next.cache.passLock = none := by
    cases hlock : next.cache.passLock with
    | none => rfl
    | some holder =>
      obtain ⟨other, hother⟩ := (halone.coherent.sole .turn).had (by simp [Cache.isTaken, hlock])
      obtain ⟨p, hp, hturn⟩ := has_iff.mp hother
      by_cases hplace : other = place
      · subst hplace
        cases halone.frame.symm.trans hp
        cases hturn
      · rw [halone.others other hplace] at hp
        have hnone := hcalm.turn hplace hp
        rw [show (Frame.pass p).has .turn = true from hturn] at hnone
        cases hnone
  have hstep : Pass.queue.step place.worker next.cache =
      some (n.cache.engage place.worker, .more (.collect n.cache.clock 0 [])) := by
    simp only [Pass.step, hfree]
    rw [hcache]
    rfl
  refine .of_step halone hstep ?_
  rw [hcache]
  exact .refl _ _

theorem lists {now : Instant} {shard : Nat} (h : m.Alone place n (.collect now shard keys)) :
    m.Arrives place n
      (.visit .expiry (keys ++ (n.cache.store.shards.toList.drop shard).flatMap Table.keys)
        ⟨now, [], false⟩) n.cache 0 := by
  generalize hrest : n.cache.store.shards.toList.drop shard = rest
  induction rest generalizing n shard keys with
  | nil =>
    have hbehind : n.cache.store.shard? shard = none := by
      rw [Store.shard?, ← Vector.getElem?_toList, ← List.head?_drop, hrest]
      rfl
    rw [List.flatMap_nil, List.append_nil]
    refine .of_step h ?_ (.refl _ _)
    simp only [Pass.step, hbehind]
  | cons rows rest ih =>
    have hlisted : n.cache.store.shard? shard = some rows := by
      rw [Store.shard?, ← Vector.getElem?_toList, ← List.head?_drop, hrest]
      rfl
    have hstep : (Pass.collect now shard keys).step place.worker n.cache =
        some (n.cache, .more (.collect now (shard + 1) (keys ++ rows.keys))) := by
      simp only [Pass.step, hlisted]
    refine .cons h hstep rfl fun next halone hcache => ?_
    have hmore : next.cache.store.shards.toList.drop (shard + 1) = rest := by
      rw [hcache, ← List.tail_drop, hrest]
      rfl
    rw [List.flatMap_cons, ← List.append_assoc, ← hcache]
    exact ih halone hmore

theorem takes (h : m.Alone place n (.visit round (key :: keys) survey))
    (hcalm : m.Unhindered place visits) (hkey : key ∈ visits) :
    ∃ ticket, m.Arrives place n (.judge round ticket key keys survey) n.cache 1 := by
  have hapart := (h.coherent.orderly _ _ h.frame).nodup
  have hfresh : m.Lonely place → n.cache.locks.records.get? key = none := by
    intro hlonely
    refine h.records_eq_none hlonely fun claim hclaim hsame => ?_
    obtain ⟨mark, hmark, rfl⟩ := List.mem_map.mp hclaim
    have hdisjoint := (List.nodup_append.mp hapart).2.2
    exact absurd hsame (hdisjoint mark.key (List.mem_map_of_mem hmark) key List.mem_cons_self)
  have hregister : (Pass.visit round (key :: keys) survey).step place.worker n.cache =
      some (n.cache.relock (n.cache.locks.join key .waiting),
        .more (.acquire round n.cache.locks.nextTicket key keys survey)) := by
    simp only [Pass.step, LockTable.register_eq]
    rfl
  refine ⟨n.cache.locks.nextTicket, ?_⟩
  refine (Arrives.of_step h hregister (LockTable.visited_join hfresh)).bind (j := 0) ?_
  intro next halone hcache
  obtain ⟨locks, hlocks⟩ := halone.acquires hcalm hkey
  have hacquire : (Pass.acquire round n.cache.locks.nextTicket key keys survey).step place.worker
      next.cache = some (next.cache.relock locks,
        .more (.judge round n.cache.locks.nextTicket key keys survey)) := by
    simp only [Pass.step, hlocks, Option.map_some]
    rfl
  have harrives := Arrives.of_step halone hacquire (LockTable.visited_acquire hlocks)
  rw [hcache] at harrives
  exact harrives.of_relock

theorem dismisses (h : m.Alone place n (.dismiss round ticket key keys survey)) :
    m.Arrives place n (.visit round keys survey) n.cache 0 := by
  have hcalm : (n.cache.locks.unregister ticket).1 = none :=
    h.coherent.owned.unregister_eq_none h.frame List.mem_cons_self
  have hgiven : (Pass.dismiss round ticket key keys survey).step place.worker n.cache =
      some (n.cache.relock (n.cache.locks.unregister ticket).2,
        .more (.release round ticket key keys survey)) := by
    simp only [Pass.step, Pass.giveUp_of_calm hcalm]
  refine (Arrives.of_step h hgiven (LockTable.visited_unregister _ _)).bind (j := 0) ?_
  intro next halone hcache
  have harrives := Arrives.of_step halone rfl (LockTable.visited_release next.cache.locks ticket)
  rw [hcache] at harrives
  exact harrives.of_relock

theorem reviews_key (h : m.Alone place n (.visit .expiry (key :: keys) survey))
    (hcalm : m.Unhindered place visits) (hkey : key ∈ visits) :
    ∃ own : List Mark, own.map Mark.target =
        ([key].filter (n.cache.isExpiredAt survey.now)).map (Prod.mk .expired) ∧
      m.Arrives place n
        (.visit .expiry keys ⟨survey.now, survey.marks ++ own,
          survey.live || n.cache.isLiveAt survey.now key⟩) n.cache 1 := by
  obtain ⟨ticket, middle, hmiddle, halone, hcache, hvisited⟩ := h.takes hcalm hkey
  have hget : middle.cache.store.get? key = n.cache.store.get? key := by
    rw [hcache]
    rfl
  have judged : ∀ {next : Pass},
      Pass.judgeExpiry middle.cache ticket key keys survey = next →
        (Pass.judge .expiry ticket key keys survey).step place.worker middle.cache =
          some (middle.cache, .more next) := by
    rintro next rfl
    rfl
  -- an unmarked key is given back
  have dismissed : ∀ {after : Survey},
      Pass.judgeExpiry middle.cache ticket key keys survey =
        .dismiss .expiry ticket key keys after →
      m.Arrives place n (.visit .expiry keys after) n.cache 1 := by
    intro after hnext
    refine .after (j := 0) hmiddle hvisited ?_
    refine .cons halone (judged hnext) rfl fun next hthere hsame => ?_
    have harrives := hthere.dismisses
    rw [hsame, hcache] at harrives
    exact harrives.of_relock
  cases hentry : n.cache.store.get? key with
  | none =>
    refine ⟨[], by simp [Cache.isExpiredAt, hentry], ?_⟩
    rw [List.append_nil, Cache.isLiveAt, hentry, Option.any_none, Bool.or_false]
    exact dismissed (by simp only [Pass.judgeExpiry, hget, hentry])
  | some entry =>
    cases hexpired : entry.isExpired survey.now with
    | true =>
      refine ⟨[⟨ticket, key, .expired⟩], by simp [Cache.isExpiredAt, hentry, hexpired, Mark.target],
        ?_⟩
      have hdead : n.cache.isLiveAt survey.now key = false := by
        simp [Cache.isLiveAt, hentry, hexpired]
      rw [hdead, Bool.or_false]
      have hnext : Pass.judgeExpiry middle.cache ticket key keys survey =
          .visit .expiry keys (survey.mark ticket key .expired) := by
        simp only [Pass.judgeExpiry, hget, hentry, hexpired, if_true]
      have harrives := Arrives.of_step halone (judged hnext) (.refl _ _)
      rw [hcache] at harrives
      exact .after hmiddle hvisited harrives.of_relock
    | false =>
      refine ⟨[], by simp [Cache.isExpiredAt, hentry, hexpired], ?_⟩
      have hlive : n.cache.isLiveAt survey.now key = true := by
        simp [Cache.isLiveAt, hentry, hexpired]
      rw [hlive, Bool.or_true, List.append_nil]
      exact dismissed (by
        simp only [Pass.judgeExpiry, hget, hentry, hexpired, Bool.false_eq_true, if_false])

theorem reviews (h : m.Alone place n (.visit .expiry (keys ++ rest) survey))
    (hcalm : m.Unhindered place visits) (hkeys : keys ⊆ visits) :
    ∃ marks : List Mark, marks.map Mark.target =
        (keys.filter (n.cache.isExpiredAt survey.now)).map (Prod.mk .expired) ∧
      m.Arrives place n
        (.visit .expiry rest ⟨survey.now, survey.marks ++ marks,
          survey.live || keys.any (n.cache.isLiveAt survey.now)⟩) n.cache keys.length := by
  induction keys generalizing n survey with
  | nil =>
    refine ⟨[], rfl, ?_⟩
    rw [List.append_nil, List.any_nil, Bool.or_false]
    exact .refl h
  | cons key keys ih =>
    obtain ⟨hkey, hrest⟩ := List.cons_subset.mp hkeys
    obtain ⟨own, hown, middle, hmiddle, halone, hcache, hvisited⟩ := h.reviews_key hcalm hkey
    obtain ⟨marks, hmarks, harrives⟩ := ih halone hrest
    rw [hcache] at hmarks harrives
    refine ⟨own ++ marks, ?_, ?_⟩
    · rw [List.map_append, hown, hmarks, ← List.map_append]
      exact congrArg _ (List.filter_append [key] keys).symm
    · rw [← List.append_assoc, List.any_cons, ← Bool.or_assoc, List.length_cons, Nat.add_comm]
      exact .after hmiddle hvisited harrives.of_relock

theorem selects_key (h : m.Alone place n (.visit .eviction (key :: keys) survey))
    (hcalm : m.Unhindered place visits) (hkey : key ∈ visits) :
    ∃ own : List Mark, own.map Mark.target =
        ([key].filter n.cache.contains).map (Prod.mk .evicted) ∧
      m.Arrives place n (.visit .eviction keys ⟨survey.now, survey.marks ++ own, survey.live⟩)
        (([key].filter fun key => !n.cache.contains key).foldl Cache.notifyRemoved n.cache) 1 := by
  obtain ⟨ticket, middle, hmiddle, halone, hcache, hvisited⟩ := h.takes hcalm hkey
  have hsame : middle.cache.contains key = n.cache.contains key := by
    rw [hcache]
    rfl
  cases hcontains : n.cache.contains key with
  | true =>
    refine ⟨[⟨ticket, key, .evicted⟩], by simp [hcontains, Mark.target], ?_⟩
    have hstep : (Pass.judge .eviction ticket key keys survey).step place.worker middle.cache =
        some (middle.cache, .more (.visit .eviction keys (survey.mark ticket key .evicted))) := by
      simp only [Pass.step, Pass.judgeEviction, hsame, hcontains, if_true]
    have harrives := Arrives.of_step halone hstep (.refl _ _)
    rw [hcache] at harrives
    simp only [List.filter_singleton, hcontains, Bool.not_true, cond_false, List.foldl_nil]
    exact .after hmiddle hvisited harrives.of_relock
  | false =>
    refine ⟨[], by simp [hcontains], ?_⟩
    have hstep : (Pass.judge .eviction ticket key keys survey).step place.worker middle.cache =
        some (middle.cache, .more (.untrack ticket key keys survey)) := by
      simp only [Pass.step, Pass.judgeEviction, hsame, hcontains, Bool.false_eq_true, if_false]
    simp only [List.filter_singleton, hcontains, Bool.not_false, cond_true, List.foldl_cons,
      List.foldl_nil, List.append_nil]
    refine .after (j := 0) hmiddle hvisited (.cons halone hstep rfl fun next hthere heq => ?_)
    refine .cons hthere rfl rfl fun last hlast hremoved => ?_
    have harrives := hlast.dismisses
    rw [hremoved, heq, hcache] at harrives
    exact harrives.of_relock

theorem selects (h : m.Alone place n (.visit .eviction (keys ++ rest) survey))
    (hcalm : m.Unhindered place visits) (hkeys : keys ⊆ visits) :
    ∃ marks : List Mark,
      marks.map Mark.target = (keys.filter n.cache.contains).map (Prod.mk .evicted) ∧
        m.Arrives place n (.visit .eviction rest ⟨survey.now, survey.marks ++ marks, survey.live⟩)
          ((keys.filter fun key => !n.cache.contains key).foldl Cache.notifyRemoved n.cache)
          keys.length := by
  induction keys generalizing n survey with
  | nil =>
    refine ⟨[], rfl, ?_⟩
    rw [List.append_nil]
    exact .refl h
  | cons key keys ih =>
    obtain ⟨hkey, hrest⟩ := List.cons_subset.mp hkeys
    obtain ⟨own, hown, middle, hmiddle, halone, hcache, hvisited⟩ := h.selects_key hcalm hkey
    obtain ⟨marks, hmarks, harrives⟩ := ih halone hrest
    -- untracking keys does not matter to the store
    have hcontains : middle.cache.contains = n.cache.contains := by
      rw [hcache]
      generalize [key].filter (fun key => !n.cache.contains key) = strays
      rw [Cache.foldl_notifyRemoved]
      rfl
    rw [hcontains] at hmarks harrives
    rw [hcache, Cache.foldl_notifyRemoved_relock, ← List.foldl_append, ← List.filter_append]
      at harrives
    refine ⟨own ++ marks, ?_, ?_⟩
    · rw [List.map_append, hown, hmarks, ← List.map_append]
      exact congrArg _ (List.filter_append [key] keys).symm
    · rw [← List.append_assoc, List.length_cons, Nat.add_comm]
      exact .after hmiddle hvisited harrives.of_relock

theorem clears (h : m.Alone place n (Pass.clear marks)) :
    m.Arrives place n .decide ((marks.map Mark.target).foldl Cache.drop n.cache) 0 := by
  induction marks generalizing n with
  | nil => exact .refl h
  | cons mark marks ih =>
    refine .cons h rfl rfl fun erased herased hfirst => ?_
    refine .cons herased rfl rfl fun untracked huntracked hsecond => ?_
    refine .cons huntracked rfl rfl fun counted hcounted hthird => ?_
    have hdropped : counted.cache = n.cache.drop mark.target := by
      rw [hthird, hsecond, hfirst]
      rfl
    have hcalm : (counted.cache.locks.unregister mark.ticket).1 = none :=
      hcounted.coherent.owned.unregister_eq_none hcounted.frame List.mem_cons_self
    have hgiven : (Pass.remove [] mark marks).step place.worker counted.cache =
        some (counted.cache.relock (counted.cache.locks.unregister mark.ticket).2,
          .more (.free mark.ticket mark.key marks)) := by
      simp only [Pass.step, Pass.giveUp_of_calm hcalm]
    refine (Arrives.of_step hcounted hgiven (LockTable.visited_unregister _ _)).bind (j := 0) ?_
    intro freed hfreed hfourth
    refine (Arrives.of_step hfreed rfl (LockTable.visited_release _ _)).bind (j := 0) ?_
    intro next halone hlast
    have hsame : next.cache = (n.cache.drop mark.target).relock next.cache.locks := by
      refine hlast.trans ?_
      rw [hfourth, hdropped]
      rfl
    have harrives := ih halone
    rw [hsame, Cache.foldl_drop_relock] at harrives
    exact harrives.of_relock

theorem decides (h : m.Alone place n .decide) :
    m.Arrives place n (.leave (.flag (n.cache.store.size == 0))) n.cache.decided 0 := by
  have hfree : n.cache.sweeper.deciding = false := by
    refine Bool.eq_false_iff.mpr fun hdeciding => ?_
    obtain ⟨other, hother⟩ := (h.coherent.sole .verdict).had hdeciding
    obtain ⟨p, hp, hverdict⟩ := has_iff.mp hother
    obtain ⟨shard, total, rfl⟩ := eq_sum_of_has hverdict
    have hplace := (h.coherent.sole .turn).unique (has_iff.mpr ⟨_, hp, rfl⟩)
      (has_iff.mpr ⟨_, h.frame, rfl⟩)
    rw [hplace, h.frame] at hp
    cases hp
  have hbegin : Pass.decide.step place.worker n.cache =
      some ({ n.cache with sweeper := { n.cache.sweeper with deciding := true } },
        .more (.sum 0 0)) := by
    simp [Pass.step, Sweeper.beginStop, hfree]
  refine .cons h hbegin rfl fun begun hbegun hcache => ?_
  -- the shards are counted one after another
  have sums : ∀ (rest : List (Table Key Entry)) (shard total : Nat) (next : Machine layout),
      m.Alone place next (.sum shard total) → next.cache = begun.cache →
      next.cache.store.shards.toList.drop shard = rest →
      rest.foldl (fun total rows => total + rows.size) total = n.cache.store.size →
        m.Arrives place next (.leave (.flag (n.cache.store.size == 0))) n.cache.decided 0 := by
    intro rest
    induction rest with
    | nil =>
      intro shard total next halone hsame hrest htotal
      rw [List.foldl_nil] at htotal
      have hbehind : next.cache.store.shard? shard = none := by
        rw [Store.shard?, ← Vector.getElem?_toList, ← List.head?_drop, hrest]
        rfl
      refine .of_step halone ?_ (.of_eq ?_)
      · simp only [Pass.step, hbehind, htotal]
        rw [hsame, hcache]
        rfl
      · rw [hsame, hcache]
        rfl
    | cons rows rest ih =>
      intro shard total next halone hsame hrest htotal
      have hlisted : next.cache.store.shard? shard = some rows := by
        rw [Store.shard?, ← Vector.getElem?_toList, ← List.head?_drop, hrest]
        rfl
      have hstep : (Pass.sum shard total).step place.worker next.cache =
          some (next.cache, .more (.sum (shard + 1) (total + rows.size))) := by
        simp only [Pass.step, hlisted]
      refine .cons halone hstep rfl fun last hlast heq => ?_
      refine ih _ _ last hlast (heq.trans hsame) ?_ htotal
      rw [heq, ← List.tail_drop, hrest]
      rfl
  refine sums _ 0 0 begun hbegun rfl rfl ?_
  rw [hcache]
  rfl

theorem unwinds {panic : Panic} (h : m.Alone place n (.unwind marks panic)) :
    m.Arrives place n (.leave (.panicked panic)) n.cache 0 := by
  induction marks generalizing n with
  | nil => exact .of_step h rfl (.refl _ _)
  | cons mark marks ih =>
    have hcalm : (n.cache.locks.unregister mark.ticket).1 = none :=
      h.coherent.owned.unregister_eq_none h.frame List.mem_cons_self
    have hgiven : (Pass.unwind (mark :: marks) panic).step place.worker n.cache =
        some (n.cache.relock (n.cache.locks.unregister mark.ticket).2,
          .more (.drop mark.ticket mark.key marks panic)) := by
      simp only [Pass.step, Pass.giveUp_of_calm hcalm]
    refine (Arrives.of_step h hgiven (LockTable.visited_unregister _ _)).bind (j := 0) ?_
    intro freed hfreed hfirst
    refine (Arrives.of_step hfreed rfl (LockTable.visited_release _ _)).bind (j := 0) ?_
    intro next halone hsecond
    have harrives := ih halone
    rw [hsecond, hfirst] at harrives
    exact harrives.of_relock

/-! ### The whole pass -/

theorem sets_out (h : m.Alone place m .enter) (hcalm : m.Unhindered place visits) :
    m.Arrives place m (.visit .expiry m.cache.store.keys ⟨m.cache.clock, [], false⟩)
      (m.cache.engage place.worker) 0 := by
  refine (h.begins hcalm).bind (j := 0) fun begun hbegun hcache => ?_
  have harrives := hbegun.lists
  rw [hcache] at harrives
  exact harrives.of_relock

theorem surveys (h : m.Alone place m .enter) (hcalm : m.Unhindered place visits)
    (hkeys : m.cache.store.keys ⊆ visits) :
    ∃ marks : List Mark, marks.map Mark.target = m.cache.expired.map (Prod.mk .expired) ∧
      m.Arrives place m (.visit .expiry [] ⟨m.cache.clock, marks, m.cache.hasLive⟩)
        (m.cache.engage place.worker) m.cache.store.keys.length := by
  obtain ⟨listed, hlisted, halone, hcache, hvisited⟩ := h.sets_out hcalm
  rw [← List.append_nil m.cache.store.keys] at halone
  obtain ⟨marks, hmarks, harrives⟩ := halone.reviews hcalm hkeys
  rw [hcache] at hmarks harrives
  refine ⟨marks, hmarks, ?_⟩
  rw [← Nat.zero_add m.cache.store.keys.length]
  exact .after hlisted hvisited harrives.of_relock

/-- With what it has marked removed, a pass has swept the cache. -/
theorem concludes {surplus : List Key} (h : m.Alone place n (Pass.clear marks))
    (hmarks : marks.map Mark.target = m.cache.expired.map (Prod.mk .expired) ++
      (surplus.filter m.cache.contains).map (Prod.mk .evicted))
    (hcache : n.cache = (((surplus.filter fun key => !m.cache.contains key).foldl
      Cache.notifyRemoved m.cache).engage place.worker).relock n.cache.locks) :
    m.Arrives place n (.leave (.flag ((m.cache.swept surplus).store.size == 0)))
      ((m.cache.swept surplus).decided.engage place.worker) 0 := by
  refine h.clears.bind (j := 0) fun next halone hnext => ?_
  rw [hmarks, hcache, Cache.foldl_drop_relock, Cache.foldl_drop_engage] at hnext
  have harrives := halone.decides
  rw [hnext] at harrives
  exact harrives.of_relock

theorem evicts {evictor : Evictor} {count : Nat} {surplus : List Key}
    (h : m.Alone place n (.choose count survey)) (hcalm : m.Unhindered place visits)
    (hkeys : surplus ⊆ visits)
    (hevictor : m.cache.evictor = some evictor)
    (hmarks : survey.marks.map Mark.target = m.cache.expired.map (Prod.mk .expired))
    (hsurplus :
      (evictor.worst.filter fun key => !m.cache.expired.contains key).take count = surplus)
    (hcache : n.cache = (m.cache.engage place.worker).relock n.cache.locks) :
    m.Arrives place n (.leave (.flag ((m.cache.swept surplus).store.size == 0)))
      ((m.cache.swept surplus).decided.engage place.worker) surplus.length := by
  have hexpired : survey.marks.map Mark.key = m.cache.expired := by
    rw [← Mark.map_target_snd, hmarks, List.map_map]
    exact List.map_id _
  have hsame : n.cache.evictor = some evictor := by
    rw [hcache]
    exact hevictor
  have hchoose : (Pass.choose count survey).step place.worker n.cache =
      some (n.cache, .more (.visit .eviction surplus survey)) := by
    simp only [Pass.step, Pass.candidates, hsame, hexpired, hsurplus]
  refine .cons h hchoose rfl fun begun hbegun hbegin => ?_
  rw [← List.append_nil surplus] at hbegun
  obtain ⟨marks, hevicted, harrives⟩ := hbegun.selects hcalm hkeys
  rw [hbegin, hcache] at hevicted harrives
  rw [Cache.foldl_notifyRemoved_relock, Cache.foldl_notifyRemoved_engage] at harrives
  refine harrives.of_relock.bind (j := 0) fun next halone hselected => ?_
  refine .cons halone rfl rfl fun last hlast hround => ?_
  refine Alone.concludes hlast ?_ (by rw [hround]; exact hselected)
  rw [List.map_append, hmarks]
  exact congrArg _ hevicted

theorem weighs {evictor : Evictor} (h : m.Alone place n (.weigh survey))
    (hcalm : m.Unhindered place m.cache.itinerary) (hevictor : m.cache.evictor = some evictor)
    (hlive : m.cache.hasLive = true)
    (hmarks : survey.marks.map Mark.target = m.cache.expired.map (Prod.mk .expired))
    (hcache : n.cache = (m.cache.engage place.worker).relock n.cache.locks) :
    (∀ panic, m.cache.surplus = .error panic →
      m.Arrives place n (.leave (.panicked panic)) (m.cache.engage place.worker) 0) ∧
    ∀ surplus, m.cache.surplus = .ok surplus →
      m.Arrives place n (.leave (.flag ((m.cache.swept surplus).store.size == 0)))
        ((m.cache.swept surplus).decided.engage place.worker) surplus.length := by
  have hlength : m.cache.expired.length = survey.marks.length := by
    simpa using (congrArg List.length hmarks).symm
  have hsame : n.cache.evictor = some evictor := by
    rw [hcache]
    exact hevictor
  have hstep : ∀ {next}, Pass.weighExcess n.cache survey = next →
      (Pass.weigh survey).step place.worker n.cache = some (n.cache, .more next) := by
    rintro next rfl
    rfl
  have hvisits : ∀ surplus, m.cache.surplus = .ok surplus → surplus ⊆ m.cache.itinerary := by
    intro surplus hsurplus
    rw [Cache.itinerary, hsurplus]
    exact List.subset_append_right _ _
  simp only [Cache.surplus, hevictor, hlive, if_true] at hvisits ⊢
  cases hexcess : evictor.excess with
  | error panic =>
    refine ⟨fun other hother => ?_, fun surplus hsurplus => (by cases hsurplus)⟩
    cases hother
    have hnext : Pass.weighExcess n.cache survey = .unwind survey.marks panic := by
      simp only [Pass.weighExcess, hsame, hexcess]
    refine .cons h (hstep hnext) rfl fun next halone heq => ?_
    have harrives := halone.unwinds
    rw [heq, hcache] at harrives
    exact harrives.of_relock
  | ok excess =>
    refine ⟨fun other hother => (by cases hother), fun surplus hsurplus => ?_⟩
    have hkeys := hvisits surplus (by rw [hexcess]; exact hsurplus)
    replace hsurplus : (evictor.worst.filter fun key => !m.cache.expired.contains key).take
        (excess - survey.marks.length) = surplus := by
      rw [← hlength]
      exact Except.ok.inj hsurplus
    by_cases henough : excess - survey.marks.length = 0
    · have hnext : Pass.weighExcess n.cache survey = Pass.clear survey.marks := by
        simp only [Pass.weighExcess, hsame, hexcess, henough, if_true]
      rw [henough, List.take_zero] at hsurplus
      subst hsurplus
      refine .cons h (hstep hnext) rfl fun next halone heq => ?_
      refine halone.concludes ?_ (by rw [heq]; exact hcache)
      rw [hmarks, List.filter_nil, List.map_nil, List.append_nil]
    · have hnext : Pass.weighExcess n.cache survey =
          .choose (excess - survey.marks.length) survey := by
        simp only [Pass.weighExcess, hsame, hexcess, if_neg henough]
      exact .cons h (hstep hnext) rfl fun next halone heq =>
        halone.evicts hcalm hkeys hevictor hmarks hsurplus (by rw [heq]; exact hcache)

/-- A pass alone sweeps the cache, or gives up if the evictor panics. -/
theorem sweeps (h : m.Alone place m .enter) (hcalm : m.Unhindered place m.cache.itinerary) :
    m.Arrives place m (.leave m.cache.passResult.answer)
      (m.cache.passResult.cache.engage place.worker) m.cache.passResult.visits := by
  obtain ⟨marks, hmarks, reviewed, hreviewed, halone, hcache, hvisited⟩ :=
    h.surveys hcalm m.cache.keys_subset_itinerary
  have hevictor : reviewed.cache.evictor = m.cache.evictor := by
    rw [hcache]
    rfl
  have hround : ∀ {next}, Pass.endRound reviewed.cache ⟨m.cache.clock, marks, m.cache.hasLive⟩
      .expiry = next →
        (Pass.visit .expiry [] ⟨m.cache.clock, marks, m.cache.hasLive⟩).step place.worker
          reviewed.cache = some (reviewed.cache, .more next) := by
    rintro next rfl
    rfl
  cases hasks : m.cache.hasLive && m.cache.evictor.isSome with
  | true =>
    obtain ⟨hlive, hsome⟩ := Bool.and_eq_true_iff.mp hasks
    obtain ⟨evictor, hown⟩ := Option.isSome_iff_exists.mp hsome
    have hnext : Pass.endRound reviewed.cache ⟨m.cache.clock, marks, m.cache.hasLive⟩ .expiry =
        .weigh ⟨m.cache.clock, marks, m.cache.hasLive⟩ := by
      simp only [Pass.endRound, hevictor, hasks, if_true]
    have weighed : ∀ next, m.Alone place next (.weigh ⟨m.cache.clock, marks, m.cache.hasLive⟩) →
        next.cache = reviewed.cache → _ :=
      fun next hthere heq => hthere.weighs hcalm hown hlive hmarks (by rw [heq]; exact hcache)
    unfold Cache.passResult
    cases hsurplus : m.cache.surplus with
    | error panic =>
      rw [← Nat.add_zero m.cache.store.keys.length]
      exact .after hreviewed hvisited (.cons halone (hround hnext) rfl
        fun next hthere heq => (weighed next hthere heq).1 panic hsurplus)
    | ok surplus =>
      exact .after hreviewed hvisited (.cons halone (hround hnext) rfl
        fun next hthere heq => (weighed next hthere heq).2 surplus hsurplus)
  | false =>
    have hnext : Pass.endRound reviewed.cache ⟨m.cache.clock, marks, m.cache.hasLive⟩ .expiry =
        Pass.clear marks := by
      simp only [Pass.endRound, hevictor, hasks, Bool.false_eq_true, if_false]
    have hnone : m.cache.surplus = .ok [] := by
      cases hown : m.cache.evictor with
      | none => simp only [Cache.surplus, hown]
      | some evictor =>
        have hdead : m.cache.hasLive = false := by simpa [hown] using hasks
        simp only [Cache.surplus, hown, hdead, Bool.false_eq_true, if_false]
    simp only [Cache.passResult, hnone]
    refine .after hreviewed hvisited (.cons halone (hround hnext) rfl fun next hthere heq => ?_)
    refine hthere.concludes ?_ (by rw [heq]; exact hcache)
    rw [hmarks, List.filter_nil, List.map_nil, List.append_nil]

end Alone

/-! ## The end of a pass -/

/-- A pass has come to its end, and all else is as it was on the first machine. -/
structure Ended (m : Machine layout) (place : Place) (n : Machine layout) (answer : Answer) :
    Prop where
  coherent : n.Coherent
  frame : n.frameAt place = none
  others : m.SameBut n place
  answers : ∀ number, (n.client number).answer =
    if place.worker = .client number then some answer else (m.client number).answer

theorem Ended.client_eq {answer : Answer} (h : m.Ended place n answer) {number : Nat}
    {stack : List Frame} (hstack : (n.client number).stack = stack) :
    n.client number =
      ⟨stack, if place.worker = .client number then some answer else (m.client number).answer⟩ := by
  rw [← hstack, ← h.answers number]

/-- A pass that is done lets other passes run; on a thread of the sweeper it gives more back. -/
theorem Alone.leaves {answer : Answer} (h : m.Alone place n (.leave answer)) :
    ∃ next, n.run place.worker = some next ∧ m.Ended place next answer ∧
      n.cache.leave answer place.worker = some next.cache := by
  have hstep : (Frame.pass (.leave answer)).step place.worker n.cache =
      some ({ n.cache with passLock := none }, .done answer) := rfl
  have finish : ∀ next, n.run place.worker = some next → next.frameAt place = none →
      n.SameBut next place → (∀ number, (next.client number).answer =
        if place.worker = .client number then some answer else (n.client number).answer) →
          m.Ended place next answer := by
    intro next hrun hnow hothers hanswers
    have hstep : n.step (.run place.worker) = some next := hrun
    refine ⟨h.coherent.step hstep, hnow, ?_, fun number => ?_⟩
    · exact fun other hother => (hothers other hother).trans (h.others other hother)
    · rw [hanswers, h.answers]
  cases place with
  | client number depth =>
    obtain ⟨outer, hstack, rfl⟩ := h.coherent.nested.stack_eq h.frame rfl
    let next : Machine layout :=
      { n with cache := { n.cache with passLock := none } }.setClient number
        { stack := outer, answer := some answer }
    have hclient : (next.client number).stack = outer := by
      simp only [next, client_setClient, if_true]
    have hrun : n.run (.client number) = some next := by
      simp only [Place.worker] at hstep
      simp only [run, runClient, hstack, hstep, Option.map_some]
      rfl
    refine ⟨next, hrun, finish next hrun (frameAt_outside hclient) (sameBut_setClient
      (m := { n with cache := { n.cache with passLock := none } }) rfl (Or.inr ⟨_, hstack⟩)
        (Or.inl rfl)) fun other => ?_, rfl⟩
    simp only [next, client_setClient, Place.worker, Worker.client.injEq]
    by_cases hother : other = number
    · simp [hother]
    · simp only [if_neg hother, if_neg (Ne.symm hother)]
      rfl
  | sweeper generation =>
    have hpass : n.passes.get? generation = some (.leave answer) := by
      obtain ⟨pass, hpass, heq⟩ := Option.map_eq_some_iff.mp h.frame
      cases heq
      exact hpass
    have hdone : (Pass.leave answer).step (.sweeper generation) n.cache =
        some ({ n.cache with passLock := none }, .done answer) := rfl
    obtain ⟨next, hend⟩ := Option.isSome_iff_exists.mp (h.coherent.isSome_endPass hpass hdone)
    have hrun : n.run (.sweeper generation) = some next := by
      simp only [run, runSweeper, h.coherent.staffed.posted hpass, runPass, hpass, Pass.step,
        Option.bind_some]
      exact hend
    have hspec := hend
    simp only [endPass, Option.bind_eq_bind, Option.bind_eq_some_iff, Option.some.injEq] at hspec
    obtain ⟨detached, hdetached, sweeper, hended, rfl⟩ := hspec
    refine ⟨_, hrun, finish _ hrun ?_ (frameAt_sweeper rfl fun other hother => ?_) fun _ => rfl, ?_⟩
    · simp only [frameAt, Table.get?_erase, if_true, Option.map_none]
    · exact (Table.get?_erase n.passes generation other).trans (if_neg hother)
    · simp only [Cache.leave, Place.worker, hdetached, hended, Option.bind_some, Option.map_some]

/-- The thread of a pass takes it to its end if nobody has a key that the pass is to visit. -/
theorem Alone.ends_of_unhindered (h : m.Alone place m .enter)
    (hcalm : m.Unhindered place m.cache.itinerary) :
    ∃ n locks, m.Toils place n ∧ m.Ended place n m.cache.passResult.answer ∧
      ((m.cache.passResult.cache.engage place.worker).relock locks).leave
        m.cache.passResult.answer place.worker = some n.cache ∧
      LockTable.Visited (m.Lonely place) m.cache.locks locks m.cache.passResult.visits := by
  obtain ⟨there, hthere, halone, hcache, hvisited⟩ := h.sweeps hcalm
  obtain ⟨n, hrun, hended, hleave⟩ := halone.leaves
  rw [hcache] at hleave
  exact ⟨n, there.cache.locks, hthere.trans (.step halone.busy hrun (.refl n)), hended, hleave,
    hvisited⟩

theorem Alone.ends (h : m.Alone place m .enter) (hcalm : m.Undisturbed place) :
    ∃ n locks, m.Toils place n ∧ m.Ended place n m.cache.passResult.answer ∧
      ((m.cache.passResult.cache.engage place.worker).relock locks).leave
        m.cache.passResult.answer place.worker = some n.cache ∧
      LockTable.Visited (m.Lonely place) m.cache.locks locks m.cache.passResult.visits :=
  h.ends_of_unhindered (hcalm.unhindered h.coherent.mem_itinerary)

end Machine

end TtlCache
