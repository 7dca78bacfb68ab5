import TtlCache.Proofs.Ranking.LastUses

/-!
# Books

A ranking notes where every key stands, and the keys stand in chains; the two are books about one
and the same thing, and must agree.  Where they did not, a ranking would go on as if nothing was
wrong: a use would put in the key anew, and a walk would end early and leave out the keys behind.
Here it is shown that after any notices they do agree, and that no use, no removal and no walk ever
comes to a place where something is missing.
-/

namespace TtlCache

theorem usesSince_le (notices : List Notice) (key : Key) :
    usesSince notices key ≤ notices.length := by
  induction notices using List.reverseRecOn with
  | nil => exact Nat.le_refl _
  | append_singleton notices notice ih =>
    rw [usesSince_append, List.length_append, List.length_singleton]
    cases notice <;> simp only [Notice.tally] <;> split <;> omega

namespace Recency

/-- Where a walk comes to. -/
inductive Visits (r : Recency) : Option Nat → Prop
  | start : Visits r r.start
  | next {cursor : Option Nat} (before : Visits r cursor) : Visits r (r.next cursor).2

variable {r : Recency}

namespace Sound

theorem position_iff (h : r.Sound) {key : Key} {slot : Nat} :
    r.positions.get? key = some slot ↔ r.order.get? slot = some key := by
  rw [h.position, h.order.get?_eq_some_iff]

theorem stands (h : r.Sound) {cursor : Option Nat} (hvisits : r.Visits cursor) :
    ∃ before after, r.order.items = before ++ after ∧ cursor = Chain.firstSlot after := by
  induction hvisits with
  | start => exact ⟨[], r.order.items, rfl, h.order.front_eq⟩
  | next _ ih =>
    obtain ⟨before, after, hitems, rfl⟩ := ih
    cases after with
    | nil => exact ⟨before, [], hitems, rfl⟩
    | cons item rest =>
      refine ⟨before ++ [item], rest, by rw [hitems, List.append_cons], ?_⟩
      rw [Chain.firstSlot_cons, Recency.next, Chain.next?, h.order.node hitems]
      rfl

/-- A walk finds a key wherever it comes to. -/
theorem finds (h : r.Sound) {slot : Nat} (hvisits : r.Visits (some slot)) :
    ∃ key, r.order.get? slot = some key := by
  obtain ⟨before, after, hitems, hslot⟩ := h.stands hvisits
  cases after with
  | nil => cases hslot
  | cons item rest =>
    cases hslot
    exact ⟨item.2, by rw [Chain.get?, h.order.node hitems]; rfl⟩

end Sound

end Recency

namespace Frequency

/-- Where a walk comes to, on its way to the next bucket included. -/
inductive Visits (f : Frequency) : Cursor → Prop
  | start : Visits f f.start
  | next {cursor : Cursor} (before : Visits f cursor) : Visits f (f.next cursor).2
  | above {frequency higher : Nat} {bucket : Chain Key}
      (before : Visits f { frequency := some frequency, slot := none })
      (found : f.bucketAbove frequency = some (higher, bucket)) :
      Visits f { frequency := some higher, slot := bucket.front }

theorem get?_of_bucketAbove {f : Frequency} {frequency higher : Nat} {bucket : Chain Key}
    (h : f.bucketAbove frequency = some (higher, bucket)) :
    f.buckets.get? higher = some bucket := by
  simp only [bucketAbove, Option.bind_eq_bind, Option.bind_eq_some_iff] at h
  obtain ⟨least, -, found, hfound, heq⟩ := h
  cases heq
  exact hfound

/-- A cursor stands on a slot of the bucket of its frequency or behind the last one. -/
def Stands (f : Frequency) (cursor : Cursor) : Prop :=
  ∀ frequency, cursor.frequency = some frequency →
    ∃ before after, f.bucketItems frequency = before ++ after ∧ cursor.slot = Chain.firstSlot after

namespace Sound

variable {f : Frequency}

theorem stands_front (h : f.Sound) {frequency : Nat} {bucket : Chain Key}
    (hbucket : f.buckets.get? frequency = some bucket) :
    f.Stands { frequency := some frequency, slot := bucket.front } := by
  rintro _ ⟨⟩
  exact ⟨[], bucket.items, bucketItems_of_some hbucket, (h.stocked hbucket).1.front_eq⟩

theorem stands_start (h : f.Sound) : f.Stands f.start := by
  rw [start_eq]
  cases hlevels : f.levels with
  | nil => simp [Stands]
  | cons lowest upper =>
    have hmem : lowest ∈ f.levels := hlevels ▸ List.mem_cons_self
    obtain ⟨bucket, -, -, hbucket, -, -⟩ := h.exists_bucket hmem
    simp only [hbucket, Option.bind_some]
    exact h.stands_front hbucket

theorem stands_nextIn (h : f.Sound) {frequency : Nat} {before rest : List (Nat × Key)}
    {item : Nat × Key} (hitems : f.bucketItems frequency = before ++ item :: rest) :
    f.Stands (f.nextIn frequency (some item.1)).2 := by
  rw [h.nextIn_item hitems]
  rintro _ ⟨⟩
  exact ⟨before ++ [item], rest, by rw [hitems, List.append_cons], rfl⟩

theorem stands_next (h : f.Sound) {cursor : Cursor} (hstands : f.Stands cursor) :
    f.Stands (f.next cursor).2 := by
  obtain ⟨level, slot⟩ := cursor
  cases level with
  | none => exact hstands
  | some frequency =>
    obtain ⟨before, after, hitems, rfl⟩ := hstands frequency rfl
    cases after with
    | cons item rest => exact h.stands_nextIn hitems
    | nil =>
      change f.Stands (f.nextIn frequency none).2
      cases habove : f.bucketAbove frequency with
      | none =>
        rw [nextIn_none habove]
        rintro _ ⟨⟩
      | some found =>
        obtain ⟨higher, bucket⟩ := found
        have hbucket := get?_of_bucketAbove habove
        obtain ⟨hholds, hne⟩ := h.stocked hbucket
        obtain ⟨item, rest, hfirst⟩ := List.exists_cons_of_ne_nil hne
        rw [nextIn_above habove, hholds.front_eq, hfirst]
        have hitems : f.bucketItems higher = [] ++ item :: rest :=
          (bucketItems_of_some hbucket).trans hfirst
        exact h.stands_nextIn hitems

theorem stands (h : f.Sound) {cursor : Cursor} (hvisits : f.Visits cursor) : f.Stands cursor := by
  induction hvisits with
  | start => exact h.stands_start
  | next _ ih => exact h.stands_next ih
  | above _ found _ => exact h.stands_front (get?_of_bucketAbove found)

theorem standing_iff (h : f.Sound) {key : Key} {frequency slot : Nat} :
    f.standings.get? key = some { frequency := frequency, slot := slot } ↔
      ∃ bucket, f.buckets.get? frequency = some bucket ∧ bucket.get? slot = some key := by
  rw [h.standing]
  cases hbucket : f.buckets.get? frequency with
  | none => simp [bucketItems_of_none hbucket]
  | some bucket => simp [bucketItems_of_some hbucket, (h.stocked hbucket).1.get?_eq_some_iff]

theorem finds (h : f.Sound) {frequency slot : Nat}
    (hvisits : f.Visits { frequency := some frequency, slot := some slot }) :
    ∃ bucket key, f.buckets.get? frequency = some bucket ∧ bucket.get? slot = some key := by
  obtain ⟨before, after, hitems, hslot⟩ := h.stands hvisits frequency rfl
  cases after with
  | nil => cases hslot
  | cons item rest =>
    cases hslot
    have hitem : (item.1, item.2) ∈ f.bucketItems frequency := by simp [hitems]
    obtain ⟨bucket, hbucket, hkey⟩ := h.standing_iff.mp (h.standing_of_mem hitem)
    exact ⟨bucket, item.2, hbucket, hkey⟩

theorem isEmpty_bucket (h : f.Sound) {frequency : Nat} {bucket : Chain Key}
    (hbucket : f.buckets.get? frequency = some bucket) : bucket.isEmpty = false := by
  obtain ⟨hholds, hne⟩ := h.stocked hbucket
  rw [Chain.isEmpty, hholds.length_eq, beq_eq_false_iff_ne, Ne, List.length_eq_zero_iff]
  exact hne

end Sound

theorem Reflects.frequency_eq {notices : List Notice} {f : Frequency} (h : f.Reflects notices)
    {key : Key} {standing : Standing} (hstanding : f.standings.get? key = some standing) :
    standing.frequency = usesSince notices key := by
  rw [← h.count_eq, count, hstanding]
  rfl

theorem Reflects.frequency_pos {notices : List Notice} {f : Frequency} (h : f.Reflects notices)
    {key : Key} {standing : Standing} (hstanding : f.standings.get? key = some standing) :
    0 < standing.frequency := by
  rw [h.frequency_eq hstanding, ← h.mem_worst, h.sound.mem_worst, Table.mem_keys_iff, hstanding]
  rfl

end Frequency

namespace Ranking

/--
After any notices the two books of a ranking agree.

A ranking by recency has a key in a slot exactly if it notes this slot for the key.  A ranking by
frequency notes a bucket and a slot for a key, with a frequency between one and the number of
notices, exactly if the bucket is there and has the key in that slot; every node of a bucket is of
one key only, no bucket is empty, and to take out a key by its note is to find it.  Wherever a walk
comes to, there is a key.  There are such rankings for every capacity but zero and those above the
greatest one.
-/
theorem books_agree {capacity : Nat} (hcapacity : 0 < capacity) (notices : List Notice) :
    (Room.mostKeys < capacity ∧ ∀ policy, ∃ panic, ofPolicy policy capacity = .error panic) ∨
    (∃ first r, Recency.ofCapacity capacity = .ok first ∧ notices.foldl Recency.hear first = r ∧
      (∀ key slot, r.positions.get? key = some slot ↔ r.order.get? slot = some key) ∧
      ∀ slot, r.Visits (some slot) → ∃ key, r.order.get? slot = some key) ∧
    ∃ first f, Frequency.ofCapacity capacity = .ok first ∧ notices.foldl Frequency.hear first = f ∧
      (∀ key standing, f.standings.get? key = some standing →
        1 ≤ standing.frequency ∧ standing.frequency ≤ notices.length ∧
          (∃ bucket, f.buckets.get? standing.frequency = some bucket ∧
            bucket.get? standing.slot = some key) ∧
          (f.detach standing).1 = some key) ∧
      (∀ frequency bucket, f.buckets.get? frequency = some bucket →
        bucket.isEmpty = false ∧ ∀ slot key, bucket.get? slot = some key →
          ∀ other, f.standings.get? other = some { frequency := frequency, slot := slot } ↔
            other = key) ∧
      ∀ frequency slot, f.Visits { frequency := some frequency, slot := some slot } →
        ∃ bucket key, f.buckets.get? frequency = some bucket ∧ bucket.get? slot = some key := by
  rcases Nat.lt_or_ge Room.mostKeys capacity with hlarge | hroom
  · refine .inl ⟨hlarge, fun policy => ?_⟩
    rw [ofPolicy_eq]
    exact policy.makes_of_lt _ hlarge
  refine .inr ⟨?_, ?_⟩
  · have hfirst : Recency.ofCapacity capacity = .ok (.fresh capacity) :=
      (Recency.ofCapacity_eq capacity).trans (Policy.makes_of_le _ _ hcapacity hroom)
    have h : Recency.Reflects capacity ([] ++ notices) (notices.foldl Recency.hear _) :=
      foldl_induction (fun notice h => h.hear notice) (.fresh capacity) notices
    exact ⟨_, _, hfirst, rfl, fun _ _ => h.sound.position_iff, fun _ => h.sound.finds⟩
  · have hfirst : Frequency.ofCapacity capacity = .ok (.fresh capacity) :=
      (Frequency.ofCapacity_eq capacity).trans (Policy.makes_of_le _ _ hcapacity hroom)
    have h := Frequency.reflects_foldl (.fresh capacity) notices
    rw [List.nil_append] at h
    refine ⟨_, _, hfirst, rfl, ?_, ?_, fun _ _ => h.sound.finds⟩
    · intro key standing hstanding
      refine ⟨h.frequency_pos hstanding, ?_, h.sound.standing_iff.mp hstanding,
        (h.sound.detach hstanding).1⟩
      rw [h.frequency_eq hstanding]
      exact usesSince_le notices key
    · intro frequency bucket hbucket
      refine ⟨h.sound.isEmpty_bucket hbucket, fun slot key hkey other => ?_⟩
      rw [h.sound.standing_iff]
      constructor
      · rintro ⟨same, hsame, hother⟩
        rw [hbucket] at hsame
        cases hsame
        exact Option.some.inj (hother.symm.trans hkey)
      · rintro rfl
        exact ⟨bucket, hbucket, hkey⟩

/-- A key moves on to the second bucket, another one is removed, and a third one comes into the slot
of the one removed and opens the first bucket anew. -/
theorem books_agree_reopened :
    let notices := [Notice.used "a", .used "b", .used "a", .removed "b", .used "c"]
    0 < 1 ∧
      (∃ first r, Recency.ofCapacity 1 = .ok first ∧ notices.foldl Recency.hear first = r ∧
        r.positions.get? "c" = some 1 ∧ r.order.get? 1 = some "c") ∧
      ∃ first f, Frequency.ofCapacity 1 = .ok first ∧ notices.foldl Frequency.hear first = f ∧
        f.standings.get? "a" = some { frequency := 2, slot := 0 } ∧
        (f.detach { frequency := 2, slot := 0 }).1 = some "a" ∧
        f.Visits { frequency := some 1, slot := some 0 } ∧
        ∃ bucket key, f.buckets.get? 1 = some bucket ∧ bucket.get? 0 = some key := by
  intro notices
  obtain ⟨⟨firstRecency, r, hrecency, hr, hpositions, -⟩,
    ⟨firstFrequency, f, hfrequency, hf, hstandings, -, hwalks⟩⟩ :=
    (books_agree (show 0 < 1 by decide) notices).resolve_left fun h => absurd h.1 (by decide)
  have hposition : r.positions.get? "c" = some 1 := by
    cases hrecency
    subst hr
    decide +kernel
  have hstanding : f.standings.get? "a" = some { frequency := 2, slot := 0 } := by
    cases hfrequency
    subst hf
    decide +kernel
  have hstart : f.start = { frequency := some 1, slot := some 0 } := by
    cases hfrequency
    subst hf
    decide +kernel
  have hvisits : f.Visits { frequency := some 1, slot := some 0 } := hstart ▸ .start
  exact ⟨by decide, ⟨firstRecency, r, hrecency, hr, hposition, (hpositions "c" 1).mp hposition⟩,
    firstFrequency, f, hfrequency, hf, hstanding, (hstandings "a" _ hstanding).2.2.2, hvisits,
    hwalks 1 0 hvisits⟩

end Ranking

end TtlCache
