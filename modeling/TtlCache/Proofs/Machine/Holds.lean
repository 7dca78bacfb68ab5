import TtlCache.Proofs.Machine.Guards
import TtlCache.Proofs.Machine.Notes
import TtlCache.Proofs.Ranking.Tracking

/-!
# Held keys

An operation that holds a key may have decided what it will do to it and not have done it yet.
`Frame.holds` lists the keys that an operation holds, each with the effects that are still to come
and with whether an entry of it must have expired.  Two things follow from one case analysis of all
steps.  An operation changes a key only while it holds it.  And what is still to come always brings
the store and the evictor into agreement about the key.
-/

namespace TtlCache

variable {layout : Layout}

/-! ## Keys of a cache -/

namespace Cache

def Tracks (c : Cache layout) (key : Key) : Prop :=
  ∃ evictor, c.evictor = some evictor ∧ key ∈ evictor.worst

def Ranked (c : Cache layout) : Prop :=
  ∀ evictor, c.evictor = some evictor → evictor.ranking.Sound

structure SameKey (c d : Cache layout) (key : Key) : Prop where
  get?_eq : d.store.get? key = c.store.get? key
  tracks_iff : d.Tracks key ↔ c.Tracks key

theorem SameKey.refl (c : Cache layout) (key : Key) : c.SameKey c key := ⟨rfl, Iff.rfl⟩

theorem SameKey.trans {c d e : Cache layout} {key : Key} (h : c.SameKey d key)
    (hlater : d.SameKey e key) : c.SameKey e key :=
  ⟨hlater.get?_eq.trans h.get?_eq, hlater.tracks_iff.trans h.tracks_iff⟩

theorem SameKey.contains_eq {c d : Cache layout} {key : Key} (h : c.SameKey d key) :
    d.contains key = c.contains key := by
  rw [contains, contains, h.get?_eq]

theorem tracks_congr {c d : Cache layout} (h : d.evictor = c.evictor) (key : Key) :
    d.Tracks key ↔ c.Tracks key := by
  rw [Tracks, Tracks, h]

theorem ranked_congr {c d : Cache layout} (h : d.evictor = c.evictor) (hranked : c.Ranked) :
    d.Ranked := by
  intro evictor hevictor
  exact hranked evictor (h ▸ hevictor)

theorem notifyUsed_spec {c : Cache layout} (h : c.Ranked) (key : Key) :
    (c.notifyUsed key).Ranked ∧
      ∀ k, (c.notifyUsed key).Tracks k ↔ (k = key ∧ c.evictor.isSome = true) ∨ c.Tracks k := by
  cases hevictor : c.evictor with
  | none => constructor <;> simp [Ranked, Tracks, notifyUsed, hevictor]
  | some evictor =>
    obtain ⟨hsound, hworst⟩ := (h evictor hevictor).used key
    constructor
    · intro after hafter
      simp only [notifyUsed, hevictor, Option.map_some, Option.some.injEq] at hafter
      subst hafter
      exact hsound
    · intro k
      simp only [Tracks, notifyUsed, hevictor, Option.map_some, Option.some.injEq,
        exists_eq_left', Evictor.worst, Evictor.used, hworst, Option.isSome_some, and_true]

theorem notifyRemoved_spec {c : Cache layout} (h : c.Ranked) (key : Key) :
    (c.notifyRemoved key).Ranked ∧
      ∀ k, (c.notifyRemoved key).Tracks k ↔ k ≠ key ∧ c.Tracks k := by
  cases hevictor : c.evictor with
  | none => constructor <;> simp [Ranked, Tracks, notifyRemoved, hevictor]
  | some evictor =>
    obtain ⟨hsound, hworst⟩ := (h evictor hevictor).remove key
    constructor
    · intro after hafter
      simp only [notifyRemoved, hevictor, Option.map_some, Option.some.injEq] at hafter
      subst hafter
      exact hsound
    · intro k
      simp only [Tracks, notifyRemoved, hevictor, Option.map_some, Option.some.injEq,
        exists_eq_left', Evictor.worst, Evictor.remove, hworst]

end Cache

/-! ## What is owed to a key -/

def Effect.key? : Effect -> Option Key
  | .erase key | .put key _ _ | .use key | .untrack key => some key
  | .count _ | .wake => none

def Effect.overwrites : Effect -> Bool
  | .erase _ | .put _ _ _ => true
  | _ => false

def overwritesFirst : List Effect -> Bool
  | [] => false
  | effect :: _ => effect.overwrites

/--
Whether effects bring a key into order: in the end it is tracked if it is stored, and if it is
tracked without being stored then that is excused.
-/
def Settles : List Effect -> Prop -> Prop -> Prop -> Prop
  | [], stored, tracked, excused => (stored → tracked) ∧ (tracked → stored ∨ excused)
  | .erase _ :: todo, _, tracked, excused => Settles todo False tracked excused
  | .put _ _ _ :: todo, _, tracked, _ => Settles todo True tracked False
  | .use _ :: todo, stored, _, excused => Settles todo stored True excused
  | .untrack _ :: todo, stored, _, excused => Settles todo stored False excused
  | .count _ :: todo, stored, tracked, excused => Settles todo stored tracked excused
  | .wake :: todo, stored, tracked, excused => Settles todo stored tracked excused

theorem Settles.mono {todo : List Effect} {stored tracked excused stored' tracked' excused' : Prop}
    (h : Settles todo stored tracked excused) (hstored : stored ↔ stored')
    (htracked : tracked ↔ tracked') (hexcused : excused → excused') :
    Settles todo stored' tracked' excused' := by
  rw [← propext hstored, ← propext htracked]
  clear hstored htracked stored' tracked'
  induction todo generalizing stored tracked excused excused' with
  | nil => exact ⟨h.1, fun ht => (h.2 ht).imp_right hexcused⟩
  | cons effect todo ih =>
    cases effect with
    | put key value deadline => exact ih h id
    | erase key => exact ih h hexcused
    | use key => exact ih h hexcused
    | untrack key => exact ih h hexcused
    | count counter => exact ih h hexcused
    | wake => exact ih h hexcused

theorem Settles.stable {c d : Cache layout} {key : Key} {todo : List Effect}
    {excused after : Prop} (h : Settles todo (c.contains key = true) (c.Tracks key) excused)
    (hsame : c.SameKey d key) (hexcused : excused → after) :
    Settles todo (d.contains key = true) (d.Tracks key) after := by
  refine h.mono ?_ hsame.tracks_iff.symm hexcused
  rw [hsame.contains_eq]

/-- A held key, the effects that are to come, and whether an entry of it must have expired. -/
structure Hold where
  ticket : Nat
  key : Key
  pending : List Effect
  doomed : Bool

def Mark.isExpired (mark : Mark) : Bool := decide (mark.removal = .expired)

def Mark.hold (mark : Mark) : Hold := ⟨mark.ticket, mark.key, [], mark.isExpired⟩

def Access.holds (a : Access) : List Hold :=
  match a.point with
  | .look ticket => [⟨ticket, a.key, [], false⟩]
  | .missed ticket _ | .provide ticket _ => [⟨ticket, a.key, [], true⟩]
  | .perform ticket todo _ => [⟨ticket, a.key, todo, overwritesFirst todo⟩]
  | .register | .acquire _ | .release _ _ => []

def Pass.holds : Pass -> List Hold
  | .enter | .queue | .collect _ _ _ | .decide | .sum _ _ | .leave _ => []
  | .visit _ _ survey | .acquire _ _ _ _ survey | .release _ _ _ _ survey | .weigh survey
  | .choose _ survey => survey.marks.map Mark.hold
  | .judge _ ticket key _ survey | .dismiss _ ticket key _ survey =>
      ⟨ticket, key, [], false⟩ :: survey.marks.map Mark.hold
  | .untrack ticket key _ survey =>
      ⟨ticket, key, [.untrack key], false⟩ :: survey.marks.map Mark.hold
  | .remove todo mark marks =>
      ⟨mark.ticket, mark.key, todo, mark.isExpired && overwritesFirst todo⟩ ::
        marks.map Mark.hold
  | .free _ _ marks | .unwind marks _ | .drop _ _ marks _ => marks.map Mark.hold

def Frame.holds : Frame -> List Hold
  | .access a => a.holds
  | .pass p => p.holds
  | .clock | .taking _ => []

/-- What is true of a held key. -/
structure Hold.Kept (hold : Hold) (c : Cache layout) (excused : Key -> Prop) : Prop where
  own : ∀ effect ∈ hold.pending, ∀ key, effect.key? = some key → hold.key = key
  /-- Only the first effect replaces or removes the entry. -/
  first : ∀ effect ∈ hold.pending.tail, effect.overwrites = false
  doomed : hold.doomed = true → ∀ entry, c.store.get? hold.key = some entry →
    entry.isExpired c.clock = true
  settled : c.evictor.isSome = true →
    Settles hold.pending (c.contains hold.key = true) (c.Tracks hold.key) (excused hold.key)

/-! ## Effects on their key and on others -/

theorem Effect.apply_spec {effect : Effect} {c d : Cache layout} (h : effect.apply c = some d)
    (hranked : c.Ranked) :
    d.Ranked ∧ d.clock = c.clock ∧ d.evictor.isSome = c.evictor.isSome ∧
      ∀ key, effect.key? ≠ some key → c.SameKey d key := by
  cases effect with
  | erase key =>
    cases h
    refine ⟨hranked, rfl, rfl, fun k hk => ⟨?_, Iff.rfl⟩⟩
    exact (Store.get?_erase c.store key k).trans (if_neg fun heq => hk (by rw [heq]; rfl))
  | put key value deadline =>
    cases h
    refine ⟨hranked, rfl, rfl, fun k hk => ⟨?_, Iff.rfl⟩⟩
    exact (Store.get?_insert c.store key k _).trans (if_neg fun heq => hk (by rw [heq]; rfl))
  | use key =>
    cases h
    obtain ⟨hafter, htracks⟩ := Cache.notifyUsed_spec hranked key
    refine ⟨hafter, rfl, Option.isSome_map, fun k hk => ⟨rfl, ?_⟩⟩
    have hne : k ≠ key := fun heq => hk (by rw [heq]; rfl)
    simp [htracks, hne]
  | untrack key =>
    cases h
    obtain ⟨hafter, htracks⟩ := Cache.notifyRemoved_spec hranked key
    refine ⟨hafter, rfl, Option.isSome_map, fun k hk => ⟨rfl, ?_⟩⟩
    have hne : k ≠ key := fun heq => hk (by rw [heq]; rfl)
    simp [htracks, hne]
  | count counter =>
    cases h
    exact ⟨hranked, rfl, rfl, fun _ _ => ⟨rfl, Iff.rfl⟩⟩
  | wake =>
    obtain ⟨sweeper, -, rfl⟩ := Option.map_eq_some_iff.mp h
    exact ⟨hranked, rfl, rfl, fun _ _ => ⟨rfl, Iff.rfl⟩⟩

theorem Effect.settles_apply {effect : Effect} {c d : Cache layout} {key : Key}
    {todo : List Effect} {excused : Prop} (h : effect.apply c = some d) (hranked : c.Ranked)
    (hevictor : c.evictor.isSome = true) (hkey : ∀ k, effect.key? = some k → key = k)
    (hsettles : Settles (effect :: todo) (c.contains key = true) (c.Tracks key) excused) :
    Settles todo (d.contains key = true) (d.Tracks key)
      (excused ∧ ∀ value deadline, effect ≠ .put key value deadline) := by
  have hexcused : (∀ value deadline, effect ≠ .put key value deadline) →
      excused → excused ∧ ∀ value deadline, effect ≠ .put key value deadline :=
    fun hput hx => ⟨hx, hput⟩
  cases effect with
  | erase k =>
    cases hkey k rfl
    cases h
    have hrest : Settles todo False (c.Tracks key) excused := hsettles
    refine hrest.mono ?_ Iff.rfl (hexcused (by simp))
    simp [Cache.contains, Store.get?_erase]
  | put k value deadline =>
    cases hkey k rfl
    cases h
    have hrest : Settles todo True (c.Tracks key) False := hsettles
    refine hrest.mono ?_ Iff.rfl ?_
    · simp [Cache.contains, Store.get?_insert]
    · exact False.elim
  | use k =>
    cases hkey k rfl
    cases h
    have hrest : Settles todo (c.contains key = true) True excused := hsettles
    refine hrest.mono Iff.rfl ?_ (hexcused (by simp))
    simp [(Cache.notifyUsed_spec hranked key).2, hevictor]
  | untrack k =>
    cases hkey k rfl
    cases h
    have hrest : Settles todo (c.contains key = true) False excused := hsettles
    refine hrest.mono Iff.rfl ?_ (hexcused (by simp))
    simp [(Cache.notifyRemoved_spec hranked key).2]
  | count counter =>
    cases h
    exact hsettles.mono Iff.rfl Iff.rfl (hexcused (by simp))
  | wake =>
    obtain ⟨sweeper, -, rfl⟩ := Option.map_eq_some_iff.mp h
    exact hsettles.mono Iff.rfl Iff.rfl (hexcused (by simp))

theorem Entry.isExpired_mono {entry : Entry} {now later : Instant} (h : entry.isExpired now = true)
    (hle : now.nanos ≤ later.nanos) : entry.isExpired later = true := by
  simp only [isExpired, decide_eq_true_eq] at h ⊢
  omega

namespace Hold.Kept

variable {hold : Hold} {c d : Cache layout} {excused after : Key -> Prop}

theorem stable (h : hold.Kept c excused) (hsame : c.SameKey d hold.key)
    (hclock : c.clock.nanos ≤ d.clock.nanos)
    (hevictor : d.evictor.isSome = c.evictor.isSome)
    (hexcused : excused hold.key → after hold.key) : hold.Kept d after where
  own := h.own
  first := h.first
  doomed := by
    intro hdoomed entry hentry
    rw [hsame.get?_eq] at hentry
    exact Entry.isExpired_mono (h.doomed hdoomed entry hentry) hclock
  settled := by
    intro hsome
    rw [hevictor] at hsome
    exact (h.settled hsome).stable hsame hexcused

/-- None of the effects after the first one replaces or removes the entry. -/
theorem later {effect : Effect} {todo : List Effect} (h : hold.Kept c excused)
    (hpending : hold.pending = effect :: todo) : overwritesFirst todo = false := by
  have hfirst := h.first
  rw [hpending, List.tail_cons] at hfirst
  cases todo with
  | nil => rfl
  | cons next todo => exact hfirst next List.mem_cons_self

theorem apply {effect : Effect} {todo : List Effect} (h : hold.Kept c excused)
    (hpending : hold.pending = effect :: todo) (happly : effect.apply c = some d)
    (hranked : c.Ranked)
    (hexcused : (excused hold.key ∧ ∀ value deadline, effect ≠ .put hold.key value deadline) →
      after hold.key) :
    Kept ⟨hold.ticket, hold.key, todo, false⟩ d after where
  own := fun other hother => h.own other (hpending ▸ List.mem_cons_of_mem _ hother)
  first := by
    intro other hother
    refine h.first other ?_
    rw [hpending]
    exact List.mem_of_mem_tail hother
  doomed := by simp
  settled := by
    intro hsome
    obtain ⟨-, -, hevictor, -⟩ := Effect.apply_spec happly hranked
    rw [hevictor] at hsome
    have hsettles := h.settled hsome
    rw [hpending] at hsettles
    have hkey := h.own effect (hpending ▸ List.mem_cons_self)
    exact (Effect.settles_apply happly hranked hsome hkey hsettles).mono Iff.rfl Iff.rfl hexcused

end Hold.Kept

/-! ## Steps -/

def Note.Stores (note : Note) (key : Key) : Prop := ∃ ticket entry, note = .stored key ticket entry

/-- What is excused after a note: a key that has been stored no longer is. -/
def excusedAfter (excused : Key -> Prop) (note : Option Note) (key : Key) : Prop :=
  excused key ∧ ∀ told, note = some told → ¬told.Stores key

theorem excusedAfter_none {excused : Key -> Prop} {key : Key} (h : excused key) :
    excusedAfter excused none key :=
  ⟨h, fun told htold => absurd htold (Option.not_mem_none told)⟩

/-- A step that leaves all keys alone but those that are held, and does what is owed to these. -/
structure Careful (c : Cache layout) (holds : List Hold) (excused : Key -> Prop)
    (note : Option Note) (d : Cache layout) (after : List Hold) : Prop where
  ranked : d.Ranked
  clock_eq : d.clock = c.clock
  evictor_eq : d.evictor.isSome = c.evictor.isSome
  same : ∀ key, (∀ hold ∈ holds, hold.key ≠ key) → c.SameKey d key
  stores : ∀ told key, note = some told → told.Stores key → ∃ hold ∈ holds, hold.key = key
  kept : ∀ hold ∈ after, hold.Kept d (excusedAfter excused note)
  left : ∀ hold ∈ holds, (∀ other ∈ after, other.key ≠ hold.key) → d.evictor.isSome = true →
    Settles [] (d.contains hold.key = true) (d.Tracks hold.key)
      (excusedAfter excused note hold.key)

namespace Careful

variable {c d : Cache layout} {holds after rest : List Hold} {excused : Key -> Prop}
  {note : Option Note} {hold now : Hold}

theorem of_same (hranked : c.Ranked) (hstore : d.store = c.store)
    (hevictor : d.evictor = c.evictor) (hclock : d.clock = c.clock)
    (hwas : ∀ hold ∈ holds, hold.Kept c excused) (hidle : ∀ hold ∈ holds, hold.pending = [])
    (hkept : ∀ hold ∈ after, hold.Kept c excused)
    (hnote : ∀ told key, note = some told → ¬told.Stores key) :
    Careful c holds excused note d after := by
  have hsame : ∀ key, c.SameKey d key := fun key =>
    ⟨by rw [hstore], Cache.tracks_congr hevictor key⟩
  have hstable : ∀ hold : Hold, hold.Kept c excused → hold.Kept d (excusedAfter excused note) :=
    fun hold h => h.stable (hsame hold.key) (Nat.le_of_eq (by rw [hclock]))
      (by rw [hevictor]) fun hx => ⟨hx, fun told htold => hnote told hold.key htold⟩
  refine ⟨Cache.ranked_congr hevictor hranked, hclock, by rw [hevictor], fun key _ => hsame key,
    fun told key htold hstores => absurd hstores (hnote told key htold),
    fun hold hhold => hstable hold (hkept hold hhold), ?_⟩
  intro hold hhold _ hsome
  have hsettles := (hstable hold (hwas hold hhold)).settled hsome
  rwa [hidle hold hhold] at hsettles

theorem of_idle (hranked : c.Ranked) (hstore : d.store = c.store) (hevictor : d.evictor = c.evictor)
    (hclock : d.clock = c.clock) : Careful c [] excused none d [] := by
  refine .of_same hranked hstore hevictor hclock (List.forall_mem_nil _) (List.forall_mem_nil _)
    (List.forall_mem_nil _) ?_
  exact fun told _ htold => absurd htold (Option.not_mem_none told)

theorem of_first (hranked : d.Ranked) (hclock : d.clock = c.clock)
    (hevictor : d.evictor.isSome = c.evictor.isSome)
    (hsame : ∀ key, hold.key ≠ key → c.SameKey d key)
    (hstores : ∀ told key, note = some told → told.Stores key → hold.key = key)
    (hrest : ∀ other ∈ rest, other.Kept c excused) (hapart : ∀ other ∈ rest, other.key ≠ hold.key)
    (hnow : now.Kept d (excusedAfter excused note)) (hkey : now.key = hold.key) :
    Careful c (hold :: rest) excused note d (now :: rest) := by
  refine ⟨hranked, hclock, hevictor, ?_, ?_, ?_, ?_⟩
  · exact fun key hkey => hsame key (hkey hold List.mem_cons_self)
  · exact fun told key htold hkey => ⟨hold, List.mem_cons_self, hstores told key htold hkey⟩
  · intro other hother
    rcases List.mem_cons.mp hother with rfl | hmem
    · exact hnow
    · have hne := hapart other hmem
      refine (hrest other hmem).stable (hsame other.key hne.symm)
        (Nat.le_of_eq (by rw [hclock])) hevictor ?_
      refine fun hx => ⟨hx, fun told htold hkey => hne ?_⟩
      exact (hstores told other.key htold hkey).symm
  · intro other hother hleft
    rcases List.mem_cons.mp hother with rfl | hmem
    · exact absurd hkey (hleft now List.mem_cons_self)
    · exact absurd rfl (hleft other (List.mem_cons_of_mem _ hmem))

theorem of_effect {effect : Effect} {todo : List Effect} (hranked : c.Ranked)
    (happly : effect.apply c = some d) (hpending : hold.pending = effect :: todo)
    (hkept : hold.Kept c excused) (hrest : ∀ other ∈ rest, other.Kept c excused)
    (hapart : ∀ other ∈ rest, other.key ≠ hold.key)
    (hnote : ∀ told key, note = some told → told.Stores key →
      ∃ value deadline, effect = .put key value deadline) :
    Careful c (hold :: rest) excused note d (⟨hold.ticket, hold.key, todo, false⟩ :: rest) := by
  obtain ⟨hranked', hclock, hevictor, hsame⟩ := Effect.apply_spec happly hranked
  have hown := hkept.own effect (hpending ▸ List.mem_cons_self)
  have hstores : ∀ told key, note = some told → told.Stores key → hold.key = key := by
    intro told key htold hkey
    obtain ⟨value, deadline, rfl⟩ := hnote told key htold hkey
    exact hown key rfl
  refine of_first hranked' hclock hevictor ?_ hstores hrest hapart
    (hkept.apply hpending happly hranked ?_) rfl
  · exact fun key hkey => hsame key fun heq => hkey (hown key heq)
  · rintro ⟨hx, hput⟩
    refine ⟨hx, fun told htold hkey => ?_⟩
    obtain ⟨value, deadline, heq⟩ := hnote told hold.key htold hkey
    exact hput value deadline heq

end Careful

end TtlCache
