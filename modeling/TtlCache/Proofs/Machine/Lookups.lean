import TtlCache.Cache.Access

/-!
# What a lookup leads to

A lookup sees an entry or none, and what it leads to depends on nothing else than that, the request
and the time.  `Request.verdict` says what is answered; only a creating request that sees no live
entry goes without an answer, and its provider has to run.
-/

namespace TtlCache

variable {layout : Layout}

/-- What is seen of an entry at a time: nothing if it has expired. -/
def liveAt (now : Instant) (seen : Option Entry) : Option Entry :=
  seen.filter fun entry => !entry.isExpired now

/-- What a request is answered on sight of an entry, unless its provider has to run. -/
def Request.verdict (key : Key) (now : Instant) (seen : Option Entry) : Request -> Option Answer
  | .get kind =>
    match liveAt now seen with
    | none => some (.found none)
    | some entry =>
      match entry.read key kind with
      | .ok value => some (.found (some (value, entry.remaining now)))
      | .error panic => some (.panicked panic)
  | .create kind _ =>
    match liveAt now seen with
    | none => none
    | some entry =>
      match entry.read key kind with
      | .ok value => some (.value value)
      | .error panic => some (.panicked panic)
  | .extend _ | .forget => some (.flag seen.isSome)

theorem liveAt_of_expired {now : Instant} {entry : Entry} (h : entry.isExpired now = true) :
    liveAt now (some entry) = none := by
  simp [liveAt, h]

theorem liveAt_of_live {now : Instant} {entry : Entry} (h : entry.isExpired now = false) :
    liveAt now (some entry) = some entry := by
  simp [liveAt, h]

theorem liveAt_eq_some_iff {now : Instant} {seen : Option Entry} {entry : Entry} :
    liveAt now seen = some entry ↔ seen = some entry ∧ entry.isExpired now = false := by
  simp [liveAt, Option.filter_eq_some_iff]

theorem liveAt_eq_none_iff {now : Instant} {seen : Option Entry} :
    liveAt now seen = none ↔ ∀ entry, seen = some entry → entry.isExpired now = true := by
  cases seen with
  | none => simp [liveAt]
  | some entry => simp [liveAt]

namespace Access

/-- The entry of the key after its lookup: moved by an extension, gone after a removal. -/
def seenAfter (request : Request) (seen : Option Entry) : Option Entry :=
  match request with
  | .get _ | .create _ _ => seen
  | .extend deadline => seen.map fun entry => entry.extend deadline
  | .forget => none

/-- The effects that a lookup may leave to be had. -/
inductive Plan (key : Key) (now : Instant) (request : Request) (seen : Option Entry) :
    List Effect -> Prop where
  | nothing (present : (seenAfter request seen).isSome = seen.isSome) :
      Plan key now request seen []
  | miss (same : seenAfter request seen = seen) : Plan key now request seen [.count .miss]
  | hit (same : seenAfter request seen = seen) (present : seen.isSome = true) :
      Plan key now request seen (hit key)
  | expire (same : seenAfter request seen = seen) (dead : liveAt now seen = none) :
      Plan key now request seen (expire key)
  | untrack (gone : seenAfter request seen = none) : Plan key now request seen [.untrack key]

/-- Where a lookup may lead to. -/
inductive Sight (key : Key) (ticket : Nat) (now : Instant) (request : Request)
    (seen : Option Entry) : AccessPoint -> Prop where
  | answered {todo : List Effect} {answer : Answer}
      (verdict : request.verdict key now seen = some answer)
      (plan : Plan key now request seen todo) :
      Sight key ticket now request seen (.perform ticket todo answer)
  | missed (verdict : request.verdict key now seen = none)
      (create : ∃ kind ttl, request = .create kind ttl) (dead : liveAt now seen = none) :
      Sight key ticket now request seen (.missed ticket seen.isSome)

theorem sight_vacant (key : Key) (ticket : Nat) (now : Instant) (request : Request) :
    Sight key ticket now request none (lookVacant ticket request) := by
  cases request with
  | get kind => exact .answered rfl (.miss rfl)
  | create kind ttl => exact .missed rfl ⟨kind, ttl, rfl⟩ rfl
  | extend deadline => exact .answered rfl (.nothing rfl)
  | forget => exact .answered rfl (.nothing rfl)

theorem sight_entry (key : Key) (ticket : Nat) (now : Instant) (request : Request) (entry : Entry) :
    Sight key ticket now request (some entry) (lookEntry key ticket entry now request) := by
  cases request with
  | get kind =>
    cases hexpired : entry.isExpired now with
    | true =>
      simp only [lookEntry, hexpired, if_true]
      exact .answered (by simp [Request.verdict, liveAt_of_expired hexpired])
        (.expire rfl (liveAt_of_expired hexpired))
    | false =>
      cases hread : entry.read key kind with
      | ok value =>
        simp only [lookEntry, hexpired, hread]
        exact .answered (by simp [Request.verdict, liveAt_of_live hexpired, hread]) (.hit rfl rfl)
      | error panic =>
        simp only [lookEntry, hexpired, hread]
        exact .answered (by simp [Request.verdict, liveAt_of_live hexpired, hread]) (.nothing rfl)
  | create kind ttl =>
    cases hexpired : entry.isExpired now with
    | true =>
      simp only [lookEntry, hexpired, if_true]
      exact .missed (by simp [Request.verdict, liveAt_of_expired hexpired]) ⟨kind, ttl, rfl⟩
        (liveAt_of_expired hexpired)
    | false =>
      cases hread : entry.read key kind with
      | ok value =>
        simp only [lookEntry, hexpired, hread]
        exact .answered (by simp [Request.verdict, liveAt_of_live hexpired, hread]) (.hit rfl rfl)
      | error panic =>
        simp only [lookEntry, hexpired, hread]
        exact .answered (by simp [Request.verdict, liveAt_of_live hexpired, hread]) (.nothing rfl)
  | extend deadline => exact .answered rfl (.nothing rfl)
  | forget => exact .answered rfl (.untrack rfl)

theorem sight_look (a : Access) (c : Cache layout) (ticket : Nat) :
    Sight a.key ticket c.clock a.request (c.store.get? a.key) (a.look c ticket).2 := by
  cases hget : c.store.get? a.key with
  | none =>
    simp only [look, hget]
    exact sight_vacant a.key ticket c.clock a.request
  | some entry =>
    simp only [look, hget]
    exact sight_entry a.key ticket c.clock a.request entry

theorem get?_look (a : Access) (c : Cache layout) (ticket : Nat) (key : Key) :
    (a.look c ticket).1.store.get? key =
      if key = a.key then seenAfter a.request (c.store.get? a.key) else c.store.get? key := by
  cases hget : c.store.get? a.key with
  | none =>
    simp only [look, hget]
    by_cases hkey : key = a.key
    · rw [if_pos hkey, hkey, hget]
      cases a.request <;> rfl
    · rw [if_neg hkey]
  | some entry =>
    simp only [look, hget]
    cases a.request with
    | get kind =>
      by_cases hkey : key = a.key
      · rw [if_pos hkey, hkey]
        exact hget
      · rw [if_neg hkey]
        rfl
    | create kind ttl =>
      by_cases hkey : key = a.key
      · rw [if_pos hkey, hkey]
        exact hget
      · rw [if_neg hkey]
        rfl
    | extend deadline => exact Store.get?_insert c.store a.key key _
    | forget => exact Store.get?_erase c.store a.key key

theorem look_rest (a : Access) (c : Cache layout) (ticket : Nat) :
    (a.look c ticket).1.locks = c.locks ∧ (a.look c ticket).1.evictor = c.evictor ∧
      (a.look c ticket).1.clock = c.clock := by
  unfold look
  split <;> exact ⟨rfl, rfl, rfl⟩

end Access

end TtlCache
