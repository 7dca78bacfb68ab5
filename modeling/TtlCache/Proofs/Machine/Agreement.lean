import TtlCache.Proofs.Machine.Custody

/-!
# Store and evictor agree

Many steps store or remove entries, and each of them has to tell the evictor.  Between the one and
the other the two disagree about a key, but only while the key is held by the operation that will
bring it into order.  So for every key that nobody holds, the evictor tracks what the store has.
-/

namespace TtlCache

variable {layout : Layout}

def LockTable.isHeld (t : LockTable Key) (key : Key) : Bool :=
  t.guards.rows.any fun row => decide (row.2.key = key) && decide (row.2.stage = .holding)

namespace Machine

variable {m n : Machine layout} {event : Event}

theorem Owned.isHeld_of_keeps (h : m.Owned) {place : Place} {frame : Frame} {key : Key}
    (hframe : m.frameAt place = some frame) (hkeeps : frame.Keeps key) :
    m.cache.locks.isHeld key = true := by
  obtain ⟨ticket, hclaim⟩ := hkeeps
  obtain ⟨guard, hguard, hkey, hstage⟩ := (h.bears hframe).granted hclaim
  rw [LockTable.isHeld, List.any_eq_true]
  refine ⟨(ticket, guard), Table.get?_eq_some_iff.mp hguard, ?_⟩
  simp [hkey, hstage]

theorem Tidy.settles_of_idle {excused : Key -> Prop} (h : m.Tidy excused)
    (hevictor : m.cache.evictor.isSome = true)
    (hidle : ∀ place frame, m.frameAt place = some frame → ∀ hold ∈ frame.holds, hold.pending = [])
    (key : Key) : Settles [] (m.cache.contains key = true) (m.cache.Tracks key) (excused key) := by
  by_cases hkept : ∃ place frame, m.frameAt place = some frame ∧ frame.Keeps key
  · obtain ⟨place, frame, hframe, hkeeps⟩ := hkept
    obtain ⟨hold, hhold, rfl⟩ := Frame.keeps_iff.mp hkeeps
    rw [← hidle place frame hframe hold hhold]
    exact (h.kept hframe hhold).settled hevictor
  · refine h.free (fun place frame hframe hkeeps => ?_) hevictor
    exact hkept ⟨place, frame, hframe, hkeeps⟩

theorem Tidy.tracks_iff (h : m.Tidy fun _ => False) (hevictor : m.cache.evictor.isSome = true)
    (hidle : ∀ place frame, m.frameAt place = some frame → ∀ hold ∈ frame.holds, hold.pending = [])
    (key : Key) : m.cache.Tracks key ↔ m.cache.contains key = true := by
  have hsettled := h.settles_of_idle hevictor hidle key
  exact ⟨fun htracks => (hsettled.2 htracks).resolve_right id, hsettled.1⟩

/-- In every run, a key that nobody holds is in order. -/
theorem agreement_of_run {config : Config} {evictor : Evictor} {clock : Instant}
    {events : List Event} {excused : Key -> Prop} (hevictor : config.evictor = some evictor)
    (hsound : evictor.ranking.Sound) (hexcused : ∀ key, key ∈ evictor.worst → excused key)
    (hrun : (ofConfig layout config clock).runAll events = some m) :
    ∃ now, m.cache.evictor = some now ∧ now.worst.Nodup ∧
      ∀ key, m.cache.locks.isHeld key = false →
        (m.cache.contains key = true → key ∈ now.worst) ∧
          (key ∈ now.worst → m.cache.contains key = true ∨
            (excused key ∧ Unstored ((ofConfig layout config clock).record events) key)) := by
  have only : ∀ other, config.evictor = some other → other = evictor :=
    fun other hother => Option.some.inj (hother.symm.trans hevictor)
  obtain ⟨howned, hsome, htidy⟩ := owned_tidy_of_run hrun
    (fun other hother => only other hother ▸ hsound)
    (fun other key hother hmem => hexcused key (only other hother ▸ hmem))
  rw [hevictor] at hsome
  obtain ⟨now, hnow⟩ := Option.isSome_iff_exists.mp hsome
  have htracks : ∀ key, m.cache.Tracks key ↔ key ∈ now.worst := by
    intro key
    simp [Cache.Tracks, hnow]
  refine ⟨now, hnow, (htidy.ranked now hnow).nodup_worst, fun key hkey => ?_⟩
  have hfree : ∀ place frame, m.frameAt place = some frame → ¬frame.Keeps key := by
    intro place frame hframe hkeeps
    rw [howned.isHeld_of_keeps hframe hkeeps] at hkey
    cases hkey
  have hagree := htidy.free hfree hsome
  rw [htracks] at hagree
  exact hagree

/--
A built-in evictor tracks exactly the keys that are stored, apart from those that somebody holds.
One made by the caller tracks all stored keys, and what else it tracks was there when it was handed
over and has not been stored since.  Neither lists a key twice.
-/
theorem evictor_agrees_with_store {config : Config} {evictor : Evictor} {clock : Instant}
    {events : List Event} (hevictor : config.evictor = some evictor)
    (hrun : (ofConfig layout config clock).runAll events = some m) :
    (∀ policy capacity, Evictor.builtIn policy capacity = .ok evictor →
      ∃ now, m.cache.evictor = some now ∧ now.worst.Nodup ∧
        ∀ key, m.cache.locks.isHeld key = false →
          (key ∈ now.worst ↔ m.cache.contains key = true)) ∧
    (∀ policy capacity preload rule, Evictor.made policy capacity preload rule = .ok evictor →
      ∃ now, m.cache.evictor = some now ∧ now.worst.Nodup ∧
        ∀ key, m.cache.locks.isHeld key = false →
          (m.cache.contains key = true → key ∈ now.worst) ∧
            (key ∈ now.worst → m.cache.contains key = true ∨
              (key ∈ preload ∧ Unstored ((ofConfig layout config clock).record events) key))) := by
  constructor
  · intro policy capacity hbuilt
    obtain ⟨hsound, hworst, -⟩ := Evictor.builtIn_spec hbuilt
    have hnone : ∀ key, key ∈ evictor.worst → False := by simp [hworst]
    obtain ⟨now, hnow, hnodup, hagree⟩ := agreement_of_run hevictor hsound hnone hrun
    refine ⟨now, hnow, hnodup, fun key hkey => ⟨fun hmem => ?_, (hagree key hkey).1⟩⟩
    exact ((hagree key hkey).2 hmem).elim id fun hexcused => hexcused.1.elim
  · intro policy capacity preload rule hmade
    obtain ⟨hsound, hworst⟩ := Evictor.made_spec hmade
    exact agreement_of_run hevictor hsound (fun key => (hworst key).mp) hrun

/--
A key is stored and tracked while another one is about to be stored.  An evictor handed over with
"c" ranked tracks "c" as well, which was never stored.
-/
theorem evictor_agrees_with_store_created :
    (∃ (evictor now : Evictor) (m : Machine .flat), Evictor.builtIn .recency 1 = .ok evictor ∧
      runAll (ofConfig .flat ⟨some evictor, defaultInterval⟩ ⟨0⟩)
          (creation 0 "a" leastTtl (.u32 7) ++ (creation 1 "b" leastTtl .unit).take 5) = some m ∧
      m.cache.evictor = some now ∧ m.cache.locks.isHeld "b" = true ∧ "a" ∈ now.worst) ∧
    ∃ (evictor now : Evictor) (m : Machine .flat),
      Evictor.made .recency 1 ["c"] .ranked = .ok evictor ∧
      runAll (ofConfig .flat ⟨some evictor, defaultInterval⟩ ⟨0⟩) (creation 0 "a" leastTtl .unit) =
        some m ∧
      m.cache.evictor = some now ∧ "a" ∈ now.worst ∧
        ("c" ∈ now.worst → m.cache.contains "c" = true ∨ "c" ∈ ["c"]) := by
  constructor
  · have hbuilt : Evictor.builtIn .recency 1 = .ok ⟨.recency ⟨1, .empty, .empty⟩, none⟩ := rfl
    have hrun : runAll
        (ofConfig .flat ⟨some ⟨.recency ⟨1, .empty, .empty⟩, none⟩, defaultInterval⟩ ⟨0⟩)
        (creation 0 "a" leastTtl (.u32 7) ++ (creation 1 "b" leastTtl .unit).take 5) =
      some _ := rfl
    obtain ⟨now, hnow, -, hagree⟩ := (evictor_agrees_with_store rfl hrun).1 .recency 1 hbuilt
    exact ⟨_, now, _, hbuilt, hrun, hnow, by decide, (hagree "a" (by decide)).mpr (by decide)⟩
  · have hmade : Evictor.made .recency 1 ["c"] .ranked =
        .ok ⟨.recency (Recency.used ⟨1, .empty, .empty⟩ "c"), some .ranked⟩ := rfl
    have hrun : runAll
        (ofConfig .flat
          ⟨some ⟨.recency (Recency.used ⟨1, .empty, .empty⟩ "c"), some .ranked⟩, defaultInterval⟩
          ⟨0⟩)
        (creation 0 "a" leastTtl .unit) = some _ := rfl
    obtain ⟨now, hnow, -, hagree⟩ :=
      (evictor_agrees_with_store rfl hrun).2 .recency 1 ["c"] .ranked hmade
    refine ⟨_, now, _, hmade, hrun, hnow, (hagree "a" (by decide)).1 (by decide), fun hmem => ?_⟩
    exact ((hagree "c" (by decide)).2 hmem).imp_right And.left

end Machine

end TtlCache
