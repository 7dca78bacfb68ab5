import TtlCache.Proofs.Machine.Candidates
import TtlCache.Proofs.Machine.Survivors
import TtlCache.Proofs.Machine.Uses

/-!
# Keys without entries in a ranking

An evictor that was used before it was handed over may rank keys that were never stored.  By
recency such a key can only go down: it is used for the first time when an entry of it is stored.
So it ranks below every key that has been stored, but for the moment between a storage and the use
that goes with it.  By frequency it may rank above keys with entries, and then it takes up a place.
-/

namespace TtlCache

variable {layout : Layout} {c d : Cache layout}

theorem Ranking.Sound.worst_used {r : Ranking} (h : r.Sound) (hrecency : r.policy = .recency)
    (key : Key) :
    (r.used key).worst = (r.worst.filter fun k => decide (k ≠ key)) ++ [key] := by
  cases r with
  | recency keys => exact (Recency.Sound.used h key).2
  | frequency keys => cases hrecency

theorem Ranking.policy_foldl_used (keys : List Key) (r : Ranking) :
    (keys.foldl Ranking.used r).policy = r.policy := by
  induction keys generalizing r with
  | nil => rfl
  | cons key keys ih => rw [List.foldl_cons, ih, policy_used]

theorem Evictor.policy_made {policy : Policy} {capacity : Nat} {preload : List Key}
    {rule : ExcessRule} {evictor : Evictor} (h : made policy capacity preload rule = .ok evictor) :
    evictor.ranking.policy = policy := by
  rw [eq_of_made h, Ranking.policy_foldl_used, Ranking.policy_fresh]

/-! ## Steps -/

/-- A step that stores nothing. -/
structure Quiet (c : Cache layout) (note : Option Note) (d : Cache layout) : Prop where
  silent : ∀ told key, note = some told → ¬told.Stores key
  fewer : ∀ key, d.contains key = true → c.contains key = true

/--
What a step does to the evictor, and what it makes of the uses that are due.  A use comes up when
an entry is found or stored.
-/
inductive Owes (c : Cache layout) (due : List Key) (note : Option Note) (d : Cache layout)
    (after : List Key) : Prop where
  | kept (evictor_eq : d.evictor = c.evictor) (same : after = due) (quiet : Quiet c note d)
  | removed (key : Key) (evictor_eq : d.evictor = c.evictor.map fun evictor => evictor.remove key)
      (same : after = due) (quiet : Quiet c note d)
  | found (key : Key) (evictor_eq : d.evictor = c.evictor) (before : due = [])
      (owed : after = [key]) (present : c.contains key = true) (quiet : Quiet c note d)
  | stored (key : Key) (evictor_eq : d.evictor = c.evictor) (before : due = [])
      (owed : after = [key]) (noted : ∃ ticket entry, note = some (.stored key ticket entry))
      (others : ∀ other, other ≠ key → d.contains other = true → c.contains other = true)
  | told (key : Key) (evictor_eq : d.evictor = c.evictor.map fun evictor => evictor.used key)
      (before : due = key :: after) (quiet : Quiet c note d)

theorem Quiet.of_store_eq {note : Option Note}
    (silent : ∀ told key, note = some told → ¬told.Stores key) (h : d.store = c.store) :
    Quiet c note d := by
  refine ⟨silent, fun key hkey => ?_⟩
  rwa [Cache.contains, h, ← Cache.contains] at hkey

theorem Quiet.of_erase {note : Option Note} {key : Key}
    (silent : ∀ told key, note = some told → ¬told.Stores key) (h : d.store = c.store.erase key) :
    Quiet c note d := by
  refine ⟨silent, fun other hother => ?_⟩
  rw [Cache.contains, h, Store.get?_erase] at hother
  split at hother
  · cases hother
  · exact hother

namespace Access

theorem owes_finding {key : Key} {ticket : Nat} {request : Request} {point : AccessPoint}
    (h : Finding key ticket c request d point) :
    Owes c [] (note? ⟨key, request, .look ticket⟩ c) d (due ⟨key, request, point⟩) := by
  have silent : ∀ told other, note? ⟨key, request, .look ticket⟩ c = some told →
      ¬told.Stores other := by
    rintro told other hnote ⟨own, entry, rfl⟩
    cases hnote
  have present : ∀ {entry}, c.store.get? key = some entry → c.contains key = true :=
    fun hentry => by rw [Cache.contains, hentry]; rfl
  cases h with
  | vacant absent => cases request <;> exact .kept rfl rfl (.of_store_eq silent rfl)
  | found hentry live fits =>
    exact .found key rfl rfl rfl (present hentry) (.of_store_eq silent rfl)
  | reused hentry live fits =>
    exact .found key rfl rfl rfl (present hentry) (.of_store_eq silent rfl)
  | @extended deadline entry hentry =>
    refine .kept rfl rfl ⟨silent, fun other hother => ?_⟩
    rw [Cache.contains, Store.get?_insert] at hother
    split at hother
    · next heq => exact heq ▸ present hentry
    · exact hother
  | forgotten hentry => exact .kept rfl rfl (.of_erase silent rfl)
  | _ => exact .kept rfl rfl (.of_store_eq silent rfl)

theorem owes_step {a : Access} {progress : Progress Access} (h : a.step c = some (d, progress))
    (hprompt : a.Prompt)
    (hfirst : ∀ hold ∈ a.holds, ∀ effect ∈ hold.pending.tail, effect.overwrites = false) :
    Owes c a.due (a.note? c) d ((progress.point?.map due).getD []) := by
  have silent : (∀ key ticket entry, a.note? c ≠ some (.stored key ticket entry)) →
      ∀ told key, a.note? c = some told → ¬told.Stores key := by
    rintro hnone told key hnote ⟨ticket, entry, rfl⟩
    exact hnone key ticket entry hnote
  cases stride_of_step h with
  | @look key request ticket =>
    exact owes_finding (finding_look key request (.look ticket) ticket c)
  | @effect key request ticket effect todo answer after applied =>
    obtain ⟨-, hput⟩ := hprompt ticket _ answer rfl
    -- after the first effect nothing is stored any more
    have hdue : due ⟨key, request, .perform ticket todo answer⟩ = todo.filterMap Effect.used? :=
      due_perform (hfirst _ (List.mem_singleton_self _))
    simp only [Progress.point?, Option.map_some, Option.getD_some, hdue]
    cases effect with
    | put other value deadline =>
      cases applied
      refine .stored other rfl rfl (hput _ _ _ _ rfl) ⟨ticket, ⟨value, deadline⟩, ?_⟩ ?_
      · rfl
      · intro key hkey hcontains
        rwa [Cache.contains, Store.get?_insert, if_neg hkey] at hcontains
    | erase other =>
      cases applied
      exact .kept rfl rfl (.of_erase (silent fun _ _ _ h => by cases h) rfl)
    | count counter =>
      cases applied
      exact .kept rfl rfl (.of_store_eq (silent fun _ _ _ h => by cases h) rfl)
    | wake =>
      obtain ⟨sweeper, -, rfl⟩ := Option.map_eq_some_iff.mp applied
      exact .kept rfl rfl (.of_store_eq (silent fun _ _ _ h => by cases h) rfl)
    | use other =>
      cases applied
      exact .told other rfl rfl (.of_store_eq (silent fun _ _ _ h => by cases h) rfl)
    | untrack other =>
      cases applied
      exact .removed other rfl rfl (.of_store_eq (silent fun _ _ _ h => by cases h) rfl)
  | _ => exact .kept rfl rfl (.of_store_eq (silent fun _ _ _ h => by cases h) rfl)

end Access

theorem Pass.owes_step {p : Pass} {who : Worker} {progress : Progress Pass}
    (h : p.step who c = some (d, progress)) (hsheds : p.Sheds) : Owes c [] p.note? d [] := by
  have silent : ∀ told key, p.note? = some told → ¬told.Stores key := by
    rintro told key hnote ⟨ticket, entry, rfl⟩
    unfold note? at hnote
    split at hnote
    · cases hnote
    · split at hnote <;> cases hnote
    · cases hnote
  cases stride_of_step h with
  | @untrack ticket key keys survey => exact .removed key rfl rfl (.of_store_eq silent rfl)
  | @effect effect todo mark marks after applied =>
    cases hsheds.next with
    | erase => cases applied; exact .kept rfl rfl (.of_erase silent rfl)
    | untrack => cases applied; exact .removed mark.key rfl rfl (.of_store_eq silent rfl)
    | count => cases applied; exact .kept rfl rfl (.of_store_eq silent rfl)
  | dismiss =>
    exact .kept (giveUp_spec c _ _ _ _).2.1 rfl (.of_store_eq silent (giveUp_spec c _ _ _ _).1)
  | removed =>
    exact .kept (giveUp_spec c _ _ _ _).2.1 rfl (.of_store_eq silent (giveUp_spec c _ _ _ _).1)
  | unwind =>
    exact .kept (giveUp_spec c _ _ _ _).2.1 rfl (.of_store_eq silent (giveUp_spec c _ _ _ _).1)
  | _ => exact .kept rfl rfl (.of_store_eq silent rfl)

theorem Frame.owes_step {frame : Frame} {who : Worker} {progress : Progress Frame}
    (h : frame.step who c = some (d, progress)) (hprompt : frame.Prompt) (hsheds : frame.Sheds)
    (hfirst : ∀ hold ∈ frame.holds, ∀ effect ∈ hold.pending.tail, effect.overwrites = false) :
    Owes c frame.due (frame.note? c) d ((progress.point?.map due).getD []) := by
  have silent : ∀ told key, (none : Option Note) = some told → ¬told.Stores key :=
    fun _ _ h => by cases h
  cases stride_of_step h with
  | access step =>
    rw [Progress.point?_map, Option.map_map]
    exact Access.owes_step step hprompt hfirst
  | @pass p d progress step =>
    have hnone : ((progress.map Frame.pass).point?.map due).getD [] = [] := by
      cases progress <;> rfl
    rw [hnone]
    exact Pass.owes_step step hsheds
  | _ => exact .kept rfl rfl (.of_store_eq silent rfl)

theorem Owes.congr {due after : List Key} {note : Option Note} {e : Cache layout}
    (h : Owes c due note d after) (halike : d.Alike e) : Owes c due note e after := by
  have hcontains : ∀ key, e.contains key = d.contains key :=
    fun key => (halike.sameKey key).contains_eq
  have hquiet : Quiet c note d → Quiet c note e :=
    fun quiet => ⟨quiet.silent, fun key hkey => quiet.fewer key (hcontains key ▸ hkey)⟩
  have hevictor := halike.evictor_eq
  cases h with
  | kept evictor_eq same quiet => exact .kept (hevictor.trans evictor_eq) same (hquiet quiet)
  | removed key evictor_eq same quiet =>
    exact .removed key (hevictor.trans evictor_eq) same (hquiet quiet)
  | found key evictor_eq before owed present quiet =>
    exact .found key (hevictor.trans evictor_eq) before owed present (hquiet quiet)
  | stored key evictor_eq before owed noted others =>
    exact .stored key (hevictor.trans evictor_eq) before owed noted
      fun other hother hkey => others other hother (hcontains other ▸ hkey)
  | told key evictor_eq before quiet =>
    exact .told key (hevictor.trans evictor_eq) before (hquiet quiet)

namespace Machine

variable {m n : Machine layout} {event : Event} {log : List Line} {excused : Key -> Prop}

theorem Tidy.owes_of_step (h : m.Tidy excused)
    (hprompt : ∀ {place frame}, m.frameAt place = some frame → frame.Prompt)
    (hstep : m.step event = some n) :
    ∃ place, (∀ other, other ≠ place → n.dueAt other = m.dueAt other) ∧
      Owes m.cache (m.dueAt place) (m.note? event) n.cache (n.dueAt place) := by
  have stood : ∀ {place}, m.SameBut n place → ∀ other, other ≠ place →
      n.dueAt other = m.dueAt other := by
    intro place others other hother
    rw [dueAt, dueAt, others other hother]
  cases step_cases hstep with
  | aside frames alike acting =>
    have same : ∀ place, n.dueAt place = m.dueAt place :=
      fun place => by rw [dueAt, dueAt, frames]
    rw [note?_of_aside acting]
    refine ⟨.sweeper 0, fun other _ => same other, ?_⟩
    exact Owes.congr (.kept rfl (same _) (.of_store_eq (fun _ _ h => by cases h) rfl)) alike
  | opened place frame fresh free now others alike acting =>
    rw [note?_of_aside acting]
    refine ⟨place, stood others, ?_⟩
    rw [dueAt_of_none free, dueAt_of_frameAt now, fresh.due_eq]
    exact Owes.congr (.kept rfl rfl (.of_store_eq (fun _ _ h => by cases h) rfl)) alike
  | ended place access next outcome was after now others same acting provided =>
    refine ⟨place, stood others, ?_⟩
    obtain ⟨-, hafter, hbefore⟩ := Access.prompt_afterProvider after
    rw [note?_of_provide acting was provided, dueAt_of_frameAt was, dueAt_of_frameAt now]
    exact .kept (by rw [same]) (hafter.trans hbefore.symm)
      (.of_store_eq (Access.idle_of_afterProvider after).2 (by rw [same]))
  | stepped place frame cache progress was step now others alike acting ran kept =>
    refine ⟨place, stood others, ?_⟩
    rw [note?_of_run acting was ran, dueAt_of_frameAt was, dueAt, now]
    exact (Frame.owes_step step (hprompt was) (h.sheds was)
      fun _ hhold => (h.kept was hhold).first).congr alike

/-! ## Keys that were never stored -/

theorem unstored_lines {key : Key} :
    Unstored (log ++ m.lines event) key ↔
      Unstored log key ∧ ∀ told, m.note? event = some told → ¬told.Stores key := by
  have hafter : excusedAfter (fun k => True ∧ Unstored log k) (m.note? event) key =
      (True ∧ Unstored (log ++ m.lines event) key) :=
    congrFun (excusedAfter_unstored (fun _ => True) log) key
  simpa [excusedAfter] using hafter.symm

/-- Below a key that was never stored there are none but such, and keys whose use is due. -/
def Below (log : List Line) (m : Machine layout) (a b : Key) : Prop :=
  Unstored log b → Unstored log a ∨ ∃ place, a ∈ m.dueAt place

/-- The ranking, by recency, has the keys that were never stored at its bottom. -/
structure Senior (log : List Line) (m : Machine layout) : Prop where
  owned : m.Owned
  tidy : m.Tidy fun _ => True
  prompt : ∀ {place frame}, m.frameAt place = some frame → frame.Prompt
  stored : ∀ {key}, m.cache.contains key = true → ¬Unstored log key
  due : ∀ {place key}, key ∈ m.dueAt place → ¬Unstored log key
  recency : ∀ {evictor}, m.cache.evictor = some evictor → evictor.ranking.policy = .recency
  below : ∀ {evictor}, m.cache.evictor = some evictor → evictor.worst.Pairwise (Below log m)

namespace Senior

theorem stored_step (h : Senior log m) (hstep : m.step event = some n) {key : Key}
    (hkey : n.cache.contains key = true) : ¬Unstored (log ++ m.lines event) key := by
  rw [unstored_lines]
  have earlier : m.cache.contains key = true → ¬(Unstored log key ∧
      ∀ told, m.note? event = some told → ¬told.Stores key) :=
    fun hwas hnever => h.stored hwas hnever.1
  obtain ⟨place, -, howes⟩ := h.tidy.owes_of_step h.prompt hstep
  cases howes with
  | kept evictor_eq same quiet => exact earlier (quiet.fewer key hkey)
  | removed gone evictor_eq same quiet => exact earlier (quiet.fewer key hkey)
  | found used evictor_eq before owed present quiet => exact earlier (quiet.fewer key hkey)
  | told used evictor_eq before quiet => exact earlier (quiet.fewer key hkey)
  | stored used evictor_eq before owed noted others =>
    by_cases hsame : key = used
    · subst hsame
      obtain ⟨ticket, entry, hnote⟩ := noted
      exact fun hnever => hnever.2 _ hnote ⟨ticket, entry, rfl⟩
    · exact earlier (others key hsame hkey)

theorem due_step (h : Senior log m) (hstep : m.step event = some n) {other : Place} {key : Key}
    (hkey : key ∈ n.dueAt other) : ¬Unstored (log ++ m.lines event) key := by
  rw [unstored_lines]
  have earlier : ∀ place, key ∈ m.dueAt place → ¬(Unstored log key ∧
      ∀ told, m.note? event = some told → ¬told.Stores key) :=
    fun _ hwas hnever => h.due hwas hnever.1
  obtain ⟨place, hothers, howes⟩ := h.tidy.owes_of_step h.prompt hstep
  by_cases hother : other = place
  · subst hother
    cases howes with
    | kept evictor_eq same quiet => exact earlier other (same ▸ hkey)
    | removed gone evictor_eq same quiet => exact earlier other (same ▸ hkey)
    | told used evictor_eq before quiet =>
      exact earlier other (before ▸ List.mem_cons_of_mem used hkey)
    | found used evictor_eq before owed present quiet =>
      rw [owed, List.mem_singleton] at hkey
      exact fun hnever => h.stored (hkey ▸ present) hnever.1
    | stored used evictor_eq before owed noted others =>
      rw [owed, List.mem_singleton] at hkey
      obtain ⟨ticket, entry, hnote⟩ := noted
      exact fun hnever => hnever.2 _ hnote ⟨ticket, entry, hkey ▸ rfl⟩
  · rw [hothers other hother] at hkey
    exact earlier other hkey

theorem below_mono {a b : Key} (h : Below log m a b)
    (hstored : ∀ told, m.note? event = some told → told.Stores a → ∃ place, a ∈ n.dueAt place)
    (hdue : ∀ place, a ∈ m.dueAt place → ∃ other, a ∈ n.dueAt other) :
    Below (log ++ m.lines event) n a b := by
  intro hnever
  rcases h (unstored_lines.mp hnever).1 with hlower | ⟨place, hplace⟩
  · by_cases hnow : ∃ told, m.note? event = some told ∧ told.Stores a
    · obtain ⟨told, hnote, hstores⟩ := hnow
      exact Or.inr (hstored told hnote hstores)
    · refine Or.inl (unstored_lines.mpr ⟨hlower, fun told hnote hstores => ?_⟩)
      exact hnow ⟨told, hnote, hstores⟩
  · exact Or.inr (hdue place hplace)

/-- A use brings its key to the top, and it is due no longer. -/
theorem ranking_step (h : Senior log m) (hstep : m.step event = some n) {later : Evictor}
    (hlater : n.cache.evictor = some later) :
    later.ranking.policy = .recency ∧ later.worst.Pairwise (Below (log ++ m.lines event) n) := by
  obtain ⟨place, hothers, howes⟩ := h.tidy.owes_of_step h.prompt hstep
  -- what was due is due still, as long as nothing is told
  have still : ∀ {a}, (a ∈ m.dueAt place → a ∈ n.dueAt place) →
      ∀ other, a ∈ m.dueAt other → ∃ other, a ∈ n.dueAt other := by
    intro a hplace other ha
    by_cases hother : other = place
    · exact ⟨place, hplace (hother ▸ ha)⟩
    · exact ⟨other, (hothers other hother).symm ▸ ha⟩
  have silent : Quiet m.cache (m.note? event) n.cache → ∀ {a : Key} (told : Note),
      m.note? event = some told → told.Stores a → ∃ place, a ∈ n.dueAt place :=
    fun quiet a told hnote hstores => absurd hstores (quiet.silent told a hnote)
  have same : n.cache.evictor = m.cache.evictor → (∀ a b, Below log m a b →
      Below (log ++ m.lines event) n a b) → later.ranking.policy = .recency ∧
        later.worst.Pairwise (Below (log ++ m.lines event) n) := by
    intro hevictor hmono
    rw [hevictor] at hlater
    exact ⟨h.recency hlater, (h.below hlater).imp (hmono _ _)⟩
  cases howes with
  | kept evictor_eq due_eq quiet =>
    exact same evictor_eq fun a b hbelow =>
      below_mono hbelow (silent quiet) (still fun ha => due_eq ▸ ha)
  | found key evictor_eq before owed present quiet =>
    exact same evictor_eq fun a b hbelow =>
      below_mono hbelow (silent quiet) (still fun ha => absurd (before ▸ ha) List.not_mem_nil)
  | stored key evictor_eq before owed noted others =>
    refine same evictor_eq fun a b hbelow => below_mono hbelow ?_
      (still fun ha => absurd (before ▸ ha) List.not_mem_nil)
    rintro told hnote ⟨ticket, entry, rfl⟩
    obtain ⟨ticket', entry', hnoted⟩ := noted
    cases hnote.symm.trans hnoted
    exact ⟨place, owed ▸ List.mem_cons_self⟩
  | removed key evictor_eq due_eq quiet =>
    obtain ⟨evictor, hevictor, rfl⟩ := Option.map_eq_some_iff.mp (evictor_eq.symm.trans hlater)
    refine ⟨(Ranking.policy_remove _ _).trans (h.recency hevictor), ?_⟩
    rw [show (evictor.remove key).worst = _ from
      (h.tidy.ranked evictor hevictor).worst_remove key]
    exact ((h.below hevictor).filter _).imp fun hbelow =>
      below_mono hbelow (silent quiet) (still fun ha => due_eq ▸ ha)
  | told key evictor_eq before quiet =>
    obtain ⟨evictor, hevictor, rfl⟩ := Option.map_eq_some_iff.mp (evictor_eq.symm.trans hlater)
    have hrecency := h.recency hevictor
    refine ⟨(Ranking.policy_used _ _).trans hrecency, ?_⟩
    rw [show (evictor.used key).worst = _ from
      (h.tidy.ranked evictor hevictor).worst_used hrecency key, List.pairwise_append]
    refine ⟨((h.below hevictor).filter _).imp_of_mem fun {a b} ha _ hbelow => ?_,
      List.pairwise_singleton _ _, fun a _ b hb hnever => ?_⟩
    · have hne : a ≠ key := of_decide_eq_true (List.mem_filter.mp ha).2
      refine below_mono hbelow (silent quiet) (still fun hdue => ?_)
      rw [before] at hdue
      exact (List.mem_cons.mp hdue).resolve_left hne
    · have hused : key ∈ m.dueAt place := before ▸ List.mem_cons_self
      rw [List.mem_singleton.mp hb, unstored_lines] at hnever
      exact absurd hnever.1 (h.due hused)

theorem step (h : Senior log m) (hstep : m.step event = some n) :
    Senior (log ++ m.lines event) n where
  owned := h.owned.step hstep
  tidy := (h.tidy.step h.owned hstep).mono fun _ _ => trivial
  prompt := h.tidy.prompt_step h.prompt hstep
  stored := h.stored_step hstep
  due := h.due_step hstep
  recency := fun hlater => (h.ranking_step hstep hlater).1
  below := fun hlater => (h.ranking_step hstep hlater).2

theorem ofConfig {config : Config} (clock : Instant)
    (hevictor : ∀ evictor, config.evictor = some evictor →
      evictor.ranking.Sound ∧ evictor.ranking.policy = .recency) :
    Senior [] (ofConfig layout config clock) where
  owned := owned_ofConfig config clock
  tidy := .ofConfig (fun evictor hsome => (hevictor evictor hsome).1) fun _ _ _ _ => trivial
  prompt := by
    intro place frame hframe
    rw [frameAt_ofConfig] at hframe
    cases hframe
  stored := by
    intro key hkey
    have habsent : (Store.empty : Store layout).get? key = none := Store.get?_empty key
    simp [Machine.ofConfig, Cache.ofConfig, Cache.contains, habsent] at hkey
  due := by
    intro place key hkey
    rw [dueAt_of_none (frameAt_ofConfig config clock place)] at hkey
    cases hkey
  recency := fun {evictor} hsome => (hevictor evictor hsome).2
  below := by
    intro evictor _
    exact List.pairwise_of_forall fun a b _ => Or.inl (List.forall_mem_nil _)

end Senior

theorem due_of_idle {frame : Frame} (h : ∀ hold ∈ frame.holds, hold.pending = []) :
    frame.due = [] := by
  cases frame with
  | access a =>
    obtain ⟨key, request, point⟩ := a
    cases point with
    | perform ticket todo answer =>
      have hnone : todo = [] := h _ (List.mem_singleton_self _)
      rw [hnone]
      rfl
    | _ => rfl
  | _ => rfl

end Machine

/-! ## Where nothing is to come -/

theorem eq_filter_append_filter {α : Type} {p : α → Bool} {items : List α}
    (h : items.Pairwise fun a b => p b = false → p a = false) :
    items = items.filter (fun a => !p a) ++ items.filter p := by
  induction items with
  | nil => rfl
  | cons item items ih =>
    obtain ⟨hfirst, hrest⟩ := List.pairwise_cons.mp h
    cases hitem : p item with
    | false =>
      rw [List.filter_cons_of_pos (by simp [hitem]), List.filter_cons_of_neg (by simp [hitem]),
        List.cons_append, ← ih hrest]
    | true =>
      have hall : ∀ other ∈ items, p other = true := by
        intro other hother
        by_contra hnot
        have hfalse := hfirst other hother (Bool.eq_false_iff.mpr hnot)
        rw [hitem] at hfalse
        cases hfalse
      have hnone : items.filter (fun a => !p a) = [] :=
        List.filter_eq_nil_iff.mpr fun other hother => by simp [hall other hother]
      rw [List.filter_cons_of_neg (by simp [hitem]), List.filter_cons_of_pos hitem, hnone,
        List.filter_eq_self.mpr hall, List.nil_append]

namespace Cache

/-- The ranked keys without entries rank below all keys with entries. -/
def StraysBelow (c : Cache layout) (evictor : Evictor) : Prop :=
  evictor.worst.Pairwise fun a b => c.contains b = false → c.contains a = false

instance (c : Cache layout) (evictor : Evictor) : Decidable (c.StraysBelow evictor) :=
  inferInstanceAs (Decidable (List.Pairwise _ _))

/-- The keys most worth keeping of those that have not expired, as many as fit. -/
def lasting (c : Cache layout) (evictor : Evictor) (capacity : Nat) : List Key :=
  (c.unexpired evictor).drop ((c.unexpired evictor).length - capacity)

/--
A cache in which the live entries are left whose keys last.  The other live ones have been counted
as evicted; keys without entries take up places as well.
-/
structure Spared (c : Cache layout) (evictor : Evictor) (capacity : Nat) (d : Cache layout) :
    Prop where
  store : ∀ key, d.store.get? key =
    if c.isLiveAt c.clock key = true ∧ key ∈ c.lasting evictor capacity then c.store.get? key
    else none
  evictions : d.tally.evictions = c.tally.evictions +
    (((c.unexpired evictor).take ((c.unexpired evictor).length - capacity)).filter
      c.contains).length

/-- A cache in which as many live keys are left as fit, the ones most worth keeping. -/
structure Fitted (c : Cache layout) (evictor : Evictor) (capacity : Nat) (d : Cache layout) :
    Prop where
  store : ∀ key, d.store.get? key =
    if key ∈ c.kept evictor capacity then c.store.get? key else none
  size : d.store.size = min capacity (c.live evictor).length
  evictions : d.tally.evictions = c.tally.evictions + ((c.live evictor).length - capacity)

namespace Covered

variable {evictor : Evictor} {capacity : Nat}

theorem filter_unexpired (h : c.Covered evictor) :
    (c.unexpired evictor).filter c.contains = c.live evictor := by
  rw [unexpired, List.filter_filter, live]
  refine List.filter_congr fun key _ => ?_
  cases hkey : c.contains key with
  | true =>
    rw [Bool.true_and, Bool.eq_iff_iff, decide_eq_true_eq, h.isLiveAt_iff hkey]
  | false =>
    rw [Bool.false_and]
    refine (Bool.eq_false_iff.mpr fun hlive => ?_).symm
    rw [contains_of_isLiveAt hlive] at hkey
    cases hkey

/-- Where keys without entries rank below the others, they are the first to go. -/
theorem filter_candidates (h : c.Covered evictor) (hbelow : c.StraysBelow evictor) :
    (c.candidates evictor (evictor.worst.length - capacity)).filter c.contains =
      (c.live evictor).take ((c.live evictor).length - capacity) := by
  have hlength := h.length_worst
  have hordered : (c.unexpired evictor).Pairwise fun a b =>
    c.contains b = false → c.contains a = false := List.Pairwise.filter _ hbelow
  have hsplit := eq_filter_append_filter hordered
  rw [h.filter_unexpired] at hsplit
  generalize hstrays : (c.unexpired evictor).filter (fun key => !c.contains key) = strays at hsplit
  have hnone : ∀ count, (strays.take count).filter c.contains = [] := by
    intro count
    refine List.filter_eq_nil_iff.mpr fun key hkey => ?_
    have hmem := List.mem_of_mem_take hkey
    rw [← hstrays, List.mem_filter] at hmem
    simpa using hmem.2
  have hall : ∀ count, ((c.live evictor).take count).filter c.contains =
      (c.live evictor).take count := by
    intro count
    refine List.filter_eq_self.mpr fun key hkey => ?_
    exact contains_of_isLiveAt (h.mem_live.mp (List.mem_of_mem_take hkey))
  rw [candidates, hsplit, List.take_append, List.filter_append, hnone, hall, List.nil_append]
  congr 1
  rw [hsplit, List.length_append] at hlength
  omega

theorem fitted_of_cleared (h : c.Covered evictor) {candidates : List Key}
    (hcleared : c.Cleared evictor candidates d) (hplaced : d.store.Placed)
    (hhits : candidates.filter c.contains =
      (c.live evictor).take ((c.live evictor).length - capacity)) :
    c.Fitted evictor capacity d := by
  have hkept : ∀ key, c.isLiveAt c.clock key = true ∧ key ∉ candidates ↔
      key ∈ c.kept evictor capacity := by
    intro key
    rw [kept, ← filter_notMem_take h.nodup_live, ← hhits, List.mem_filter, h.mem_live,
      decide_eq_true_eq, List.mem_filter, and_congr_right_iff]
    intro hlive
    rw [and_iff_left (contains_of_isLiveAt hlive)]
  have hstore : ∀ key, d.store.get? key =
      if key ∈ c.kept evictor capacity then c.store.get? key else none := by
    intro key
    rw [hcleared.store]
    simp only [hkept]
  refine ⟨hstore, ?_, ?_⟩
  · have hnodup : (c.kept evictor capacity).Nodup :=
      (List.drop_sublist _ _).nodup h.nodup_live
    have hperm : d.store.keys.Perm (c.kept evictor capacity) := by
      rw [List.perm_ext_iff_of_nodup hplaced.nodup_keys hnodup]
      intro key
      rw [hplaced.mem_keys, hstore]
      split
      · next hkey => exact iff_of_true (contains_of_isLiveAt ((hkept key).mpr hkey).1) hkey
      · next hkey => exact iff_of_false (by simp) hkey
    rw [← Store.length_keys, hperm.length_eq, kept, List.length_drop]
    omega
  · rw [hcleared.tally, hhits, List.length_take, Nat.min_eq_left (Nat.sub_le _ _)]

theorem filter_candidates_of_dead (h : c.Covered evictor) (hdead : c.hasLive = false)
    (count : Nat) : (c.candidates evictor count).filter c.contains = [] := by
  refine List.filter_eq_nil_iff.mpr fun key hkey hcontains => ?_
  have hmem := List.mem_of_mem_take hkey
  rw [unexpired, List.mem_filter, decide_eq_true_eq] at hmem
  exact hmem.2 ((h.mem_expired_of_dead hdead).mpr hcontains)

theorem notMem_candidates_iff (h : c.Covered evictor) {key : Key}
    (hlive : c.isLiveAt c.clock key = true) :
    key ∉ c.candidates evictor (evictor.worst.length - capacity) ↔
      key ∈ c.lasting evictor capacity := by
  have hstored := contains_of_isLiveAt hlive
  have hunexpired : key ∈ c.unexpired evictor := by
    rw [unexpired, List.mem_filter, decide_eq_true_eq]
    exact ⟨h.tracks key hstored, (h.isLiveAt_iff hstored).mp hlive⟩
  rw [lasting, ← filter_notMem_take h.nodup_unexpired, h.candidates_eq, List.mem_filter,
    decide_eq_true_eq, and_iff_right hunexpired]

theorem surplus_spares (h : c.Covered evictor)
    (hexcess : evictor.excess = .ok (evictor.worst.length - capacity)) :
    ∃ candidates, c.surplus = .ok candidates ∧
      ∀ d, c.Cleared evictor candidates d → d.store.Placed →
        c.Spared evictor capacity d ∧
          (c.StraysBelow evictor → c.Fitted evictor capacity d) := by
  cases hlive : c.hasLive with
  | true =>
    refine ⟨_, h.surplus_of_live hlive hexcess, fun d hcleared hplaced => ⟨⟨fun key => ?_, ?_⟩,
      fun hbelow => h.fitted_of_cleared hcleared hplaced (h.filter_candidates hbelow)⟩⟩
    · rw [hcleared.store]
      refine if_congr (and_congr_right fun hkey => ?_) rfl rfl
      exact h.notMem_candidates_iff hkey
    · rw [hcleared.tally, h.candidates_eq]
  | false =>
    have hgone : ∀ key, c.isLiveAt c.clock key = false := h.isLiveAt_of_dead hlive
    have hnone := h.live_of_dead hlive
    refine ⟨[], h.surplus_of_dead hlive, fun d hcleared hplaced => ⟨⟨fun key => ?_, ?_⟩,
      fun _ => h.fitted_of_cleared hcleared hplaced (by simp [hnone])⟩⟩
    · rw [hcleared.store, if_neg (by simp [hgone key]), if_neg (by simp [hgone key])]
    · rw [hcleared.tally, ← h.candidates_eq, h.filter_candidates_of_dead hlive]
      rfl

end Covered

end Cache

namespace Machine

variable {m : Machine layout} {place : Place} {policy : Policy} {capacity : Nat}
  {history : List Key} {first : Evictor} {config : Config} {clock : Instant} {events : List Event}

/-- By recency, the keys without entries rank below the others where nothing is to come. -/
theorem straysBelow_of_run (hmade : Evictor.made .recency capacity history .ranked = .ok first)
    (hconfig : config.evictor = some first)
    (hrun : (ofConfig layout config clock).runAll events = some m)
    (hidle : ∀ other frame, m.frameAt other = some frame →
      ∀ hold ∈ frame.holds, hold.pending = []) {now : Evictor}
    (hnow : m.cache.evictor = some now) : m.cache.StraysBelow now := by
  have only : ∀ other, config.evictor = some other → other = first :=
    fun other hother => Option.some.inj (hother.symm.trans hconfig)
  obtain ⟨hsound, hworst⟩ := Evictor.made_spec hmade
  have hsenior : Senior ((ofConfig layout config clock).record events) m := by
    refine record_induction (fun h hstep => h.step hstep) (Senior.ofConfig clock ?_) hrun
    intro other hother
    rw [only other hother]
    exact ⟨hsound, Evictor.policy_made hmade⟩
  have htidy : m.Tidy fun key =>
      key ∈ history ∧ Unstored ((ofConfig layout config clock).record events) key :=
    (owned_tidy_of_run hrun (fun other hother => only other hother ▸ hsound)
      (fun other key hother hmem => (hworst key).mp (only other hother ▸ hmem))).2.2
  have hnone : ∀ place, m.dueAt place = [] := by
    intro place
    cases hframe : m.frameAt place with
    | none => exact dueAt_of_none hframe
    | some frame => exact (dueAt_of_frameAt hframe).trans (due_of_idle (hidle place frame hframe))
  -- a ranked key without an entry was never stored
  refine (hsenior.below hnow).imp_of_mem fun {a b} _ hb hbelow hstray => ?_
  have hsettles := htidy.settles_of_idle (by rw [hnow]; rfl) hidle b
  have hnever : Unstored ((ofConfig layout config clock).record events) b :=
    ((hsettles.2 ⟨now, hnow, hb⟩).resolve_left (by simp [hstray])).2
  refine Bool.eq_false_iff.mpr fun hstored => ?_
  rcases hbelow hnever with hlower | ⟨place, hplace⟩
  · exact hsenior.stored hstored hlower
  · rw [hnone place] at hplace
    cases hplace

/-! ## Passes of a cache with a used evictor -/

/--
A pass that runs by itself, with a truthful evictor that was used before it was handed over.  A live
entry is evicted only if its key is not among the best ranked ones that have not expired, as many
as fit; so none is as long as all of those fit.  As many live entries as fit are left when the keys
without entries rank below them, which by recency they always do.
-/
theorem strays_below_cost_no_place
    (hmade : Evictor.made policy capacity history .ranked = .ok first)
    (hconfig : config.evictor = some first)
    (hrun : (ofConfig layout config clock).runAll events = some m)
    (hframe : m.frameAt place = some (.pass .enter)) (hcalm : m.Undisturbed place)
    (hidle : ∀ other frame, m.frameAt other = some frame →
      ∀ hold ∈ frame.holds, hold.pending = []) :
    ∃ now n, m.cache.evictor = some now ∧ m.Toils place n ∧ n.frameAt place = none ∧
      (m.cache.live now).Perm (m.cache.store.keys.filter (m.cache.isLiveAt m.cache.clock)) ∧
      m.cache.Spared now capacity n.cache ∧
      ((m.cache.unexpired now).length ≤ capacity →
        n.cache.tally.evictions = m.cache.tally.evictions) ∧
      (m.cache.StraysBelow now → m.cache.Fitted now capacity n.cache) ∧
      (policy = .recency → m.cache.StraysBelow now) := by
  have hcoherent := coherent_of_origin (.made hmade) hconfig hrun
  obtain ⟨now, hnow, hsame⟩ := evictor_of_run hconfig hrun
  have hcovered := hcoherent.covered hnow hidle
  have hexcess := Evictor.excess_of_answer (hsame.trans (Evictor.terms_made hmade)) hcovered.sound
    (show ExcessRule.ranked.answer? capacity now.worst = _ from rfl)
  obtain ⟨candidates, hsurplus, hspares⟩ := hcovered.surplus_spares hexcess
  obtain ⟨n, hclears⟩ := (hcoherent.alone hframe).clears_candidates hcalm hcovered hsurplus
  obtain ⟨hspared, hfitted⟩ := hspares n.cache hclears.cleared hclears.placed
  refine ⟨now, n, hnow, hclears.toils, hclears.ended, hcovered.live_perm, hspared, fun hfits => ?_,
    hfitted, fun hrecency => ?_⟩
  · rw [hspared.evictions, Nat.sub_eq_zero_of_le hfits, List.take_zero]
    rfl
  · subst hrecency
    exact straysBelow_of_run hmade hconfig hrun hidle hnow

/--
By recency and with room for one key.  "g" was ranked when the evictor was handed over, and of two
live entries the one that was used last is left.
-/
theorem strays_below_cost_no_place_recency :
    ∃ (first now : Evictor) (events : List Event) (m n : Machine .flat),
      Evictor.made .recency 1 ["g"] .ranked = .ok first ∧
      runAll (ofConfig .flat ⟨some first, defaultInterval⟩ ⟨0⟩) events = some m ∧
      m.frameAt (.client 1 0) = some (.pass .enter) ∧ m.cache.evictor = some now ∧
      now.worst = ["g", "a", "b"] ∧ m.cache.live now = ["a", "b"] ∧ m.Toils (.client 1 0) n ∧
      n.frameAt (.client 1 0) = none ∧ m.cache.StraysBelow now ∧ n.cache.store.size = 1 ∧
      n.cache.contains "b" = true ∧ n.cache.tally.evictions = 1 := by
  have hmade : Evictor.made .recency 1 ["g"] .ranked =
      .ok ⟨.recency (Recency.used ⟨1, .empty, .empty⟩ "g"), some .ranked⟩ := rfl
  obtain ⟨m, hrun, hplaces, hframe, ⟨now, hnow, hworst, hlive, hkept⟩, hstays, hcounts⟩ :
      ∃ m : Machine .flat, runAll
          (ofConfig .flat
            ⟨some ⟨.recency (Recency.used ⟨1, .empty, .empty⟩ "g"), some .ranked⟩,
              defaultInterval⟩ ⟨0⟩)
          (creation 0 "a" leastTtl .unit ++ [.call 0 (.access "a" (.extend ⟨100⟩))] ++
            List.replicate 5 (.run (.client 0)) ++ creation 0 "b" leastTtl .unit ++
              [.call 0 (.access "b" (.extend ⟨100⟩))] ++ List.replicate 5 (.run (.client 0)) ++
                [.call 1 .purge]) = some m ∧
        (∀ other ∈ m.places, other = .client 1 0) ∧
        m.frameAt (.client 1 0) = some (.pass .enter) ∧
        (∃ now, m.cache.evictor = some now ∧ now.worst = ["g", "a", "b"] ∧
          m.cache.live now = ["a", "b"] ∧ m.cache.kept now 1 = ["b"]) ∧
        m.cache.contains "b" = true ∧ m.cache.tally.evictions = 0 :=
    ⟨_, rfl, by decide, rfl, ⟨_, rfl, by decide, by decide, by decide⟩, by decide, rfl⟩
  have hlonely := lonely_of_places hplaces
  obtain ⟨same, n, hsame, htoils, hended, -, -, -, hfitted, hbelow⟩ :=
    strays_below_cost_no_place hmade rfl hrun hframe hlonely.undisturbed (hlonely.idle hframe)
  cases hnow.symm.trans hsame
  obtain ⟨hstore, hsize, hevictions⟩ := hfitted (hbelow rfl)
  rw [hlive] at hsize hevictions
  refine ⟨_, now, _, m, n, hmade, hrun, hframe, hnow, hworst, hlive, htoils, hended, hbelow rfl,
    hsize, ?_, ?_⟩
  · rw [Cache.contains, hstore, hkept, if_pos List.mem_cons_self]
    exact hstays
  · rw [hevictions, hcounts]
    rfl

/--
By frequency, "g" was used twice before the evictor was handed over, and "a" is the only entry.
There is room for one key, and the pass evicts "a": the place is taken by "g", which has no entry.
-/
theorem stray_above_costs_place :
    ∃ (first now : Evictor) (events : List Event) (m n : Machine .flat) (steps : Nat),
      Evictor.made .frequency 1 ["g", "g"] .ranked = .ok first ∧
      runAll (ofConfig .flat ⟨some first, defaultInterval⟩ ⟨0⟩) events = some m ∧
      (∀ other ∈ m.places, other = .client 1 0) ∧
      m.frameAt (.client 1 0) = some (.pass .enter) ∧ m.cache.evictor = some now ∧
      now.worst = ["a", "g"] ∧ m.cache.live now = ["a"] ∧ m.cache.store.size = 1 ∧
      m.cache.tally.evictions = 0 ∧
      m.runAll (List.replicate steps (.run (.client 1))) = some n ∧
      n.isActive (.client 1 0) = false ∧ n.cache.store.size = 0 ∧ n.cache.tally.evictions = 1 := by
  -- a walk through the buckets does not unfold, so the end of the pass is found by evaluation
  obtain ⟨m, hrun, hplaces, hframe, hnow, hsize, hcounts, hends⟩ :
      ∃ m : Machine .flat, runAll
          (ofConfig .flat
            ⟨some ⟨.frequency (["g", "g"].foldl Frequency.used ⟨1, .empty, .empty⟩), some .ranked⟩,
              defaultInterval⟩ ⟨0⟩)
          (creation 0 "a" leastTtl .unit ++ [.call 0 (.access "a" (.extend ⟨100⟩))] ++
            List.replicate 5 (.run (.client 0)) ++ [.call 1 .purge]) = some m ∧
        (∀ other ∈ m.places, other = .client 1 0) ∧
        m.frameAt (.client 1 0) = some (.pass .enter) ∧
        (∃ now, m.cache.evictor = some now ∧ now.worst = ["a", "g"] ∧
          m.cache.live now = ["a"]) ∧
        m.cache.store.size = 1 ∧ m.cache.tally.evictions = 0 ∧
        (m.runAll (List.replicate 25 (.run (.client 1)))).any (fun n => decide
          (n.isActive (.client 1 0) = false ∧ n.cache.store.size = 0 ∧
            n.cache.tally.evictions = 1)) = true :=
    ⟨_, rfl, by decide, rfl, ⟨_, rfl, by decide +kernel, by decide +kernel⟩, rfl, rfl,
      by decide +kernel⟩
  obtain ⟨now, hsame, hworst, hlive⟩ := hnow
  obtain ⟨n, hsteps, hafter⟩ := (Option.any_eq_true _ _).mp hends
  exact ⟨_, now, _, m, n, 25, rfl, hrun, hplaces, hframe, hsame, hworst, hlive, hsize, hcounts,
    hsteps, of_decide_eq_true hafter⟩

end Machine

end TtlCache
