import TtlCache.Proofs.Machine.Stories

/-!
# Whole records

Every line of the record of a run is justified by the lines before it: it goes on with the story of
its guard, the key was granted to that guard last, a lookup sees what the ledger has, and nothing
is stored over a live entry.  `Chronicle` is what has to be known of the machine to justify the next
line; it holds of every run.
-/

namespace TtlCache

variable {layout : Layout}

/-- What justifies a line, given those before it. -/
structure Line.Justified (before : List Line) (line : Line) : Prop where
  follows : line.Follows before
  /-- Between its grant and its answer a guard has its key to itself. -/
  inOrder : line.note.stage = .holding →
    lastGrant before line.note.key = some line.note.ticket
  past : ∀ earlier ∈ before, earlier.clock.nanos ≤ line.clock.nanos
  sees : ∀ {key ticket request seen}, line.note = .looked key ticket request seen →
    liveAt line.clock seen = liveAt line.clock (ledger before key)
  vacant : ∀ {key ticket entry}, line.note = .stored key ticket entry →
    liveAt line.clock (ledger before key) = none

/-- What is known of a machine and of the record that led to it. -/
structure Chronicle (log : List Line) (m : Machine layout) : Prop where
  owned : m.Owned
  tidy : m.Tidy fun _ => True
  justified : ∀ {before line after}, log = before ++ line :: after → line.Justified before
  below : ∀ line ∈ log, line.note.ticket < m.cache.locks.nextTicket
  past : ∀ line ∈ log, line.clock.nanos ≤ m.cache.clock.nanos
  expects : ∀ {place frame}, m.frameAt place = some frame → frame.Expects log
  /-- Who holds a key was the last one to whom it was granted. -/
  latest : ∀ {place frame claim}, m.frameAt place = some frame → claim ∈ frame.claims →
    claim.stage = .holding → lastGrant log claim.key = some claim.ticket
  balanced : Balanced log m.cache

theorem split_write {c : Cache layout} {note : Option Note} {log before after : List Line}
    {line : Line} (h : log ++ c.write note = before ++ line :: after) :
    (∃ rest, log = before ++ line :: rest) ∨
      before = log ∧ note = some line.note ∧ line.clock = c.clock := by
  cases note with
  | none =>
    rw [Cache.write_none, List.append_nil] at h
    exact Or.inl ⟨after, h⟩
  | some told =>
    rw [Cache.write_some] at h
    rcases List.eq_nil_or_concat after with rfl | ⟨rest, last, rfl⟩
    · obtain ⟨rfl, hline⟩ := List.append_inj' h rfl
      cases hline
      exact Or.inr ⟨rfl, rfl, rfl⟩
    · rw [List.concat_eq_append, ← List.cons_append, ← List.append_assoc] at h
      exact Or.inl ⟨rest, (List.append_inj' h rfl).1⟩

theorem mem_write {c : Cache layout} {note : Option Note} {log : List Line} {line : Line}
    (h : line ∈ log ++ c.write note) :
    line ∈ log ∨ note = some line.note ∧ line.clock = c.clock := by
  obtain ⟨before, after, hsplit⟩ := List.append_of_mem h
  rcases split_write hsplit with ⟨rest, rfl⟩ | ⟨-, hnote⟩
  · exact Or.inl (List.mem_append_right _ List.mem_cons_self)
  · exact Or.inr hnote

theorem lastGrant_write {c : Cache layout} {note : Option Note} {log : List Line} {key : Key}
    (h : ∀ told, note = some told → told.grants key = false) :
    lastGrant (log ++ c.write note) key = lastGrant log key := by
  cases note with
  | none => rw [Cache.write_none, List.append_nil]
  | some told => simp [Cache.write_some, lastGrant_append, h told rfl]

theorem Note.eq_granted_of_grants {note : Note} {key : Key} (h : note.grants key = true) :
    note = .granted key note.ticket := by
  cases note <;> simp_all [grants, ticket]

theorem Handling.nextTicket_le {t u : LockTable Key} {claims after : List Claim}
    (h : Handling t claims u after) : t.nextTicket ≤ u.nextTicket := by
  cases h with
  | keep perm => exact Nat.le_refl _
  | join key =>
    rw [LockTable.nextTicket_join]
    omega
  | acquire was acquired =>
    obtain ⟨guard, -, -, -, rfl⟩ := LockTable.acquire?_eq_some_iff.mp acquired
    exact Nat.le_refl _
  | unregister was =>
    unfold LockTable.unregister
    repeat' split
    all_goals exact Nat.le_refl _
  | release was => exact Nat.le_refl _

theorem Frame.acquire_of_waiting {frame : Frame} {who : Worker} {c d : Cache layout}
    {progress : Progress Frame} {ticket : Nat} {key : Key}
    (h : frame.step who c = some (d, progress)) (hclaim : ⟨ticket, key, .waiting⟩ ∈ frame.claims) :
    ∃ locks, c.locks.acquire? ticket = some locks := by
  cases stride_of_step h with
  | access step =>
    cases Access.stride_of_step step with
    | acquire acquired =>
      cases List.mem_singleton.mp hclaim
      exact ⟨_, acquired⟩
    | _ => simp [claims, Access.claims] at hclaim
  | pass step =>
    have hmarks : ∀ {marks : List Mark}, ⟨ticket, key, .waiting⟩ ∉ marks.map Mark.claim :=
      fun hmem => absurd (Pass.mark_stage hmem) (by simp)
    cases Pass.stride_of_step step with
    | acquire acquired =>
      simp only [claims, Pass.claims, List.mem_cons, hmarks, or_false, Claim.mk.injEq] at hclaim
      exact ⟨_, hclaim.1 ▸ acquired⟩
    | _ => simp [claims, Pass.claims, hmarks, Mark.claim] at hclaim
  | clock => cases hclaim
  | take => cases hclaim
  | taken => cases hclaim

theorem Access.eq_returned {a : Access} {outcome : Outcome} {told : Note}
    (h : a.returned? outcome = some told) :
    ∃ key ticket value ttl, told = .returned key ticket value ttl := by
  unfold returned? at h
  split at h
  · cases h
    exact ⟨_, _, _, _, rfl⟩
  · cases h

theorem Machine.note_cases {m n : Machine layout} {event : Event} {told : Note}
    (hstep : m.step event = some n) (hnote : m.note? event = some told) :
    (∃ key ticket value ttl, told = .returned key ticket value ttl) ∨
      ∃ place frame after, m.frameAt place = some frame ∧
        frame.step place.worker m.cache = some after ∧ frame.note? m.cache = some told := by
  cases step_cases hstep with
  | aside frames alike acting =>
    rw [note?_of_aside acting] at hnote
    cases hnote
  | opened place frame fresh free now others alike acting =>
    rw [note?_of_aside acting] at hnote
    cases hnote
  | ended place access next outcome was after now others same acting event =>
    rw [note?_of_provide acting was event] at hnote
    exact Or.inl (Access.eq_returned hnote)
  | stepped place frame cache progress was step now others alike acting event =>
    rw [note?_of_run acting was event] at hnote
    exact Or.inr ⟨place, frame, _, was, step, hnote⟩

theorem Frame.seen_of_note {frame : Frame} {c : Cache layout} {key : Key} {ticket : Nat}
    {request : Request} {seen : Option Entry}
    (h : frame.note? c = some (.looked key ticket request seen)) : seen = c.store.get? key := by
  cases frame with
  | access a =>
    simp only [note?, Access.note?] at h
    split at h <;> cases h
    rfl
  | pass p =>
    simp only [note?, Pass.note?] at h
    split at h
    · cases h
    · split at h <;> cases h
    · cases h
  | clock => cases h
  | taking taking => cases h

theorem Frame.vacant_of_note {frame : Frame} {c : Cache layout} {key : Key} {ticket : Nat}
    {entry : Entry} {excused : Key -> Prop} (h : frame.note? c = some (.stored key ticket entry))
    (hkept : ∀ hold ∈ frame.holds, hold.Kept c excused) :
    liveAt c.clock (c.store.get? key) = none := by
  cases frame with
  | access a =>
    simp only [note?, Access.note?] at h
    split at h
    case h_4 own k value deadline todo answer hpoint =>
      cases h
      have hmine : Hold.Kept ⟨ticket, a.key, .put key value deadline :: todo, true⟩ c excused :=
        hkept _ (by rw [holds, Access.holds, hpoint]; exact List.mem_cons_self)
      rw [← show a.key = key from hmine.own _ List.mem_cons_self key rfl, liveAt_eq_none_iff]
      exact hmine.doomed rfl
    all_goals cases h
  | pass p =>
    simp only [note?, Pass.note?] at h
    split at h
    · cases h
    · split at h <;> cases h
    · cases h
  | clock => cases h
  | taking taking => cases h

namespace Chronicle

variable {m n : Machine layout} {event : Event} {log : List Line}

theorem fresh (h : Chronicle log m) : lastLine log m.cache.locks.nextTicket = none := by
  refine lastLine_eq_none fun line hline heq => ?_
  have hlt := h.below line hline
  omega

theorem claim_of_note (h : Chronicle log m) {told : Note} (hstep : m.step event = some n)
    (hnote : m.note? event = some told) :
    ∃ place frame, m.acting event = some place ∧ m.frameAt place = some frame ∧
      ⟨told.ticket, told.key, told.stage⟩ ∈ frame.claims := by
  cases Machine.step_cases hstep with
  | aside frames alike acting =>
    rw [Machine.note?_of_aside acting] at hnote
    cases hnote
  | opened place frame fresh free now others alike acting =>
    rw [Machine.note?_of_aside acting] at hnote
    cases hnote
  | ended place access next outcome was after now others same acting event =>
    rw [Machine.note?_of_provide acting was event] at hnote
    exact ⟨place, _, acting, was, Access.claim_of_returned hnote⟩
  | stepped place frame cache progress was step now others alike acting event =>
    rw [Machine.note?_of_run acting was event] at hnote
    exact ⟨place, frame, acting, was,
      Frame.claim_of_note hnote (h.expects was) (h.tidy.sheds was)⟩

/-- A key is granted only while nobody holds it. -/
theorem unkept_of_granted (h : Chronicle log m) {key : Key} {ticket : Nat}
    (hstep : m.step event = some n) (hnote : m.note? event = some (.granted key ticket)) :
    ∀ place frame, m.frameAt place = some frame → ¬frame.Keeps key := by
  rcases Machine.note_cases hstep hnote with
    ⟨_, _, _, _, hreturned⟩ | ⟨place, frame, after, was, step, hnote⟩
  · cases hreturned
  · have hclaim := Frame.claim_of_note hnote (h.expects was) (h.tidy.sheds was)
    obtain ⟨locks, hacquire⟩ := Frame.acquire_of_waiting step hclaim
    exact h.owned.unkept_of_acquire was hclaim hacquire

theorem tells (h : Chronicle log m) (hstep : m.step event = some n) :
    (∀ told, m.note? event = some told → Line.Follows log ⟨m.cache.clock, told⟩) ∧
      ∀ place frame, n.frameAt place = some frame → frame.Expects (log ++ m.lines event) := by
  -- an operation that takes no part has guards of its own
  have others : ∀ {place : Place} {frame : Frame}, m.acting event ≠ some place →
      m.frameAt place = some frame → frame.Expects (log ++ m.lines event) := by
    intro place frame hplace hframe
    refine (h.expects hframe).write fun told hnote claim hclaim heq => ?_
    obtain ⟨other, own, hacting, hown, hmine⟩ := h.claim_of_note hstep hnote
    refine hplace (hacting.trans (congrArg some ?_))
    exact h.owned.disjoint hown hframe hmine hclaim heq
  cases Machine.step_cases hstep with
  | aside frames alike acting =>
    rw [Machine.note?_of_aside acting]
    refine ⟨Line.follows_of_none, fun place frame hframe => ?_⟩
    rw [frames] at hframe
    exact others (by simp [acting]) hframe
  | opened place frame fresh free now same alike acting =>
    rw [Machine.note?_of_aside acting]
    refine ⟨Line.follows_of_none, fun other next hnext => ?_⟩
    by_cases hother : other = place
    · subst hother
      cases now.symm.trans hnext
      exact fresh.expects
    · rw [same other hother] at hnext
      exact others (by simp [acting]) hnext
  | ended place access next outcome was after now same cache acting event =>
    have hnote := Machine.note?_of_provide acting was event
    obtain ⟨hfollows, hnow⟩ := Access.tells_afterProvider after (h.expects was)
    rw [Machine.lines, hnote]
    refine ⟨hfollows, fun other frame hframe => ?_⟩
    by_cases hother : other = place
    · subst hother
      cases now.symm.trans hframe
      exact hnow
    · rw [same other hother] at hframe
      rw [← hnote]
      exact others (by simp [acting, Ne.symm hother]) hframe
  | stepped place frame cache progress was step now same alike acting event =>
    have hnote := Machine.note?_of_run acting was event
    obtain ⟨hfollows, hnow⟩ := Frame.tells_step step (h.expects was) h.fresh (h.tidy.sheds was)
      h.owned.sound (h.owned.bears was)
    rw [Machine.lines, hnote]
    refine ⟨hfollows, fun other next hnext => ?_⟩
    by_cases hother : other = place
    · subst hother
      exact hnow next (now.symm.trans hnext)
    · rw [same other hother] at hnext
      rw [← hnote]
      exact others (by simp [acting, Ne.symm hother]) hnext

theorem grows (h : Chronicle log m) (hstep : m.step event = some n) :
    m.cache.locks.nextTicket ≤ n.cache.locks.nextTicket ∧
      m.cache.clock.nanos ≤ n.cache.clock.nanos := by
  cases Machine.step_cases hstep with
  | aside frames alike acting => exact ⟨Nat.le_of_eq (by rw [alike.locks_eq]), alike.clock_le⟩
  | opened place frame fresh free now others alike acting =>
    exact ⟨Nat.le_of_eq (by rw [alike.locks_eq]), alike.clock_le⟩
  | ended place access next outcome was after now others same acting event =>
    rw [same]
    exact ⟨Nat.le_refl _, Nat.le_refl _⟩
  | stepped place frame cache progress was step now others alike acting event =>
    have hclock := alike.clock_le
    rw [(h.tidy.careful_of_step h.owned was step).clock_eq] at hclock
    rw [alike.locks_eq]
    exact ⟨(Frame.handling_step step).nextTicket_le, hclock⟩

theorem held_step (hstep : m.step event = some n) {place : Place} {frame : Frame} {claim : Claim}
    (hframe : n.frameAt place = some frame) (hclaim : claim ∈ frame.claims)
    (hstage : claim.stage = .holding) :
    (∃ was, m.frameAt place = some was ∧ claim ∈ was.claims) ∨
      m.note? event = some (.granted claim.key claim.ticket) := by
  cases Machine.step_cases hstep with
  | aside frames alike acting =>
    rw [frames] at hframe
    exact Or.inl ⟨frame, hframe, hclaim⟩
  | opened other fresh hfresh free now others alike acting =>
    by_cases hplace : place = other
    · subst hplace
      cases now.symm.trans hframe
      rw [hfresh.claims_eq] at hclaim
      cases hclaim
    · rw [others place hplace] at hframe
      exact Or.inl ⟨frame, hframe, hclaim⟩
  | ended other access next outcome was after now others same acting event =>
    by_cases hplace : place = other
    · subst hplace
      cases now.symm.trans hframe
      rw [Frame.claims, Access.claims_afterProvider after] at hclaim
      exact Or.inl ⟨_, was, hclaim⟩
    · rw [others place hplace] at hframe
      exact Or.inl ⟨frame, hframe, hclaim⟩
  | stepped other own cache progress was step now others alike acting event =>
    by_cases hplace : place = other
    · subst hplace
      have hafter : claim ∈ (progress.point?.map Frame.claims).getD [] := by
        rw [← now, hframe]
        exact hclaim
      rw [Machine.note?_of_run acting was event]
      exact (Frame.grants_step step hafter hstage).imp_left fun hwas => ⟨own, was, hwas⟩
    · rw [others place hplace] at hframe
      exact Or.inl ⟨frame, hframe, hclaim⟩

theorem latest_step (h : Chronicle log m) (hstep : m.step event = some n) {place : Place}
    {frame : Frame} {claim : Claim} (hframe : n.frameAt place = some frame)
    (hclaim : claim ∈ frame.claims) (hstage : claim.stage = .holding) :
    lastGrant (log ++ m.lines event) claim.key = some claim.ticket := by
  rcases held_step hstep hframe hclaim hstage with ⟨was, hwas, hmem⟩ | hgranted
  · rw [Machine.lines, lastGrant_write]
    · exact h.latest hwas hmem hstage
    · -- nobody else is granted a key that is held
      intro told hnote
      cases hgrants : told.grants claim.key with
      | false => rfl
      | true =>
        rw [Note.eq_granted_of_grants hgrants] at hnote
        refine absurd ⟨claim.ticket, ?_⟩ (h.unkept_of_granted hstep hnote place was hwas)
        rwa [← hstage]
  · rw [Machine.lines, hgranted, Cache.write_some, lastGrant_append, if_pos]
    · rfl
    · simp [Note.grants]

theorem balanced_step (h : Chronicle log m) (hstep : m.step event = some n) :
    Balanced (log ++ m.lines event) n.cache := by
  cases Machine.step_cases hstep with
  | aside frames alike acting =>
    rw [Machine.lines, Machine.note?_of_aside acting, Cache.write_none, List.append_nil]
    exact h.balanced.later alike.get?_eq alike.clock_le
  | opened place frame fresh free now others alike acting =>
    rw [Machine.lines, Machine.note?_of_aside acting, Cache.write_none, List.append_nil]
    exact h.balanced.later alike.get?_eq alike.clock_le
  | ended place access next outcome was after now others same acting event =>
    rw [Machine.lines, Machine.note?_of_provide acting was event, same]
    refine h.balanced.post (.nothing (fun _ => rfl) fun told key entry clock hnote => ?_) rfl
    obtain ⟨_, _, _, _, rfl⟩ := Access.eq_returned hnote
    rfl
  | stepped place frame cache progress was step now others alike acting event =>
    rw [Machine.lines, Machine.note?_of_run acting was event]
    have hposted := Frame.posted_step step (h.tidy.sheds was) fun hold => h.tidy.kept was
    have hclock := (h.tidy.careful_of_step h.owned was step).clock_eq
    exact (h.balanced.post hposted hclock).later alike.get?_eq alike.clock_le

theorem justified_note (h : Chronicle log m) {told : Note} (hstep : m.step event = some n)
    (hnote : m.note? event = some told) : Line.Justified log ⟨m.cache.clock, told⟩ := by
  obtain ⟨place, frame, hacting, hframe, hclaim⟩ := h.claim_of_note hstep hnote
  have hsame : ∀ key, liveAt m.cache.clock (m.cache.store.get? key) =
      liveAt m.cache.clock (ledger log key) := h.balanced.liveAt_eq
  refine ⟨(h.tells hstep).1 told hnote, ?_, h.past, ?_, ?_⟩
  · exact fun hstage => h.latest hframe hclaim hstage
  · intro key ticket request seen htold
    cases htold
    rcases Machine.note_cases hstep hnote with ⟨_, _, _, _, hreturned⟩ | ⟨_, _, _, -, -, hnote⟩
    · cases hreturned
    · rw [Frame.seen_of_note hnote]
      exact hsame key
  · intro key ticket entry htold
    cases htold
    rcases Machine.note_cases hstep hnote with ⟨_, _, _, _, hreturned⟩ | ⟨_, _, _, was, -, hnote⟩
    · cases hreturned
    · rw [← hsame key]
      exact Frame.vacant_of_note hnote fun hold => h.tidy.kept was

theorem step (h : Chronicle log m) (hstep : m.step event = some n) :
    Chronicle (log ++ m.lines event) n where
  owned := h.owned.step hstep
  tidy := (h.tidy.step h.owned hstep).mono fun _ _ => trivial
  justified := by
    intro before line after hsplit
    rcases split_write hsplit with ⟨rest, hlog⟩ | ⟨rfl, hnote, hclock⟩
    · exact h.justified hlog
    · have hjustified := h.justified_note hstep hnote
      rwa [← hclock] at hjustified
  below := by
    intro line hline
    have hgrows := (h.grows hstep).1
    rcases mem_write hline with hold | ⟨hnote, -⟩
    · have hlt := h.below line hold
      omega
    · obtain ⟨place, frame, -, hframe, hclaim⟩ := h.claim_of_note hstep hnote
      obtain ⟨guard, hguard, -⟩ := (h.owned.bears hframe).granted hclaim
      have hlt := h.owned.sound.ticket_lt hguard
      exact Nat.lt_of_lt_of_le hlt hgrows
  past := by
    intro line hline
    have hgrows := (h.grows hstep).2
    rcases mem_write hline with hold | ⟨-, hclock⟩
    · exact Nat.le_trans (h.past line hold) hgrows
    · rwa [hclock]
  expects := fun hframe => (h.tells hstep).2 _ _ hframe
  latest := h.latest_step hstep
  balanced := h.balanced_step hstep

end Chronicle

/-- The record of every run is justified line by line. -/
theorem Machine.chronicle_of_run {config : Config} {clock : Instant} {m : Machine layout}
    {events : List Event} (hrun : (ofConfig layout config clock).runAll events = some m)
    (hsound : ∀ evictor, config.evictor = some evictor → evictor.ranking.Sound) :
    Chronicle ((ofConfig layout config clock).record events) m := by
  refine record_induction (fun h => h.step) ?_ hrun
  have hframes : ∀ place, (ofConfig layout config clock).frameAt place = none :=
    frameAt_ofConfig config clock
  constructor
  case owned => exact owned_ofConfig config clock
  case tidy => exact .ofConfig hsound fun _ _ _ _ => trivial
  case justified => simp
  case below => exact List.forall_mem_nil _
  case past => exact List.forall_mem_nil _
  case expects => intro place frame hframe; rw [hframes] at hframe; cases hframe
  case latest => intro place frame claim hframe; rw [hframes] at hframe; cases hframe
  case balanced =>
    have hget : ∀ key, (ofConfig layout config clock).cache.store.get? key = none :=
      Store.get?_empty
    refine ⟨fun {key entry} hentry => ?_, fun _ => rfl⟩
    rw [hget] at hentry
    cases hentry

end TtlCache
