import TtlCache.Proofs.Machine.Ledger

/-!
# The story of a guard

The lines of one guard tell a story: each of them follows from the one before it.  A guard is
granted, then a lookup sees something, then either that is answered or a provider begins, and so on
up to the answer.  Where an operation has got to in its story is read off the point that it has
come to.
-/

namespace TtlCache

variable {layout : Layout}

def linesOf (log : List Line) (ticket : Nat) : List Line :=
  log.filter fun line => decide (line.note.ticket = ticket)

def lastLine (log : List Line) (ticket : Nat) : Option Line := (linesOf log ticket).getLast?

def Note.grants (key : Key) : Note -> Bool
  | .granted k _ => decide (k = key)
  | _ => false

def lastGrant (log : List Line) (key : Key) : Option Nat :=
  (log.reverse.find? fun line => line.note.grants key).map fun line => line.note.ticket

/-- Which line of a guard may come after which. -/
inductive Line.Leads (key : Key) (ticket : Nat) : Line -> Line -> Prop where
  | looked {granted now : Instant} {request : Request} {seen : Option Entry} :
      Leads key ticket ⟨granted, .granted key ticket⟩ ⟨now, .looked key ticket request seen⟩
  | answered {now clock : Instant} {request : Request} {seen : Option Entry} {answer : Answer}
      (verdict : request.verdict key now seen = some answer) :
      Leads key ticket ⟨now, .looked key ticket request seen⟩ ⟨clock, .answered key ticket answer⟩
  | provided {now clock : Instant} {request : Request} {seen : Option Entry}
      (verdict : request.verdict key now seen = none) :
      Leads key ticket ⟨now, .looked key ticket request seen⟩ ⟨clock, .provided key ticket request⟩
  | returned {began now : Instant} {value : Value} {ttl : Duration} :
      Leads key ticket ⟨began, .provided key ticket (.create value.kind ttl)⟩
        ⟨now, .returned key ticket value ttl⟩
  | failed {began clock : Instant} {request : Request} {text : String} :
      Leads key ticket ⟨began, .provided key ticket request⟩
        ⟨clock, .answered key ticket (.failed text)⟩
  | raised {began clock : Instant} {request : Request} {text : String} :
      Leads key ticket ⟨began, .provided key ticket request⟩
        ⟨clock, .answered key ticket (.panicked (.raised text))⟩
  /-- The deadline counts from the end of the provider. -/
  | stored {now clock : Instant} {value : Value} {ttl : Duration} :
      Leads key ticket ⟨now, .returned key ticket value ttl⟩
        ⟨clock, .stored key ticket ⟨value, now.deadlineAfter ttl⟩⟩
  | kept {now clock : Instant} {entry : Entry} :
      Leads key ticket ⟨now, .stored key ticket entry⟩
        ⟨clock, .answered key ticket (.value entry.value)⟩
  | evicted {granted clock : Instant} :
      Leads key ticket ⟨granted, .granted key ticket⟩ ⟨clock, .evicted key ticket⟩

/-- Whether a line goes on with the story of its guard, or begins it with the grant. -/
inductive Line.Follows (log : List Line) (line : Line) : Prop where
  | first (none : lastLine log line.note.ticket = none)
      (granted : line.note = .granted line.note.key line.note.ticket)
  | next (last : Line) (some : lastLine log line.note.ticket = some last)
      (leads : Line.Leads line.note.key line.note.ticket last line)

theorem Line.follows_of_none {log : List Line} {clock : Instant} (told : Note)
    (h : (none : Option Note) = some told) : Line.Follows log ⟨clock, told⟩ :=
  absurd h (Option.not_mem_none told)

theorem linesOf_append (log after : List Line) (ticket : Nat) :
    linesOf (log ++ after) ticket = linesOf log ticket ++ linesOf after ticket := by
  simp [linesOf]

theorem linesOf_cons (line : Line) (log : List Line) (ticket : Nat) :
    linesOf (line :: log) ticket =
      if line.note.ticket = ticket then line :: linesOf log ticket else linesOf log ticket := by
  simp [linesOf, List.filter_cons]

theorem lastLine_append (log : List Line) (line : Line) (ticket : Nat) :
    lastLine (log ++ [line]) ticket =
      if line.note.ticket = ticket then some line else lastLine log ticket := by
  rw [lastLine, linesOf_append, linesOf_cons]
  split
  · simp [linesOf]
  · simp [linesOf, lastLine]

theorem lastGrant_append (log : List Line) (line : Line) (key : Key) :
    lastGrant (log ++ [line]) key =
      if line.note.grants key = true then some line.note.ticket else lastGrant log key := by
  simp [lastGrant, List.find?_cons]
  split <;> simp_all

theorem mem_of_lastLine {log : List Line} {ticket : Nat} {line : Line}
    (h : lastLine log ticket = some line) : line ∈ log ∧ line.note.ticket = ticket := by
  have hmem := List.mem_of_getLast? h
  rwa [linesOf, List.mem_filter, decide_eq_true_eq] at hmem

theorem lastLine_eq_none {log : List Line} {ticket : Nat}
    (h : ∀ line ∈ log, line.note.ticket ≠ ticket) : lastLine log ticket = none := by
  rw [lastLine, List.getLast?_eq_none_iff, linesOf, List.filter_eq_nil_iff]
  intro line hline
  rw [decide_eq_true_eq]
  exact h line hline

theorem lastLine_write {c : Cache layout} {note : Option Note} {log : List Line} {ticket : Nat}
    (h : ∀ told, note = some told → told.ticket ≠ ticket) :
    lastLine (log ++ c.write note) ticket = lastLine log ticket := by
  cases note with
  | none => rw [Cache.write_none, List.append_nil]
  | some told => rw [Cache.write_some, lastLine_append, if_neg (h told rfl)]

theorem lastLine_told {c : Cache layout} {told : Note} {log : List Line} {ticket : Nat}
    (h : told.ticket = ticket) :
    lastLine (log ++ c.write (some told)) ticket = some ⟨c.clock, told⟩ := by
  rw [Cache.write_some, lastLine_append, if_pos h]

/-! ## Operations on a key -/

/-- What an operation has to do after a line: answer, or store a value first. -/
inductive Due (key : Key) (ticket : Nat) (line : Line) : List Effect -> Answer -> Prop where
  | answer {todo : List Effect} {answer : Answer}
      (quiet : ∀ effect ∈ todo, ∀ k value deadline, effect ≠ .put k value deadline)
      (leads : ∀ clock, Line.Leads key ticket line ⟨clock, .answered key ticket answer⟩) :
      Due key ticket line todo answer
  | store {value : Value} {deadline : Instant} {todo : List Effect}
      (quiet : ∀ effect ∈ todo, ∀ k value deadline, effect ≠ .put k value deadline)
      (leads : ∀ clock, Line.Leads key ticket line ⟨clock, .stored key ticket ⟨value, deadline⟩⟩) :
      Due key ticket line (.put key value deadline :: todo) (.value value)

namespace Access

/-- How far the story of an operation has got, given the point to which it has come. -/
def Expects (a : Access) (log : List Line) : Prop :=
  match a.point with
  | .register => True
  | .acquire ticket => lastLine log ticket = none
  | .look ticket => ∃ clock, lastLine log ticket = some ⟨clock, .granted a.key ticket⟩
  | .missed ticket _ =>
      ∃ now seen, lastLine log ticket = some ⟨now, .looked a.key ticket a.request seen⟩ ∧
        a.request.verdict a.key now seen = none
  | .provide ticket _ =>
      ∃ clock, lastLine log ticket = some ⟨clock, .provided a.key ticket a.request⟩
  | .perform ticket todo answer =>
      ∃ line, lastLine log ticket = some line ∧ Due a.key ticket line todo answer
  | .release ticket answer =>
      ∃ line, lastLine log ticket = some line ∧
        ∀ clock, Line.Leads a.key ticket line ⟨clock, .answered a.key ticket answer⟩

variable {a : Access} {c d : Cache layout} {log : List Line}

theorem Plan.quiet {key : Key} {now : Instant} {request : Request} {seen : Option Entry}
    {todo : List Effect} (h : Plan key now request seen todo) :
    ∀ effect ∈ todo, ∀ k value deadline, effect ≠ .put k value deadline := by
  cases h <;> simp [Access.hit, Access.expire]

theorem expects_look {ticket : Nat} {point : AccessPoint} {now : Instant} {seen : Option Entry}
    (h : Sight a.key ticket now a.request seen point)
    (hlast : lastLine log ticket = some ⟨now, .looked a.key ticket a.request seen⟩) :
    ({ a with point := point } : Access).Expects log := by
  cases h with
  | answered verdict plan => exact ⟨_, hlast, .answer plan.quiet fun _ => .answered verdict⟩
  | missed verdict create dead => exact ⟨now, seen, hlast, verdict⟩

/-- A step goes on with the story, and the next point is where the story has got to. -/
theorem tells_step {progress : Progress Access} (h : a.step c = some (d, progress))
    (hexpects : a.Expects log) (hfresh : lastLine log c.locks.nextTicket = none)
    (hcalm : ∀ ticket, ⟨ticket, a.key, .holding⟩ ∈ a.claims →
      (c.locks.unregister ticket).1 = none) :
    (∀ told, a.note? c = some told → Line.Follows log ⟨c.clock, told⟩) ∧
      ∀ next, progress.point? = some next → next.Expects (log ++ c.write (a.note? c)) := by
  cases stride_of_step h with
  | register =>
    rw [show note? _ c = none from rfl, Cache.write_none, List.append_nil]
    refine ⟨Line.follows_of_none, fun next hnext => ?_⟩
    cases hnext
    exact hfresh
  | acquire acquired =>
    refine ⟨fun told htold => ?_, fun next hnext => ?_⟩
    · cases htold
      exact .first hexpects rfl
    · cases hnext
      exact ⟨c.clock, lastLine_told rfl⟩
  | @look key request ticket =>
    obtain ⟨granted, hlast⟩ := hexpects
    refine ⟨fun told htold => ?_, fun next hnext => ?_⟩
    · cases htold
      exact .next _ hlast .looked
    · cases hnext
      exact expects_look (sight_look ⟨key, request, .look ticket⟩ c ticket) (lastLine_told rfl)
  | missed =>
    obtain ⟨now, seen, hlast, hverdict⟩ := hexpects
    refine ⟨fun told htold => ?_, fun next hnext => ?_⟩
    · cases htold
      exact .next _ hlast (.provided hverdict)
    · cases hnext
      exact ⟨c.clock, lastLine_told rfl⟩
  | @effect key request ticket effect todo answer after applied =>
    obtain ⟨line, hlast, hdue⟩ : ∃ line, lastLine log ticket = some line ∧
        Due key ticket line (effect :: todo) answer := hexpects
    cases hdue with
    | answer quiet leads =>
      have hnote : note? ⟨key, request, .perform ticket (effect :: todo) answer⟩ c = none := by
        have hput := quiet effect List.mem_cons_self
        cases effect with
        | put key value deadline => exact absurd rfl (hput key value deadline)
        | erase key => rfl
        | use key => rfl
        | untrack key => rfl
        | count counter => rfl
        | wake => rfl
      rw [hnote, Cache.write_none, List.append_nil]
      refine ⟨Line.follows_of_none, fun next hnext => ?_⟩
      cases hnext
      exact ⟨line, hlast, .answer (fun other hother => quiet other (.tail _ hother)) leads⟩
    | store quiet leads =>
      refine ⟨fun told htold => ?_, fun next hnext => ?_⟩
      · cases htold
        exact .next _ hlast (leads c.clock)
      · cases hnext
        exact ⟨_, lastLine_told rfl, .answer quiet fun _ => .kept⟩
  | unregister unregistered =>
    obtain ⟨line, hlast, hdue⟩ := hexpects
    rw [show note? _ c = none from rfl, Cache.write_none, List.append_nil]
    refine ⟨Line.follows_of_none, fun next hnext => ?_⟩
    cases hnext
    cases hdue with
    | answer quiet leads => exact ⟨line, hlast, leads⟩
  | @panic key request ticket answer panic locks unregistered =>
    have hpanic := hcalm ticket List.mem_cons_self
    rw [unregistered] at hpanic
    cases hpanic
  | release =>
    obtain ⟨line, hlast, hleads⟩ := hexpects
    refine ⟨fun told htold => ?_, fun next hnext => absurd hnext (Option.not_mem_none next)⟩
    cases htold
    exact .next _ hlast (hleads c.clock)

theorem tells_afterProvider {next : Access} {outcome : Outcome}
    (h : a.afterProvider c.clock outcome = some next) (hexpects : a.Expects log) :
    (∀ told, a.returned? outcome = some told → Line.Follows log ⟨c.clock, told⟩) ∧
      next.Expects (log ++ c.write (a.returned? outcome)) := by
  unfold afterProvider at h
  split at h
  · next ticket stale kind ttl hpoint hrequest =>
    rw [Expects, hpoint] at hexpects
    obtain ⟨began, hlast⟩ := hexpects
    split at h
    · next value =>
      split at h
      · next hkind =>
        cases h
        subst hkind
        rw [hrequest] at hlast
        have hnote : a.returned? (.value value) = some (.returned a.key ticket value ttl) := by
          simp only [returned?, hpoint, hrequest]
        rw [hnote]
        refine ⟨fun told htold => ?_, ⟨_, lastLine_told rfl, .store ?_ fun _ => .stored⟩⟩
        · cases htold
          exact .next _ hlast .returned
        · simp
      · cases h
    · next text =>
      cases h
      have hnote : a.returned? (.failure text) = none := by simp only [returned?, hpoint, hrequest]
      rw [hnote, Cache.write_none, List.append_nil]
      refine ⟨Line.follows_of_none, ⟨_, hlast, .answer ?_ fun _ => .failed⟩⟩
      cases stale <;> simp
    · next text =>
      cases h
      have hnote : a.returned? (.panic text) = none := by simp only [returned?, hpoint, hrequest]
      rw [hnote, Cache.write_none, List.append_nil]
      exact ⟨Line.follows_of_none, ⟨_, hlast, .answer (List.forall_mem_nil _) fun _ => .raised⟩⟩
  · cases h

end Access

/-! ## Passes -/

/-- A guard under which nothing has been written but the grant, or not even that. -/
def Claim.Bare (claim : Claim) (log : List Line) : Prop :=
  match claim.stage with
  | .waiting => lastLine log claim.ticket = none
  | .holding => ∃ clock, lastLine log claim.ticket = some ⟨clock, .granted claim.key claim.ticket⟩
  | .leaving => True

theorem Claim.Bare.write {claim : Claim} {log : List Line} {c : Cache layout} {note : Option Note}
    (h : claim.Bare log) (hother : ∀ told, note = some told → told.ticket ≠ claim.ticket) :
    claim.Bare (log ++ c.write note) := by
  rw [Bare, lastLine_write hother]
  exact h

theorem Handling.mem_cases {t u : LockTable Key} {claims after : List Claim} {claim : Claim}
    (h : Handling t claims u after) (hmem : claim ∈ after) :
    claim ∈ claims ∨ claim.stage = .leaving ∨
      (claim.stage = .waiting ∧ claim.ticket = t.nextTicket) ∨
      (claim.stage = .holding ∧ ⟨claim.ticket, claim.key, .waiting⟩ ∈ claims) := by
  cases h with
  | keep perm => exact Or.inl (perm.mem_iff.mp hmem)
  | join key =>
    rcases List.mem_cons.mp hmem with rfl | hrest
    · exact Or.inr (Or.inr (Or.inl ⟨rfl, rfl⟩))
    · exact Or.inl hrest
  | acquire was acquired =>
    subst was
    rcases List.mem_cons.mp hmem with rfl | hrest
    · exact Or.inr (Or.inr (Or.inr ⟨rfl, List.mem_cons_self⟩))
    · exact Or.inl (List.mem_cons_of_mem _ hrest)
  | unregister was =>
    subst was
    rcases List.mem_cons.mp hmem with rfl | hrest
    · exact Or.inr (Or.inl rfl)
    · exact Or.inl (List.mem_cons_of_mem _ hrest)
  | release was =>
    subst was
    exact Or.inl (List.mem_cons_of_mem _ hmem)

namespace Pass

/-- The guards of a pass but for that of an entry which is already removed. -/
def unspent : Pass -> List Claim
  | .remove todo mark marks =>
      if overwritesFirst todo then mark.claim :: marks.map Mark.claim else marks.map Mark.claim
  | p => p.claims

/-- A pass has written nothing but grants about what is still to be removed. -/
def Expects (p : Pass) (log : List Line) : Prop := ∀ claim ∈ p.unspent, claim.Bare log

variable {p : Pass} {c d : Cache layout} {log : List Line}

theorem unspent_subset (p : Pass) : p.unspent ⊆ p.claims := by
  cases p with
  | remove todo mark marks =>
    simp only [unspent]
    split
    · exact List.Subset.refl _
    · exact List.subset_cons_self _ _
  | _ => exact List.Subset.refl _

theorem mark_stage {claim : Claim} {marks : List Mark} (h : claim ∈ marks.map Mark.claim) :
    claim.stage = .holding := by
  obtain ⟨mark, -, rfl⟩ := List.mem_map.mp h
  rfl

theorem note?_of_waiting {ticket : Nat} {key : Key} (h : ⟨ticket, key, .waiting⟩ ∈ p.claims) :
    p.note? = some (.granted key ticket) := by
  have hmarks : ∀ {marks : List Mark}, ⟨ticket, key, .waiting⟩ ∉ marks.map Mark.claim :=
    fun hmem => absurd (mark_stage hmem) (by simp)
  cases p <;> simp_all [claims, note?, Mark.claim]

theorem tells_quiet {who : Worker} {progress : Progress Pass}
    (h : p.step who c = some (d, progress)) (hnote : p.note? = none)
    (hunspent : p.unspent = p.claims) (hexpects : p.Expects log)
    (hfresh : lastLine log c.locks.nextTicket = none) :
    (∀ told, p.note? = some told → Line.Follows log ⟨c.clock, told⟩) ∧
      ∀ next, progress.point? = some next → next.Expects (log ++ c.write p.note?) := by
  rw [hnote, Cache.write_none, List.append_nil]
  refine ⟨Line.follows_of_none, fun next hnext claim hclaim => ?_⟩
  have hhandling := handling_step h
  rw [hnext] at hhandling
  rcases hhandling.mem_cases (next.unspent_subset hclaim) with
    hwas | hleft | ⟨hstage, hticket⟩ | hgranted
  · exact hexpects claim (hunspent ▸ hwas)
  · rw [Claim.Bare, hleft]
    trivial
  · rw [Claim.Bare, hstage, hticket]
    exact hfresh
  · rw [note?_of_waiting hgranted.2] at hnote
    cases hnote

theorem expects_giveUp {ticket : Nat} {key : Key} {marks : List Mark} {next : Pass}
    (hnext : next.unspent = ⟨ticket, key, .leaving⟩ :: marks.map Mark.claim)
    (hmarks : ∀ claim ∈ marks.map Mark.claim, claim.Bare log) :
    (giveUp c ticket key marks next).2.Expects log := by
  have hunspent : (giveUp c ticket key marks next).2.unspent =
      ⟨ticket, key, .leaving⟩ :: marks.map Mark.claim := by
    rcases (giveUp_spec c ticket key marks next).2.2.2 with hsame | ⟨panic, hdrop⟩
    · rw [hsame, hnext]
    · rw [hdrop]
      rfl
  intro claim hclaim
  rw [hunspent] at hclaim
  rcases List.mem_cons.mp hclaim with rfl | hmem
  · trivial
  · exact hmarks claim hmem

theorem tells_acquire {round : Round} {ticket : Nat} {key : Key} {keys : List Key} {survey : Survey}
    (hexpects : (Pass.acquire round ticket key keys survey).Expects log)
    (hapart : ∀ other ∈ survey.marks.map Mark.claim, other.ticket ≠ ticket) :
    Line.Follows log ⟨c.clock, .granted key ticket⟩ ∧
      (Pass.judge round ticket key keys survey).Expects
        (log ++ c.write (some (.granted key ticket))) := by
  refine ⟨.first (hexpects _ List.mem_cons_self) rfl, fun claim hclaim => ?_⟩
  rcases List.mem_cons.mp hclaim with rfl | hmem
  · exact ⟨c.clock, lastLine_told rfl⟩
  · refine (hexpects claim (List.mem_cons_of_mem _ hmem)).write fun told htold => ?_
    cases htold
    exact (hapart claim hmem).symm

theorem tells_remove {effect : Effect} {todo : List Effect} {mark : Mark} {marks : List Mark}
    (hexpects : (Pass.remove (effect :: todo) mark marks).Expects log)
    (hsheds : (Pass.remove (effect :: todo) mark marks).Sheds)
    (hapart : ∀ other ∈ marks.map Mark.claim, other.ticket ≠ mark.ticket) :
    (∀ told, (Pass.remove (effect :: todo) mark marks).note? = some told →
      Line.Follows log ⟨c.clock, told⟩) ∧
      (Pass.remove todo mark marks).Expects
        (log ++ c.write (Pass.remove (effect :: todo) mark marks).note?) := by
  have hmarks : ∀ claim ∈ marks.map Mark.claim, claim.Bare log := by
    intro claim hclaim
    refine hexpects claim ?_
    simp only [unspent]
    split
    · exact List.mem_cons_of_mem _ hclaim
    · exact hclaim
  -- nothing is removed after the first effect
  have hlater : (Pass.remove todo mark marks).unspent = marks.map Mark.claim := by
    have hquiet : overwritesFirst todo = false := by cases hsheds.next <;> rfl
    simp [unspent, hquiet]
  cases hnote : (Pass.remove (effect :: todo) mark marks).note? with
  | none =>
    rw [Cache.write_none, List.append_nil]
    exact ⟨Line.follows_of_none, fun claim hclaim => hmarks claim (hlater ▸ hclaim)⟩
  | some told =>
    obtain ⟨rfl, rfl⟩ : effect = .erase mark.key ∧ told = .evicted mark.key mark.ticket := by
      cases hsheds.next with
      | erase =>
        simp only [note?, Option.ite_none_right_eq_some, Option.some.injEq] at hnote
        exact ⟨rfl, hnote.2.symm⟩
      | untrack => cases hnote
      | count => cases hnote
    obtain ⟨granted, hlast⟩ : mark.claim.Bare log := hexpects mark.claim (by
      simp [unspent, overwritesFirst, Effect.overwrites])
    refine ⟨fun other hother => ?_, fun claim hclaim => ?_⟩
    · cases hother
      exact .next _ hlast .evicted
    · rw [hlater] at hclaim
      refine (hmarks claim hclaim).write fun other hother => ?_
      cases hother
      exact (hapart claim hclaim).symm

theorem tells_step {who : Worker} {progress : Progress Pass}
    (h : p.step who c = some (d, progress)) (hexpects : p.Expects log)
    (hfresh : lastLine log c.locks.nextTicket = none) (hsheds : p.Sheds)
    (hapart : (p.claims.map Claim.ticket).Nodup) :
    (∀ told, p.note? = some told → Line.Follows log ⟨c.clock, told⟩) ∧
      ∀ next, progress.point? = some next → next.Expects (log ++ c.write p.note?) := by
  have hothers : ∀ {first rest}, p.claims = first :: rest →
      ∀ other ∈ rest, other.ticket ≠ first.ticket := by
    intro first rest hclaims other hother heq
    rw [hclaims, List.map_cons, List.nodup_cons] at hapart
    exact hapart.1 (heq ▸ List.mem_map_of_mem hother)
  cases stride_of_step h with
  | acquire acquired =>
    obtain ⟨hfollows, hnow⟩ := tells_acquire (c := c) hexpects (hothers rfl)
    refine ⟨fun told htold => ?_, fun next hnext => ?_⟩
    · cases htold
      exact hfollows
    · cases hnext
      exact hnow
  | effect applied =>
    obtain ⟨hfollows, hnow⟩ := tells_remove (c := c) hexpects hsheds (hothers rfl)
    refine ⟨hfollows, fun next hnext => ?_⟩
    cases hnext
    exact hnow
  | @removed mark marks =>
    have hnow : (giveUp c mark.ticket mark.key marks (.free mark.ticket mark.key marks)).2.Expects
        log := expects_giveUp rfl hexpects
    refine ⟨Line.follows_of_none, fun next hnext => ?_⟩
    cases hnext
    rw [show (Pass.remove [] mark marks).note? = none from rfl, Cache.write_none, List.append_nil]
    exact hnow
  | _ => exact tells_quiet h rfl rfl hexpects hfresh

end Pass

/-! ## All operations -/

def Note.stage : Note -> GuardStage
  | .granted _ _ => .waiting
  | .answered _ _ _ => .leaving
  | _ => .holding

theorem Access.claim_of_note {a : Access} {c : Cache layout} {told : Note} {log : List Line}
    (h : a.note? c = some told) (hexpects : a.Expects log) :
    ⟨told.ticket, told.key, told.stage⟩ ∈ a.claims := by
  unfold note? at h
  split at h
  all_goals cases h
  case h_4 ticket key value deadline todo answer hpoint =>
    -- the value that is stored is one for the key of the operation
    rw [Expects, hpoint] at hexpects
    obtain ⟨line, -, hdue⟩ := hexpects
    cases hdue with
    | answer quiet leads => exact absurd rfl (quiet _ List.mem_cons_self key value deadline)
    | store quiet leads => simp [claims, hpoint, Note.ticket, Note.key, Note.stage]
  all_goals simp [claims, *, Note.ticket, Note.key, Note.stage]

theorem Access.claim_of_returned {a : Access} {outcome : Outcome} {told : Note}
    (h : a.returned? outcome = some told) : ⟨told.ticket, told.key, told.stage⟩ ∈ a.claims := by
  unfold returned? at h
  split at h
  · next hpoint _ =>
    cases h
    rw [claims, hpoint]
    exact List.mem_cons_self
  · cases h

theorem Pass.claim_of_note {p : Pass} {told : Note} (h : p.note? = some told) (hsheds : p.Sheds) :
    ⟨told.ticket, told.key, told.stage⟩ ∈ p.claims := by
  unfold note? at h
  split at h
  · cases h
    exact List.mem_cons_self
  · next key todo mark marks =>
    simp only [Option.ite_none_right_eq_some, Option.some.injEq] at h
    obtain ⟨-, rfl⟩ := h
    have hkey : key = mark.key := by cases hsheds.next; rfl
    rw [hkey]
    exact List.mem_cons_self
  · cases h

namespace Frame

variable {frame : Frame} {c d : Cache layout} {log : List Line}

def Expects (frame : Frame) (log : List Line) : Prop :=
  match frame with
  | .access a => a.Expects log
  | .pass p => p.Expects log
  | .clock | .taking _ => True

theorem Fresh.expects (h : frame.Fresh) : frame.Expects log := by
  cases h with
  | access key request => trivial
  | pass => exact List.forall_mem_nil _
  | clock => trivial

theorem claim_of_note {told : Note} (h : frame.note? c = some told) (hexpects : frame.Expects log)
    (hsheds : frame.Sheds) : ⟨told.ticket, told.key, told.stage⟩ ∈ frame.claims := by
  cases frame with
  | access a => exact Access.claim_of_note h hexpects
  | pass p => exact Pass.claim_of_note h hsheds
  | clock => cases h
  | taking taking => cases h

theorem Expects.write {note : Option Note} (h : frame.Expects log)
    (hother : ∀ told, note = some told → ∀ claim ∈ frame.claims, told.ticket ≠ claim.ticket) :
    frame.Expects (log ++ c.write note) := by
  cases frame with
  | access a =>
    have hsame : ∀ claim ∈ a.claims,
        lastLine (log ++ c.write note) claim.ticket = lastLine log claim.ticket :=
      fun claim hclaim => lastLine_write fun told htold => hother told htold claim hclaim
    simp only [Expects, Access.Expects] at h ⊢
    cases hpoint : a.point <;> simp_all [Access.claims]
  | pass p =>
    intro claim hclaim
    refine (h claim hclaim).write fun told htold => ?_
    exact hother told htold claim (p.unspent_subset hclaim)
  | clock => trivial
  | taking taking => trivial

theorem note?_of_waiting {ticket : Nat} {key : Key} (h : ⟨ticket, key, .waiting⟩ ∈ frame.claims) :
    frame.note? c = some (.granted key ticket) := by
  cases frame with
  | access a =>
    cases hpoint : a.point <;> simp_all [claims, Access.claims, note?, Access.note?]
  | pass p => exact Pass.note?_of_waiting h
  | clock => cases h
  | taking taking => cases h

theorem grants_step {who : Worker} {progress : Progress Frame} {claim : Claim}
    (h : frame.step who c = some (d, progress))
    (hclaim : claim ∈ (progress.point?.map claims).getD []) (hstage : claim.stage = .holding) :
    claim ∈ frame.claims ∨ frame.note? c = some (.granted claim.key claim.ticket) := by
  rcases (handling_step h).mem_cases hclaim with hwas | hleft | hnew | hgranted
  · exact Or.inl hwas
  · rw [hstage] at hleft
    cases hleft
  · rw [hstage] at hnew
    cases hnew.1
  · exact Or.inr (note?_of_waiting hgranted.2)

theorem tells_step {who : Worker} {progress : Progress Frame}
    (h : frame.step who c = some (d, progress)) (hexpects : frame.Expects log)
    (hfresh : lastLine log c.locks.nextTicket = none) (hsheds : frame.Sheds)
    (hsound : c.locks.Sound) (hbears : c.locks.Bears frame.claims) :
    (∀ told, frame.note? c = some told → Line.Follows log ⟨c.clock, told⟩) ∧
      ∀ next, progress.point? = some next → next.Expects (log ++ c.write (frame.note? c)) := by
  cases stride_of_step h with
  | @access a d progress step =>
    -- the guard is known to the record of its key, so giving it up is no panic
    have hcalm : ∀ ticket, ⟨ticket, a.key, .holding⟩ ∈ a.claims →
        (c.locks.unregister ticket).1 = none := by
      intro ticket hclaim
      obtain ⟨guard, hguard, -, hstage⟩ := hbears.granted hclaim
      exact (hsound.unregister hguard hstage).1
    obtain ⟨hfollows, hnow⟩ := Access.tells_step step hexpects hfresh hcalm
    refine ⟨hfollows, fun next hnext => ?_⟩
    rw [Progress.point?_map] at hnext
    obtain ⟨own, hown, rfl⟩ := Option.map_eq_some_iff.mp hnext
    exact hnow own hown
  | pass step =>
    obtain ⟨hfollows, hnow⟩ := Pass.tells_step step hexpects hfresh hsheds hbears.apart
    refine ⟨hfollows, fun next hnext => ?_⟩
    rw [Progress.point?_map] at hnext
    obtain ⟨own, hown, rfl⟩ := Option.map_eq_some_iff.mp hnext
    exact hnow own hown
  | clock =>
    refine ⟨Line.follows_of_none, fun next hnext => ?_⟩
    cases hnext
    trivial
  | take =>
    refine ⟨Line.follows_of_none, fun next hnext => ?_⟩
    cases hnext
    trivial
  | taken => exact ⟨Line.follows_of_none, fun next hnext => absurd hnext (Option.not_mem_none next)⟩

end Frame

end TtlCache
