import TtlCache.Proofs.Machine.Stacks
import TtlCache.Proofs.Machine.Standing

/-!
# What lookups lead to

A lookup finds what stands under its key and has not expired.  What it finds decides what comes of
the operation: the answer, or the run of its provider.  This is so in every run, whatever other
threads do in between; and if they do nothing in between, the operation takes its steps up to that
point without waiting for anybody.
-/

namespace TtlCache

variable {layout : Layout}

/-- What is owed to a request, given the record before its lookup; `none` is the provider's run. -/
inductive Owed (log : List Line) (key : Key) (now : Instant) (seen : Option Entry) :
    Request -> Option Answer -> Prop where
  | found {kind : Kind} {entry : Entry} (stands : Stands log key entry)
      (live : now.nanos < entry.deadline.nanos) (same : entry.value.kind = kind) :
      Owed log key now seen (.get kind)
        (some (.found (some (entry.value, ⟨entry.deadline.nanos - now.nanos⟩))))
  | nothing {kind : Kind}
      (dead : ∀ entry, Stands log key entry → entry.deadline.nanos ≤ now.nanos) :
      Owed log key now seen (.get kind) (some (.found none))
  | notGot {kind : Kind} {entry : Entry} (stands : Stands log key entry)
      (live : now.nanos < entry.deadline.nanos) (other : entry.value.kind ≠ kind) :
      Owed log key now seen (.get kind) (some (.panicked (.wrongKind key kind)))
  | value {kind : Kind} {ttl : Duration} {entry : Entry} (stands : Stands log key entry)
      (live : now.nanos < entry.deadline.nanos) (same : entry.value.kind = kind) :
      Owed log key now seen (.create kind ttl) (some (.value entry.value))
  | provider {kind : Kind} {ttl : Duration}
      (dead : ∀ entry, Stands log key entry → entry.deadline.nanos ≤ now.nanos) :
      Owed log key now seen (.create kind ttl) none
  | notMade {kind : Kind} {ttl : Duration} {entry : Entry} (stands : Stands log key entry)
      (live : now.nanos < entry.deadline.nanos) (other : entry.value.kind ≠ kind) :
      Owed log key now seen (.create kind ttl) (some (.panicked (.wrongKind key kind)))
  /-- Extension and removal succeed on what is there, expired or not. -/
  | extended {deadline : Instant} :
      Owed log key now seen (.extend deadline) (some (.flag seen.isSome))
  | forgotten : Owed log key now seen .forget (some (.flag seen.isSome))

/-- What is written under a guard after its lookup, if this calls for an answer or a provider. -/
inductive Sequel (key : Key) (ticket : Nat) (request : Request) :
    Option Answer -> List Line -> Prop where
  | pending {outcome : Option Answer} : Sequel key ticket request outcome []
  | answered {clock : Instant} {answer : Answer} :
      Sequel key ticket request (some answer) [⟨clock, .answered key ticket answer⟩]
  | provided {began : Instant} {rest : List Line} :
      Sequel key ticket request none (⟨began, .provided key ticket request⟩ :: rest)

theorem owed_verdict {log : List Line} {key : Key} {now : Instant} {seen : Option Entry}
    (hsees : liveAt now seen = liveAt now (ledger log key)) (request : Request) :
    Owed log key now seen request (request.verdict key now seen) := by
  cases hlive : liveAt now seen with
  | none =>
    have hdead : ∀ entry, Stands log key entry → entry.deadline.nanos ≤ now.nanos := by
      intro entry hstands
      refine Nat.le_of_not_lt fun hlt => ?_
      have hsome := liveAt_ledger_iff.mpr ⟨hstands, hlt⟩
      rw [← hsees, hlive] at hsome
      cases hsome
    cases request with
    | get kind => simp only [Request.verdict, hlive]; exact .nothing hdead
    | create kind ttl => simp only [Request.verdict, hlive]; exact .provider hdead
    | extend deadline => exact .extended
    | forget => exact .forgotten
  | some entry =>
    obtain ⟨hstands, hlt⟩ := liveAt_ledger_iff.mp (hsees.symm.trans hlive)
    cases request with
    | get kind =>
      by_cases hkind : entry.value.kind = kind
      · simp only [Request.verdict, hlive, Entry.read, hkind, if_true]
        exact .found hstands hlt hkind
      · simp only [Request.verdict, hlive, Entry.read, hkind, if_false]
        exact .notGot hstands hlt hkind
    | create kind ttl =>
      by_cases hkind : entry.value.kind = kind
      · simp only [Request.verdict, hlive, Entry.read, hkind, if_true]
        exact .value hstands hlt hkind
      · simp only [Request.verdict, hlive, Entry.read, hkind, if_false]
        exact .notMade hstands hlt hkind
    | extend deadline => exact .extended
    | forget => exact .forgotten

/-! ## Lookups in a record -/

/-- A lookup in a record, between the lines before and after it. -/
structure Lookup where
  before : List Line
  now : Instant
  key : Key
  ticket : Nat
  request : Request
  seen : Option Entry
  after : List Line

namespace Lookup

def line (l : Lookup) : Line := ⟨l.now, .looked l.key l.ticket l.request l.seen⟩

def log (l : Lookup) : List Line := l.before ++ l.line :: l.after

/-- Whether a lookup finds what stands, and what comes of it is what is owed. -/
structure Lawful (l : Lookup) : Prop where
  finds : ∀ entry, liveAt l.now l.seen = some entry ↔
    Stands l.before l.key entry ∧ l.now.nanos < entry.deadline.nanos
  leads : ∃ outcome, Owed l.before l.key l.now l.seen l.request outcome ∧
    Sequel l.key l.ticket l.request outcome (linesOf l.after l.ticket)
  /-- Looking a value up moves no deadline. -/
  keeps : (∀ deadline, l.request ≠ .extend deadline) → l.request ≠ .forget →
    ∀ key entry, Stands (l.before ++ [l.line]) key entry ↔ Stands l.before key entry

end Lookup

theorem Sequel.next {key k : Key} {ticket : Nat} {now : Instant} {request : Request}
    {seen : Option Entry} {outcome : Option Answer} {lines : List Line} {last line : Line}
    (h : Sequel key ticket request outcome lines)
    (hverdict : request.verdict key now seen = outcome)
    (hlast : (⟨now, .looked key ticket request seen⟩ :: lines).getLast? = some last)
    (hleads : Line.Leads k ticket last line) :
    Sequel key ticket request outcome (lines ++ [line]) := by
  cases h with
  | pending =>
    cases hlast
    cases hleads with
    | answered verdict =>
      rw [verdict] at hverdict
      subst hverdict
      exact .answered
    | provided verdict =>
      rw [verdict] at hverdict
      subst hverdict
      exact .provided
  | answered =>
    -- nothing comes after the answer
    cases hlast
    cases hleads
  | provided => exact .provided

theorem sequel_of_justified {before after : List Line} {now : Instant} {key : Key} {ticket : Nat}
    {request : Request} {seen : Option Entry}
    (h : ∀ first middle last, before ++ ⟨now, .looked key ticket request seen⟩ :: after =
      first ++ middle :: last → middle.Justified first) :
    Sequel key ticket request (request.verdict key now seen) (linesOf after ticket) := by
  induction after using List.reverseRecOn with
  | nil => exact .pending
  | append_singleton after line ih =>
    rw [← List.cons_append, ← List.append_assoc] at h
    have hbefore := ih fun first middle last hsplit =>
      h first middle (last ++ [line]) (by rw [hsplit, List.append_assoc, List.cons_append])
    have hjustified := h _ line [] rfl
    rw [linesOf_append, linesOf_cons]
    by_cases hticket : line.note.ticket = ticket
    · rw [if_pos hticket]
      have hlast : lastLine (before ++ ⟨now, .looked key ticket request seen⟩ :: after)
          line.note.ticket =
            (⟨now, .looked key ticket request seen⟩ :: linesOf after ticket).getLast? := by
        rw [hticket, lastLine, linesOf_append, linesOf_cons]
        simp [Note.ticket, List.getLast?_append, List.getLast?_cons]
      cases hjustified.follows with
      | first none granted => simp [hlast] at none
      | next last some leads =>
        rw [hlast] at some
        rw [hticket] at leads
        exact hbefore.next rfl some leads
    · rw [if_neg hticket]
      simpa [linesOf] using hbefore

/-! ## Entries in a record -/

namespace Chronicle

variable {m : Machine layout} {log before after : List Line} {line : Line}

theorem earlier (h : Chronicle log m) {key : Key} {ticket : Nat}
    (hsplit : log = before ++ line :: after) (hkey : line.note.key = key)
    (hticket : line.note.ticket = ticket) (hstage : line.note.stage ≠ .waiting) :
    ∃ first last rest, before = first ++ last :: rest ∧ Line.Leads key ticket last line := by
  subst hkey hticket
  cases (h.justified hsplit).follows with
  | first none granted =>
    rw [granted] at hstage
    exact absurd rfl hstage
  | next last some leads =>
    obtain ⟨first, rest, hbefore⟩ := List.append_of_mem (mem_of_lastLine some).1
    exact ⟨first, last, rest, hbefore, leads⟩

/-- A stored entry is what the provider came to, with a deadline that counts from its end. -/
theorem provenance (h : Chronicle log m) {clock : Instant} {key : Key} {ticket : Nat}
    {entry : Entry} (hsplit : log = before ++ ⟨clock, .stored key ticket entry⟩ :: after) :
    ∃ now seen ended ttl,
      ⟨now, .looked key ticket (.create entry.value.kind ttl) seen⟩ ∈ before ∧
        ⟨ended, .returned key ticket entry.value ttl⟩ ∈ before ∧
          entry.deadline = ended.deadlineAfter ttl := by
  obtain ⟨first, last, rest, rfl, hstored⟩ :=
    h.earlier hsplit (show _ = key from rfl) (show _ = ticket from rfl) (by simp [Note.stage])
  rw [List.append_assoc, List.cons_append] at hsplit
  cases hstored with
  | stored =>
    next ended value ttl =>
    obtain ⟨second, last, middle, rfl, hreturned⟩ :=
      h.earlier hsplit (show _ = key from rfl) (show _ = ticket from rfl) (by simp [Note.stage])
    rw [List.append_assoc, List.cons_append] at hsplit
    cases hreturned with
    | returned =>
      obtain ⟨third, last, start, rfl, hprovided⟩ :=
        h.earlier hsplit (show _ = key from rfl) (show _ = ticket from rfl) (by simp [Note.stage])
      cases hprovided with
      | provided verdict =>
        next now seen => exact ⟨now, seen, ended, ttl, by simp, by simp, rfl⟩

theorem lawful (h : Chronicle log m) (l : Lookup) (hlog : log = l.log) : l.Lawful where
  finds := by
    intro entry
    have hsees := (h.justified hlog).sees (show l.line.note = _ from rfl)
    exact (congrArg (· = some entry) hsees).to_iff.trans liveAt_ledger_iff
  leads := by
    have hsees := (h.justified hlog).sees (show l.line.note = _ from rfl)
    have hsequel : Sequel l.key l.ticket l.request (l.request.verdict l.key l.now l.seen)
        (linesOf l.after l.ticket) :=
      sequel_of_justified fun first middle last hsplit =>
        h.justified (hlog.trans (show l.log = _ from hsplit))
    exact ⟨_, owed_verdict hsees l.request, hsequel⟩
  keeps := by
    intro hextend hforget key entry
    rw [← ledger_eq_some_iff, ← ledger_eq_some_iff, ledger_append]
    have hsettle : l.line.settle key (ledger l.before key) = ledger l.before key := by
      cases hrequest : l.request with
      | get kind => simp [Line.settle, Lookup.line, hrequest]
      | create kind ttl => simp [Line.settle, Lookup.line, hrequest]
      | extend deadline => exact absurd hrequest (hextend deadline)
      | forget => exact absurd hrequest hforget
    rw [hsettle]

end Chronicle

/-! ## Operations that nobody disturbs -/

/-- Only the start of the sweeper may have to wait. -/
theorem Effect.exists_apply {effect : Effect} (h : effect ≠ .wake) (c : Cache layout) :
    ∃ d, effect.apply c = some d := by
  cases effect with
  | wake => exact absurd rfl h
  | _ => exact ⟨_, rfl⟩

def Effect.applyAll (effects : List Effect) (c : Cache layout) : Option (Cache layout) :=
  effects.foldlM (fun c effect => effect.apply c) c

theorem Effect.exists_applyAll {effects : List Effect} (h : Effect.wake ∉ effects)
    (c : Cache layout) : ∃ d, applyAll effects c = some d := by
  induction effects generalizing c with
  | nil => exact ⟨c, rfl⟩
  | cons effect effects ih =>
    rw [List.mem_cons, not_or] at h
    obtain ⟨d, hd⟩ := Effect.exists_apply (Ne.symm h.1) c
    obtain ⟨last, hlast⟩ := ih h.2 d
    exact ⟨last, by simpa [applyAll, hd] using hlast⟩

namespace Machine

variable {m : Machine layout} {number : Nat} {a : Access} {outer : List Frame} {ticket : Nat}

theorem runAll_cons (m : Machine layout) (event : Event) (events : List Event) :
    m.runAll (event :: events) = (m.step event).bind fun next => next.runAll events := rfl

theorem runAll_append (m : Machine layout) (before after : List Event) :
    m.runAll (before ++ after) = (m.runAll before).bind fun next => next.runAll after :=
  List.foldlM_append

/-- Where an operation has come to after its lookup: its end, or its provider. -/
def Reaches (m : Machine layout) (number : Nat) (a : Access) (ticket : Nat) (outer : List Frame) :
    Option Answer -> Prop
  | some answer => m.client number = { stack := outer, answer := some answer }
  | none =>
      ∃ stale, (m.client number).stack =
        .access { a with point := .provide ticket stale } :: outer

theorem run_more {next : Access} {cache : Cache layout}
    (hstack : (m.client number).stack = .access a :: outer)
    (hstep : a.step m.cache = some (cache, .more next)) :
    ∃ n, m.step (.run (.client number)) = some n ∧ n.cache = cache ∧
      (n.client number).stack = .access next :: outer := by
  refine ⟨{ m with cache := cache }.setClient number
    { m.client number with stack := .access next :: outer }, ?_, rfl, ?_⟩
  · simp [step, run, runClient, hstack, Frame.step, hstep, Progress.map]
  · rw [client_setClient, if_pos rfl]

theorem run_done {answer : Answer} {cache : Cache layout}
    (hstack : (m.client number).stack = .access a :: outer)
    (hstep : a.step m.cache = some (cache, .done answer)) :
    ∃ n, m.step (.run (.client number)) = some n ∧ n.cache = cache ∧
      n.client number = { stack := outer, answer := some answer } := by
  refine ⟨{ m with cache := cache }.setClient number { stack := outer, answer := some answer },
    ?_, rfl, ?_⟩
  · simp [step, run, runClient, hstack, Frame.step, hstep, Progress.map]
  · rw [client_setClient, if_pos rfl]

theorem Owned.calm (h : m.Owned) (hstack : (m.client number).stack = .access a :: outer)
    (hclaim : ⟨ticket, a.key, .holding⟩ ∈ a.claims) :
    (m.cache.locks.unregister ticket).1 = none := by
  obtain ⟨guard, hguard, -, hstage⟩ := (h.bears (frameAt_innermost hstack)).granted hclaim
  exact (h.sound.unregister hguard hstage).1

theorem finishes {todo : List Effect} {answer : Answer} {d : Cache layout} (howned : m.Owned)
    (hstack : (m.client number).stack = .access a :: outer)
    (hpoint : a.point = .perform ticket todo answer)
    (heffects : Effect.applyAll todo m.cache = some d) :
    ∃ n, m.runAll (List.replicate (todo.length + 2) (.run (.client number))) = some n ∧
      n.client number = { stack := outer, answer := some answer } ∧
        n.cache = { d with locks := n.cache.locks } := by
  induction todo generalizing m a with
  | nil =>
    cases heffects
    have hclaim : ⟨ticket, a.key, .holding⟩ ∈ a.claims := by
      rw [Access.claims, hpoint]
      exact List.mem_cons_self
    have hpanic := howned.calm hstack hclaim
    cases hunregister : m.cache.locks.unregister ticket with
    | mk panic locks =>
      rw [hunregister] at hpanic
      subst hpanic
      have hstep : a.step m.cache =
          some ({ m.cache with locks := locks }, a.moveTo (.release ticket answer)) := by
        simp only [Access.step, hpoint, hunregister]
      obtain ⟨middle, hmiddle, hgiven, hnext⟩ := run_more hstack hstep
      have hlast : Access.step { a with point := .release ticket answer } middle.cache =
          some ({ middle.cache with locks := middle.cache.locks.release ticket }, .done answer) :=
        rfl
      obtain ⟨n, hn, hcache, hclient⟩ := run_done hnext hlast
      refine ⟨n, ?_, hclient, by rw [hcache, hgiven]⟩
      simp only [List.length_nil, List.replicate_succ, List.replicate_zero, runAll_cons, hmiddle,
        Option.bind_some, hn]
      rfl
  | cons effect todo ih =>
    obtain ⟨cache, happly, hrest⟩ := Option.bind_eq_some_iff.mp heffects
    have hstep : a.step m.cache = some (cache, a.moveTo (.perform ticket todo answer)) := by
      simp only [Access.step, hpoint, happly, Option.map_some]
    obtain ⟨middle, hmiddle, rfl, hnext⟩ := run_more hstack hstep
    obtain ⟨n, hn, hclient⟩ := ih (howned.step hmiddle) hnext rfl hrest
    refine ⟨n, ?_, hclient⟩
    rw [List.length_cons, Nat.add_right_comm, List.replicate_succ, runAll_cons, hmiddle]
    exact hn

section Storing

variable {key : Key} {kind : Kind} {ttl : Duration} {stale : Bool} {value : Value}

/-- An operation whose provider has come to a value stores it in its next step. -/
theorem stores_at_once (hstack : (m.client number).stack =
      .access ⟨key, .create kind ttl, .provide ticket stale⟩ :: outer) (hkind : value.kind = kind) :
    ∃ n, m.runAll [.provide number (.value value), .run (.client number)] = some n ∧
      n.cache = { m.cache with
        store := m.cache.store.insert key ⟨value, m.cache.clock.deadlineAfter ttl⟩ } ∧
      (n.client number).stack = .access ⟨key, .create kind ttl,
        .perform ticket [.wake, .use key] (.value value)⟩ :: outer := by
  let effects : List Effect :=
    [.put key value (m.cache.clock.deadlineAfter ttl), .wake, .use key]
  let ended : Machine layout := m.setClient number { m.client number with
    stack := .access ⟨key, .create kind ttl, .perform ticket effects (.value value)⟩ :: outer }
  have hended : m.step (.provide number (.value value)) = some ended := by
    simp only [step, provide, hstack, Access.afterProvider, hkind, if_true, Option.map_some]
    rfl
  have hperforming : (ended.client number).stack = .access ⟨key, .create kind ttl,
      .perform ticket effects (.value value)⟩ :: outer := by
    rw [client_setClient, if_pos rfl]
  obtain ⟨n, hn, hcache, hnext⟩ := run_more hperforming
    (show Access.step _ ended.cache = some (_, .more ⟨key, .create kind ttl,
      .perform ticket [.wake, .use key] (.value value)⟩) from rfl)
  refine ⟨n, ?_, hcache, hnext⟩
  rw [runAll_cons, hended, Option.bind_some, runAll_cons, hn]
  rfl

theorem creates (howned : m.Owned) (hidle : m.cache.sweeper.deciding = false)
    (hstack : (m.client number).stack =
      .access ⟨key, .create kind ttl, .provide ticket stale⟩ :: outer) (hkind : value.kind = kind) :
    ∃ n, m.runAll (.provide number (.value value) :: List.replicate 5 (.run (.client number))) =
        some n ∧ n.client number = { stack := outer, answer := some (.value value) } ∧
      n.cache.store = m.cache.store.insert key ⟨value, m.cache.clock.deadlineAfter ttl⟩ ∧
      n.cache.clock = m.cache.clock := by
  obtain ⟨middle, hmiddle, hcache, hnext⟩ := stores_at_once hstack hkind
  obtain ⟨sweeper, hstart⟩ : ∃ sweeper, middle.cache.sweeper.start = some sweeper := by
    unfold Sweeper.start
    rw [hcache, hidle]
    split
    · contradiction
    · split <;> exact ⟨_, rfl⟩
  obtain ⟨n, hn, hclient, hlast⟩ := finishes (run_induction (P := Owned)
    (fun h hstep => h.step hstep) howned hmiddle) hnext rfl
    (show Effect.applyAll [.wake, .use key] middle.cache =
        some ({ middle.cache with sweeper := sweeper }.notifyUsed key) by
      simp [Effect.applyAll, Effect.apply, hstart])
  refine ⟨n, ?_, hclient, ?_, ?_⟩
  · rw [show Event.provide number (.value value) :: List.replicate 5 (.run (.client number)) =
        [.provide number (.value value), .run (.client number)] ++
          List.replicate 4 (.run (.client number)) from rfl, runAll_append, hmiddle]
    exact hn
  · rw [hlast, Cache.notifyUsed, hcache]
  · rw [hlast, Cache.notifyUsed, hcache]

end Storing

theorem reaches (howned : m.Owned) (hstack : (m.client number).stack = .access a :: outer)
    (hpoint : a.point = .look ticket) :
    ∃ steps n, m.runAll (List.replicate steps (.run (.client number))) = some n ∧
      n.Reaches number a ticket outer
        (a.request.verdict a.key m.cache.clock (m.cache.store.get? a.key)) := by
  have hstep : a.step m.cache =
      some ((a.look m.cache ticket).1, a.moveTo (a.look m.cache ticket).2) := by
    simp only [Access.step, hpoint]
  obtain ⟨middle, hmiddle, -, hnext⟩ := run_more hstack hstep
  have hsight := a.sight_look m.cache ticket
  generalize (a.look m.cache ticket).2 = point at hsight hnext
  cases hsight with
  | answered verdict plan =>
    next todo answer =>
    have hquiet : Effect.wake ∉ todo := by
      cases plan <;> simp [Access.hit, Access.expire]
    obtain ⟨d, heffects⟩ := Effect.exists_applyAll hquiet middle.cache
    obtain ⟨n, hn, hclient, -⟩ := finishes (howned.step hmiddle) hnext rfl heffects
    refine ⟨todo.length + 2 + 1, n, ?_, ?_⟩
    · rw [List.replicate_succ, runAll_cons, hmiddle]
      exact hn
    · rw [verdict]
      exact hclient
  | missed verdict create dead =>
    obtain ⟨n, hn, -, hlast⟩ := run_more hnext
      (show Access.step _ middle.cache = some (middle.cache.count .miss, _) from rfl)
    refine ⟨2, n, ?_, ?_⟩
    · simp only [List.replicate_succ, List.replicate_zero, runAll_cons, hmiddle, Option.bind_some,
        hn]
      rfl
    · rw [verdict]
      exact ⟨_, hlast⟩

/--
In every run, what is done to a key is done in the order in which it was granted.  A lookup finds
what was stored last and has not been removed or evicted since, as long as its deadline, as last
moved, is still to come.  It is answered with that, or its provider runs if there is no such entry.
What is stored is what a provider came to, with a deadline that counts from its end.  At any time,
an operation about to look its key up needs nobody else to get that far.
-/
theorem lookups_find_what_stands {config : Config} {clock : Instant} {events : List Event}
    (hevictor : ∀ evictor, config.evictor = some evictor → evictor.Origin)
    (hrun : (ofConfig layout config clock).runAll events = some m) :
    (∀ before line after, (ofConfig layout config clock).record events = before ++ line :: after →
      line.note.stage = .holding → lastGrant before line.note.key = some line.note.ticket) ∧
    (∀ l : Lookup, (ofConfig layout config clock).record events = l.log → l.Lawful) ∧
    (∀ before stored key ticket entry after, (ofConfig layout config clock).record events =
        before ++ ⟨stored, .stored key ticket entry⟩ :: after →
      ∃ now seen ended ttl,
        ⟨now, .looked key ticket (.create entry.value.kind ttl) seen⟩ ∈ before ∧
          ⟨ended, .returned key ticket entry.value ttl⟩ ∈ before ∧
            entry.deadline = ended.deadlineAfter ttl) ∧
    ∀ number a outer ticket, (m.client number).stack = .access a :: outer →
      a.point = .look ticket →
        ∃ outcome steps n,
          Owed ((ofConfig layout config clock).record events) a.key m.cache.clock
            (m.cache.store.get? a.key) a.request outcome ∧
          m.runAll (List.replicate steps (.run (.client number))) = some n ∧
            n.Reaches number a ticket outer outcome := by
  have hchronicle := chronicle_of_run hrun fun evictor hsome => (hevictor evictor hsome).sound
  refine ⟨?_, fun l hlog => hchronicle.lawful l hlog, ?_, ?_⟩
  · intro before line after hsplit hstage
    exact (hchronicle.justified hsplit).inOrder hstage
  · intro before stored key ticket entry after hsplit
    exact hchronicle.provenance hsplit
  · intro number a outer ticket hstack hpoint
    obtain ⟨steps, n, hn, hreaches⟩ := reaches hchronicle.owned hstack hpoint
    exact ⟨_, steps, n, owed_verdict (hchronicle.balanced.liveAt_eq a.key) a.request, hn, hreaches⟩

def keepLast : Config := ⟨some ⟨.recency ⟨1, .empty, .empty⟩, none⟩, defaultInterval⟩

theorem origin_keepLast (evictor : Evictor) (h : keepLast.evictor = some evictor) :
    evictor.Origin := by
  cases h
  exact .builtIn (show Evictor.builtIn .recency 1 = .ok _ from rfl)

/-- A value is found after its deadline has been moved, with what is left until the new one. -/
theorem lookups_find_what_stands_extended :
    ∃ events m, runAll (ofConfig .flat keepLast ⟨0⟩) events = some m ∧
      ∃ l : Lookup, (ofConfig .flat keepLast ⟨0⟩).record events = l.log ∧ l.Lawful ∧
        l.now = ⟨3⟩ ∧ l.request = .get .u32 ∧ Stands l.before "a" ⟨.u32 7, ⟨100⟩⟩ := by
  have hrun : runAll (ofConfig .flat keepLast ⟨0⟩)
      (creation 0 "a" leastTtl (.u32 7) ++ [.call 1 (.access "a" (.extend ⟨100⟩))] ++
        List.replicate 5 (.run (.client 1)) ++ [.tick ⟨3⟩, .call 2 (.access "a" (.get .u32))] ++
          List.replicate 7 (.run (.client 2))) = some _ := rfl
  have hlookups := (lookups_find_what_stands origin_keepLast hrun).2.1
  have hlawful := hlookups
    { before := [⟨⟨0⟩, .granted "a" 0⟩, ⟨⟨0⟩, .looked "a" 0 (.create .u32 leastTtl) none⟩,
        ⟨⟨0⟩, .provided "a" 0 (.create .u32 leastTtl)⟩, ⟨⟨0⟩, .returned "a" 0 (.u32 7) leastTtl⟩,
        ⟨⟨0⟩, .stored "a" 0 ⟨.u32 7, Instant.deadlineAfter ⟨0⟩ leastTtl⟩⟩,
        ⟨⟨0⟩, .answered "a" 0 (.value (.u32 7))⟩, ⟨⟨0⟩, .granted "a" 1⟩,
        ⟨⟨0⟩, .looked "a" 1 (.extend ⟨100⟩) (some ⟨.u32 7, Instant.deadlineAfter ⟨0⟩ leastTtl⟩)⟩,
        ⟨⟨0⟩, .answered "a" 1 (.flag true)⟩, ⟨⟨3⟩, .granted "a" 2⟩]
      now := ⟨3⟩
      key := "a"
      ticket := 2
      request := .get .u32
      seen := some ⟨.u32 7, ⟨100⟩⟩
      after := [⟨⟨3⟩, .answered "a" 2 (.found (some (.u32 7, ⟨97⟩)))⟩] }
    rfl
  exact ⟨_, _, hrun, _, rfl, hlawful, rfl, rfl, ((hlawful.finds _).mp rfl).1⟩

end Machine

end TtlCache
