import TtlCache.Proofs.Machine.Acts
import TtlCache.Proofs.Machine.Clearing
import TtlCache.Proofs.Machine.Counting

/-!
# What a pass has met

A pass goes through its first round without changing anything but locks.  What it does then depends
on whether it has met a live entry.  If it has, and the evictor panics, it gives up its marks and
leaves everything as it is.  If it has not, it does not ask the evictor, and it removes whatever it
has marked: of the keys that were stored when it began, and others do not remove, none is left.
-/

namespace TtlCache

variable {layout : Layout}

/-- The evictor panics if it is asked for its excess. -/
def Cache.Raises (c : Cache layout) (panic : Panic) : Prop :=
  ∃ evictor, c.evictor = some evictor ∧ evictor.excess = .error panic

namespace Pass

/-- A pass in its first round that has met no live entry so far. -/
def Scouts : Pass -> Prop
  | .enter | .queue | .collect _ _ _ => True
  | .visit .expiry _ survey | .acquire .expiry _ _ _ survey | .judge .expiry _ _ _ survey
  | .dismiss .expiry _ _ _ survey | .release .expiry _ _ _ survey => survey.live = false
  | _ => False

/-- A pass that has met a live entry and comes to its end with the panic of the evictor. -/
def Doomed (panic : Panic) : Pass -> Prop
  | .visit .expiry _ survey | .acquire .expiry _ _ _ survey | .judge .expiry _ _ _ survey
  | .dismiss .expiry _ _ _ survey | .release .expiry _ _ _ survey => survey.live = true
  | .weigh _ => True
  | .unwind _ given | .drop _ _ _ given | .leave (.panicked given) => given = panic
  | _ => False

/-- A pass that removes what it has marked, or is past that. -/
def Clears : Pass -> Prop
  | .remove _ _ _ | .free _ _ _ | .decide | .sum _ _ | .leave (.flag _) => True
  | _ => False

variable {p q : Pass} {who : Worker} {c d : Cache layout} {panic : Panic}

theorem clears_clear (marks : List Mark) : (clear marks).Clears := by
  cases marks <;> trivial

def meetsLive (c : Cache layout) : Pass -> Bool
  | .judge .expiry _ key _ survey => c.isLiveAt survey.now key
  | _ => false

theorem meetsLive_of_clears (h : p.Clears) : p.meetsLive c = false := by
  cases p with
  | judge => cases h
  | _ => rfl

/-! ## Steps -/

def Releasable (p : Pass) (c : Cache layout) : Prop :=
  ∀ ticket key, ⟨ticket, key, .holding⟩ ∈ p.claims → (c.locks.unregister ticket).1 = none

theorem endRound_of_dead {survey : Survey} (h : survey.live = false) :
    endRound c survey .expiry = clear survey.marks := by
  simp only [endRound, h, Bool.false_and, Bool.false_eq_true, if_false]

theorem scouts_step (h : p.step who c = some (d, .more q)) (hscouts : p.Scouts)
    (hfree : p.Releasable c) :
    c.Unaltered d ∧ (p.meetsLive c = true → ∀ panic, q.Doomed panic) ∧
      (p.meetsLive c = false → q.Scouts ∨ q.Clears) := by
  generalize hprogress : Progress.more q = progress at h
  cases stride_of_step h with
  | enter | begin | list =>
    cases hprogress
    exact ⟨rfl, fun hmeets => (by cases hmeets), fun _ => .inl trivial⟩
  | listed =>
    cases hprogress
    exact ⟨rfl, fun hmeets => (by cases hmeets), fun _ => .inl rfl⟩
  | @register round | @acquire round | @release round =>
    cases hprogress
    cases round with
    | expiry => exact ⟨rfl, fun hmeets => (by cases hmeets), fun _ => .inl hscouts⟩
    | eviction => cases hscouts
  | @visited round survey =>
    cases hprogress
    cases round with
    | expiry =>
      rw [endRound_of_dead hscouts]
      exact ⟨rfl, fun hmeets => (by cases hmeets), fun _ => .inr (clears_clear _)⟩
    | eviction => cases hscouts
  | @judgeExpiry ticket key keys survey =>
    cases hprogress
    refine ⟨rfl, ?_⟩
    simp only [meetsLive, Cache.isLiveAt, judgeExpiry]
    cases hentry : c.store.get? key with
    | none => exact ⟨fun hmeets => (by cases hmeets), fun _ => .inl hscouts⟩
    | some entry =>
      cases hexpired : entry.isExpired survey.now with
      | true =>
        refine ⟨by simp [hexpired], fun _ => .inl ?_⟩
        simp only [hexpired, if_true]
        exact hscouts
      | false => simp [hexpired, Doomed]
  | @dismiss round ticket key keys survey =>
    rw [giveUp_of_calm (hfree ticket key List.mem_cons_self)] at hprogress ⊢
    cases hprogress
    cases round with
    | expiry => exact ⟨rfl, fun hmeets => (by cases hmeets), fun _ => .inl hscouts⟩
    | eviction => cases hscouts
  | leave => cases hprogress
  | _ => cases hscouts

theorem doomed_step (h : p.step who c = some (d, .more q)) (hdoomed : p.Doomed panic)
    (hfree : p.Releasable c) (hraises : c.Raises panic) : c.Unaltered d ∧ q.Doomed panic := by
  obtain ⟨evictor, hevictor, hexcess⟩ := hraises
  generalize hprogress : Progress.more q = progress at h
  cases stride_of_step h with
  | @register round | @acquire round | @release round =>
    cases hprogress
    cases round with
    | expiry => exact ⟨rfl, hdoomed⟩
    | eviction => cases hdoomed
  | @visited round survey =>
    cases hprogress
    cases round with
    | expiry =>
      have hlive : survey.live = true := hdoomed
      refine ⟨rfl, ?_⟩
      simp only [endRound, hlive, hevictor, Option.isSome_some, Bool.and_self, if_true]
      trivial
    | eviction => cases hdoomed
  | judgeExpiry =>
    cases hprogress
    refine ⟨rfl, ?_⟩
    unfold judgeExpiry
    split
    · exact hdoomed
    · split
      · exact hdoomed
      · rfl
  | @dismiss round ticket key keys survey =>
    rw [giveUp_of_calm (hfree ticket key List.mem_cons_self)] at hprogress ⊢
    cases hprogress
    cases round with
    | expiry => exact ⟨rfl, hdoomed⟩
    | eviction => cases hdoomed
  | weigh =>
    cases hprogress
    refine ⟨rfl, ?_⟩
    simp only [weighExcess, hevictor, hexcess]
    rfl
  | @unwind mark =>
    rw [giveUp_of_calm (hfree mark.ticket mark.key List.mem_cons_self)] at hprogress ⊢
    cases hprogress
    exact ⟨rfl, hdoomed⟩
  | unwound | drop =>
    cases hprogress
    exact ⟨rfl, hdoomed⟩
  | leave => cases hprogress
  | _ => cases hdoomed

theorem clears_step (h : p.step who c = some (d, .more q)) (hclears : p.Clears)
    (hfree : p.Releasable c) :
    q.Clears := by
  generalize hprogress : Progress.more q = progress at h
  cases stride_of_step h with
  | effect | decide | sum | summed =>
    cases hprogress
    trivial
  | @removed mark =>
    rw [giveUp_of_calm (hfree mark.ticket mark.key List.mem_cons_self)] at hprogress
    cases hprogress
    trivial
  | free =>
    cases hprogress
    exact clears_clear _
  | leave => cases hprogress
  | @register round | @visited round | @acquire round | @dismiss round | @release round =>
    cases round <;> cases hclears
  | _ => cases hclears

/-! ### What is left of the stored keys -/

/--
Where a pass that has met no live entry still comes across a stored key: it has not been listed yet,
it is to be visited, or it is marked.
-/
def Faces (layout : Layout) (key : Key) : Pass -> Prop
  | .enter | .queue => True
  | .collect _ shard keys => key ∈ keys ∨ shard ≤ (layout.place key).val
  | .acquire _ _ next keys survey | .judge _ _ next keys survey =>
      key ∈ survey.marks.map Mark.key ∨ key ∈ next :: keys
  | .visit _ keys survey | .dismiss _ _ _ keys survey | .release _ _ _ keys survey =>
      key ∈ survey.marks.map Mark.key ∨ key ∈ keys
  | .remove todo mark marks =>
      key = mark.key ∧ overwritesFirst todo = true ∨ key ∈ marks.map Mark.key
  | .free _ _ marks => key ∈ marks.map Mark.key
  | _ => False

def Blank : Pass -> Prop
  | .sum _ total => total = 0
  | .leave answer => answer = .flag true
  | _ => True

/--
A pass that has met no live entry so far.  Of some keys those that are stored are still to be met,
and if these are all keys then it counts no entry.
-/
structure Blind (among : Key → Prop) (c : Cache layout) (p : Pass) : Prop where
  point : p.Scouts ∨ p.Clears
  faces : ∀ {key}, among key → c.contains key = true → p.Faces layout key
  blank : (∀ key, among key) → p.Blank

theorem faces_clear {key : Key} {marks : List Mark} (h : key ∈ marks.map Mark.key) :
    (clear marks).Faces layout key := by
  cases marks with
  | nil => cases h
  | cons mark marks => exact (List.mem_cons.mp h).imp (fun heq => ⟨heq, rfl⟩) id

theorem blank_clear (marks : List Mark) : (clear marks).Blank := by
  cases marks <;> trivial

theorem blind_enter (among : Key → Prop) (c : Cache layout) : enter.Blind among c where
  point := .inl trivial
  faces _ _ := trivial
  blank _ := trivial

variable {among : Key → Prop}

/-- A key that is stored after a step of a pass, and was to be met before it, still is to be met. -/
theorem faces_step (h : p.step who c = some (d, .more q)) (hpoint : p.Scouts ∨ p.Clears)
    (hblind : p.meetsLive c = false) (hfree : p.Releasable c) (hsheds : p.Sheds) {key : Key}
    (hkey : d.contains key = true) (hfaces : p.Faces layout key) : q.Faces layout key := by
  generalize hprogress : Progress.more q = progress at h
  cases stride_of_step h with
  | enter =>
    cases hprogress
    trivial
  | begin =>
    cases hprogress
    exact .inr (Nat.zero_le _)
  | @list now shard keys rows listed =>
    cases hprogress
    rcases hfaces with hlisted | hlater
    · exact .inl (List.mem_append_left _ hlisted)
    · rcases Nat.eq_or_lt_of_le hlater with rfl | hlater
      · rw [Store.shard?_shardOf] at listed
        cases listed
        exact .inl (List.mem_append_right _ (Table.mem_keys_iff.mpr hkey))
      · exact .inr hlater
  | @listed now shard keys behind =>
    cases hprogress
    refine .inr (hfaces.resolve_right fun hlater => ?_)
    have hshards : layout.shards ≤ shard := by simpa [Store.shard?] using behind
    exact Nat.not_le_of_lt (layout.place key).isLt (Nat.le_trans hshards hlater)
  | register | acquire | release =>
    cases hprogress
    exact hfaces
  | @visited round survey =>
    cases hprogress
    cases round with
    | expiry =>
      rw [endRound_of_dead (hpoint.resolve_right id)]
      exact faces_clear (hfaces.resolve_right List.not_mem_nil)
    | eviction => exact (hpoint.elim id id).elim
  | @judgeExpiry ticket next keys survey =>
    cases hprogress
    unfold judgeExpiry
    split
    · next habsent =>
      refine hfaces.imp_right fun hmem => (List.mem_cons.mp hmem).resolve_left ?_
      rintro rfl
      rw [Cache.contains, habsent] at hkey
      cases hkey
    · next entry hentry =>
      split
      · rw [Faces, Survey.mark, List.map_append, List.mem_append]
        rcases hfaces with hmarked | hmem
        · exact .inl (.inl hmarked)
        · exact (List.mem_cons.mp hmem).imp (fun heq => .inr (List.mem_singleton.mpr heq)) id
      · next hlive =>
        simp [meetsLive, Cache.isLiveAt, hentry, hlive] at hblind
  | @dismiss round ticket next keys survey =>
    rw [giveUp_of_calm (hfree ticket next List.mem_cons_self)] at hprogress
    cases hprogress
    exact hfaces
  | @effect effect todo mark marks after applied =>
    cases hprogress
    rcases hfaces with ⟨rfl, hfirst⟩ | hmarked
    · -- the entry of the mark goes with the first effect
      cases hsheds.next with
      | erase =>
        cases applied
        rw [Cache.contains, Store.get?_erase, if_pos rfl] at hkey
        cases hkey
      | untrack => cases hfirst
      | count => cases hfirst
    · exact .inr hmarked
  | @removed mark marks =>
    rw [giveUp_of_calm (hfree mark.ticket mark.key List.mem_cons_self)] at hprogress
    cases hprogress
    exact hfaces.resolve_left fun hown => by cases hown.2
  | free =>
    cases hprogress
    exact faces_clear hfaces
  | leave => cases hprogress
  | decide | sum | summed => cases hfaces
  | judgeEviction | untrack | weigh | choose | unwind | unwound | drop =>
    exact (hpoint.elim id id).elim

theorem blank_step (h : p.step who c = some (d, .more q)) (hplaced : c.store.Placed)
    (hpoint : p.Scouts ∨ p.Clears) (hfree : p.Releasable c)
    (hfaces : ∀ key, c.contains key = true → p.Faces layout key) (hblank : p.Blank) : q.Blank := by
  generalize hprogress : Progress.more q = progress at h
  cases stride_of_step h with
  | @sum shard total rows listed =>
    cases hprogress
    have hempty : rows.keys = [] := by
      refine List.eq_nil_iff_forall_not_mem.mpr fun key hmem => hfaces key ?_
      rw [Cache.contains, Store.get?]
      have hplace := hplaced shard rows key listed hmem
      subst hplace
      rw [Store.shard?_shardOf] at listed
      cases listed
      exact Table.mem_keys_iff.mp hmem
    have hsize : rows.size = 0 := by rw [← Table.length_keys, hempty, List.length_nil]
    rw [Blank, hsize]
    exact hblank
  | summed =>
    cases hprogress
    rw [Blank, show _ = 0 from hblank]
    rfl
  | @dismiss round ticket key keys survey =>
    rw [giveUp_of_calm (hfree ticket key List.mem_cons_self)] at hprogress
    cases hprogress
    trivial
  | @removed mark marks =>
    rw [giveUp_of_calm (hfree mark.ticket mark.key List.mem_cons_self)] at hprogress
    cases hprogress
    trivial
  | free =>
    cases hprogress
    exact blank_clear _
  | @visited round survey =>
    cases hprogress
    cases round with
    | expiry =>
      rw [endRound_of_dead (hpoint.resolve_right id)]
      exact blank_clear _
    | eviction => exact (hpoint.elim id id).elim
  | @judgeExpiry ticket key keys survey =>
    cases hprogress
    unfold judgeExpiry
    split
    · trivial
    · split <;> trivial
  | leave => cases hprogress
  | decide =>
    cases hprogress
    rfl
  | judgeEviction | untrack | weigh | choose | unwind | unwound | drop =>
    exact (hpoint.elim id id).elim
  | _ =>
    cases hprogress
    trivial

theorem Blind.step (hblind : p.Blind among c) (h : p.step who c = some (d, .more q))
    (hlive : p.meetsLive c = false) (hfree : p.Releasable c) (hsheds : p.Sheds)
    (hplaced : c.store.Placed) : q.Blind among d where
  point := by
    rcases hblind.point with hscouts | hclears
    · exact (scouts_step h hscouts hfree).2.2 hlive
    · exact .inr (clears_step h hclears hfree)
  faces hamong hkey :=
    faces_step h hblind.point hlive hfree hsheds hkey
      (hblind.faces hamong (contains_of_step h hsheds hkey))
  blank hall :=
    blank_step h hplaced hblind.point hfree (fun key => hblind.faces (hall key)) (hblind.blank hall)

end Pass

namespace Frame

variable {p : Pass} {who : Worker} {c d : Cache layout}

theorem pass_of_pass {next : Frame} (h : (Frame.pass p).step who c = some (d, .more next)) :
    ∃ q, next = .pass q ∧ p.step who c = some (d, .more q) := by
  obtain ⟨⟨after, progress⟩, hstep, hsome⟩ := Option.map_eq_some_iff.mp h
  cases progress <;> cases hsome
  exact ⟨_, rfl, hstep⟩

theorem pass_done {answer : Answer} (h : (Frame.pass p).step who c = some (d, .done answer)) :
    p.step who c = some (d, .done answer) := by
  obtain ⟨⟨after, progress⟩, hstep, hsome⟩ := Option.map_eq_some_iff.mp h
  cases progress <;> cases hsome
  exact hstep

end Frame

namespace Machine

variable {m n : Machine layout} {place : Place} {p : Pass} {events : List Event} {panic : Panic}

/-! ## Whole passes -/

/-- A step of a pass that goes on. -/
structure Proceeds (m : Machine layout) (place : Place) (p : Pass) (next : Machine layout)
    (q : Pass) : Prop where
  coherent : m.Coherent
  was : m.frameAt place = some (.pass p)
  acting : m.acting (.run place.worker) = some place
  ran : m.step (.run place.worker) = some next
  own : p.step place.worker m.cache = some (next.cache, .more q)
  now : next.frameAt place = some (.pass q)

/-- The last step of a pass. -/
structure Concludes (m : Machine layout) (place : Place) (answer : Answer) (n : Machine layout) :
    Prop where
  coherent : m.Coherent
  was : m.frameAt place = some (.pass (.leave answer))
  acting : m.acting (.run place.worker) = some place
  ran : m.step (.run place.worker) = some n
  returns : n.Returns { m.cache with passLock := none } answer place

/-- What holds of the last step of a pass, and of every event if it holds of the ones after it,
holds of the whole pass. -/
theorem Completes.pass_induction {P : Machine layout → Pass → List Event → Prop}
    (h : m.Completes place events n) (hcoherent : m.Coherent)
    (hframe : m.frameAt place = some (.pass p))
    (others : ∀ {m next : Machine layout} {p : Pass} {event : Event} {rest : List Event},
      m.frameAt place = some (.pass p) → m.acting event ≠ some place → m.step event = some next →
        P next p rest → P m p (event :: rest))
    (more : ∀ {m next : Machine layout} {p q : Pass} {rest : List Event},
      m.Proceeds place p next q → next.Completes place rest n →
        P next q rest → P m p (.run place.worker :: rest))
    (done : ∀ {m : Machine layout} {answer : Answer},
      m.Concludes place answer n → P m (.leave answer) [.run place.worker]) : P m p events := by
  induction events generalizing m p with
  | nil =>
    cases h.run
    cases hframe.symm.trans h.gone
  | cons event events ih =>
    obtain ⟨_, _, next, heq, hstep, hrest⟩ := h.cons hframe
    cases heq
    have hnext := hcoherent.step hstep
    by_cases hacting : m.acting event = some place
    · cases own_of_step hstep hacting hframe with
      | provided was => cases was
      | more step now =>
        obtain ⟨q, rfl, hown⟩ := Frame.pass_of_pass step
        exact more ⟨hcoherent, hframe, hacting, hstep, hown, now⟩ hrest (ih hrest hnext now)
      | done step gone returns =>
        obtain ⟨rfl, rfl⟩ := Pass.eq_leave_of_done (Frame.pass_done step)
        obtain ⟨rfl, rfl⟩ := hrest.nil gone
        exact done ⟨hcoherent, hframe, hacting, hstep, returns⟩
    · exact others hframe hacting hstep (ih hrest hnext (frameAt_step hstep hacting hframe))

def meetsLive (m : Machine layout) (place : Place) (event : Event) : Bool :=
  decide (m.acting event = some place) &&
    match m.frameAt place with
    | some (.pass p) => p.meetsLive m.cache
    | _ => false

/-- The pass at a place meets no live entry in a run. -/
def Overlooks (m : Machine layout) (place : Place) (events : List Event) : Prop :=
  m.Heeds (fun m event => m.meetsLive place event = false) events

instance (m : Machine layout) (place : Place) (events : List Event) :
    Decidable (m.Overlooks place events) :=
  inferInstanceAs (Decidable (m.Heeds _ events))

theorem meetsLive_of_apart {event : Event} (h : m.acting event ≠ some place) :
    m.meetsLive place event = false := by
  simp [meetsLive, h]

theorem meetsLive_of_own (hframe : m.frameAt place = some (.pass p))
    (hacting : m.acting (.run place.worker) = some place) :
    m.meetsLive place (.run place.worker) = p.meetsLive m.cache := by
  simp [meetsLive, hacting, hframe]

namespace Proceeds

variable {next : Machine layout} {q : Pass}

theorem releasable (h : m.Proceeds place p next q) : p.Releasable m.cache :=
  fun _ _ hclaim => h.coherent.owned.unregister_eq_none h.was hclaim

theorem meetsLive_eq (h : m.Proceeds place p next q) :
    m.meetsLive place (.run place.worker) = p.meetsLive m.cache :=
  meetsLive_of_own h.was h.acting

end Proceeds

theorem overlooks_cons {event : Event} {next : Machine layout} (hstep : m.step event = some next) :
    m.Overlooks place (event :: events) ↔
      m.meetsLive place event = false ∧ next.Overlooks place events := by
  constructor
  · exact fun h => ⟨h.1, h.2 next hstep⟩
  · rintro ⟨hevent, hrest⟩
    refine ⟨hevent, fun other hother => ?_⟩
    cases hstep.symm.trans hother
    exact hrest

theorem Completes.overlooks (h : m.Completes place events n) (hcoherent : m.Coherent)
    (hframe : m.frameAt place = some (.pass p)) (hclears : p.Clears) :
    m.Overlooks place events := by
  revert hclears
  refine h.pass_induction (P := fun m p events => p.Clears → m.Overlooks place events) hcoherent
    hframe ?others ?more ?done
  case others =>
    intro m next p event rest _ hacting hstep ih hclears
    exact (overlooks_cons hstep).mpr ⟨meetsLive_of_apart hacting, ih hclears⟩
  case more =>
    intro m next p q rest hproceeds _ ih hclears
    have hnext := Pass.clears_step hproceeds.own hclears hproceeds.releasable
    exact (overlooks_cons hproceeds.ran).mpr
      ⟨hproceeds.meetsLive_eq.trans (Pass.meetsLive_of_clears hclears), ih hnext⟩
  case done =>
    intro m answer hconcludes _
    exact ⟨meetsLive_of_own hconcludes.was hconcludes.acting, fun _ _ => trivial⟩

/-! ### Passes that panic -/

theorem raises_of_terms {c : Cache layout} {text : String} {capacity : Nat}
    (h : c.terms = some (some (.raises text), capacity)) : c.Raises (.raised text) := by
  obtain ⟨evictor, hevictor, hterms⟩ := Option.map_eq_some_iff.mp h
  refine ⟨evictor, hevictor, ?_⟩
  rw [Evictor.excess, (Prod.mk.inj hterms).1]

/-- A pass that comes to a panic and of itself changes nothing on the way. -/
structure GivesUp (m : Machine layout) (place : Place) (before : List Event) (panic : Panic)
    (last n : Machine layout) : Prop where
  acts : m.Acts place before [] last
  concludes : last.Concludes place (.panicked panic) n

theorem Completes.gives_up {text : String} {capacity : Nat} (h : m.Completes place events n)
    (hcoherent : m.Coherent) (hframe : m.frameAt place = some (.pass p))
    (hterms : m.cache.terms = some (some (.raises text), capacity))
    (hmeets : p.Doomed (.raised text) ∨ p.Scouts ∧ ¬m.Overlooks place events) :
    ∃ before last, events = before ++ [.run place.worker] ∧
      m.GivesUp place before (.raised text) last n := by
  revert hterms hmeets
  refine h.pass_induction (P := fun m p events =>
    m.cache.terms = some (some (.raises text), capacity) →
    p.Doomed (.raised text) ∨ p.Scouts ∧ ¬m.Overlooks place events →
      ∃ before last, events = before ++ [.run place.worker] ∧
        m.GivesUp place before (.raised text) last n) hcoherent hframe ?others ?more ?done
  case others =>
    intro m next p event rest _ hacting hstep ih hterms hmeets
    obtain ⟨before, last, rfl, hgives⟩ := ih ((terms_step hstep).trans hterms)
      (hmeets.imp_right (And.imp_right fun hsees hblind =>
        hsees ((overlooks_cons hstep).mpr ⟨meetsLive_of_apart hacting, hblind⟩)))
    exact ⟨event :: before, last, rfl, .others hacting hstep hgives.acts, hgives.concludes⟩
  case more =>
    intro m next p q rest hproceeds hrest ih hterms hmeets
    have hown := hproceeds.own
    obtain ⟨hsame, hnext⟩ : m.cache.Unaltered next.cache ∧
        (q.Doomed (.raised text) ∨ q.Scouts ∧ ¬next.Overlooks place rest) := by
      rcases hmeets with hdoomed | ⟨hscouts, hsees⟩
      · obtain ⟨hsame, hnext⟩ :=
          Pass.doomed_step hown hdoomed hproceeds.releasable (raises_of_terms hterms)
        exact ⟨hsame, .inl hnext⟩
      · obtain ⟨hsame, hlive, hdead⟩ := Pass.scouts_step hown hscouts hproceeds.releasable
        refine ⟨hsame, ?_⟩
        rw [overlooks_cons hproceeds.ran, hproceeds.meetsLive_eq] at hsees
        cases hmet : p.meetsLive m.cache with
        | true => exact .inl (hlive hmet _)
        | false =>
          have hlater : ¬next.Overlooks place rest := fun hblind => hsees ⟨hmet, hblind⟩
          refine .inr ⟨(hdead hmet).resolve_right fun hclears => hlater ?_, hlater⟩
          exact hrest.overlooks (hproceeds.coherent.step hproceeds.ran) hproceeds.now hclears
    obtain ⟨before, last, rfl, hgives⟩ := ih ((terms_step hproceeds.ran).trans hterms) hnext
    exact ⟨.run place.worker :: before, last, rfl,
      .idle hproceeds.acting hproceeds.ran hsame hgives.acts, hgives.concludes⟩
  case done =>
    intro m answer hconcludes _ hmeets
    have hdoomed := hmeets.resolve_right fun hscouts => hscouts.1
    cases answer with
    | panicked given =>
      cases show given = _ from hdoomed
      exact ⟨[], m, rfl, .refl m, hconcludes⟩
    | _ => cases hdoomed

/-! ### Passes that meet no live entry -/

def Asks (m : Machine layout) (place : Place) (event : Event) : Prop :=
  m.acting event = some place ∧ ∃ survey, m.frameAt place = some (.pass (.weigh survey))

/-- A rule for runs: nothing is stored under a key that has no entry. -/
def Refuses (key : Key) (m : Machine layout) (event : Event) : Prop :=
  ∀ n, m.step event = some n → n.cache.contains key = true → m.cache.contains key = true

instance (key : Key) (m : Machine layout) (event : Event) : Decidable (m.Refuses key event) :=
  match hstep : m.step event with
  | none => isTrue fun n hn => by cases hstep.symm.trans hn
  | some next =>
      decidable_of_iff (next.cache.contains key = true → m.cache.contains key = true)
        ⟨fun h n hn => Option.some.inj (hstep.symm.trans hn) ▸ h, fun h => h next hstep⟩

theorem Returns.leave {c : Cache layout} {answer : Answer}
    (h : n.Returns { c with passLock := none } answer place) :
    c.leave answer place.worker = some n.cache := by
  cases place with
  | client number depth => exact congrArg some h.1.symm
  | sweeper generation =>
    obtain ⟨detached, sweeper, hdetached, hend, hcache⟩ := h
    simp only [Cache.leave, Place.worker, hdetached, hend, Option.bind_some, Option.map_some,
      hcache]

theorem Concludes.left {answer : Answer} (h : m.Concludes place answer n) :
    m.cache.Left n.cache answer place.worker :=
  Cache.left_of_leave h.returns.leave

theorem Concludes.reports {stopped : Bool} (h : m.Concludes place (.flag stopped) n) :
    n.Reports place stopped := by
  cases place with
  | client number depth => exact h.returns.2
  | sweeper generation =>
    rw [Reports, h.left.thread generation rfl]
    cases stopped <;> rfl

/--
A pass that meets no live entry does not ask the evictor, and leaves no key stored but those under
which others have stored something new.  If there are none it tells to stop.
-/
theorem Completes.overlooking {among : Key → Prop} (h : m.Completes place events n)
    (hcoherent : m.Coherent) (hframe : m.frameAt place = some (.pass p))
    (hblind : p.Blind among m.cache) (hoverlooks : m.Overlooks place events)
    (hrefuses : ∀ key, among key → m.Heeds (Refuses key) events) :
    m.Heeds (fun m event => ¬m.Asks place event) events ∧
      (∀ key, among key → n.cache.contains key = false) ∧
        ∃ stopped, n.Reports place stopped ∧ ((∀ key, among key) → stopped = true) := by
  revert hblind hoverlooks hrefuses
  refine h.pass_induction (P := fun m p events =>
    p.Blind among m.cache → m.Overlooks place events →
      (∀ key, among key → m.Heeds (Refuses key) events) →
        m.Heeds (fun m event => ¬m.Asks place event) events ∧
          (∀ key, among key → n.cache.contains key = false) ∧
            ∃ stopped, n.Reports place stopped ∧ ((∀ key, among key) → stopped = true))
    hcoherent hframe ?others ?more ?done
  case others =>
    intro m next p event rest _ hacting hstep ih hblind hoverlooks hrefuses
    have hnext : p.Blind among next.cache :=
      ⟨hblind.point, fun {key} hamong hkey =>
        hblind.faces hamong ((hrefuses key hamong).1 next hstep hkey), hblind.blank⟩
    obtain ⟨hasks, hends⟩ := ih hnext ((overlooks_cons hstep).mp hoverlooks).2
      fun key hamong => (hrefuses key hamong).2 next hstep
    refine ⟨⟨fun hasked => hacting hasked.1, fun other hother => ?_⟩, hends⟩
    cases hstep.symm.trans hother
    exact hasks
  case more =>
    intro m next p q rest hproceeds _ ih hblind hoverlooks hrefuses
    obtain ⟨hlive, hrest⟩ := (overlooks_cons hproceeds.ran).mp hoverlooks
    rw [hproceeds.meetsLive_eq] at hlive
    have hnext := hblind.step hproceeds.own hlive hproceeds.releasable
      (hproceeds.coherent.tidy.sheds hproceeds.was) hproceeds.coherent.placed
    obtain ⟨hasks, hends⟩ :=
      ih hnext hrest fun key hamong => (hrefuses key hamong).2 next hproceeds.ran
    refine ⟨⟨?_, fun other hother => ?_⟩, hends⟩
    · rintro ⟨-, survey, hweighs⟩
      cases hproceeds.was.symm.trans hweighs
      exact (hblind.point.elim id id).elim
    · cases hproceeds.ran.symm.trans hother
      exact hasks
  case done =>
    intro m answer hconcludes hblind _ _
    obtain ⟨stopped, rfl⟩ : ∃ stopped, answer = .flag stopped := by
      cases answer with
      | flag stopped => exact ⟨stopped, rfl⟩
      | _ => exact (hblind.point.elim id id).elim
    refine ⟨⟨?_, fun _ _ => trivial⟩, fun key hamong => ?_, stopped, hconcludes.reports, ?_⟩
    · rintro ⟨-, survey, hweighs⟩
      cases hconcludes.was.symm.trans hweighs
    · rw [Cache.contains, hconcludes.left.store, ← Bool.not_eq_true]
      exact fun hkey => hblind.faces hamong hkey
    · exact fun hall => Answer.flag.inj (hblind.blank hall)

end Machine

end TtlCache
