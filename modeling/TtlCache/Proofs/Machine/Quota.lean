import TtlCache.Proofs.Machine.Balance
import TtlCache.Proofs.Machine.SingleFlight
import TtlCache.Proofs.Machine.Survivors

/-!
# Evictions and the capacity

A pass reads the excess of the evictor once, and what it does afterwards rests on this reading: it
takes no notice of entries that others remove in the meantime.  So it may evict an entry of a cache
that fits its capacity.  What is true is that it spends no more than it has read: when an entry is
evicted the capacity is exceeded, if what others have removed since then is put back, and what was
on its way out at the time of the reading.
-/

namespace TtlCache

variable {layout : Layout} {c d : Cache layout}

/-! ## Losses -/

def Effect.erased? : Effect -> Option Key
  | .erase key => some key
  | _ => none

/-- The key whose entry the next step of an operation removes. -/
def Frame.takes? (c : Cache layout) : Frame -> Option Key
  | .access ⟨key, .forget, .look _⟩ => if c.contains key then some key else none
  | .access ⟨_, _, .perform _ (effect :: _) _⟩ => effect.erased?
  | .pass (.remove (effect :: _) _ _) => effect.erased?
  | _ => none

theorem Effect.size_apply {effect : Effect} (h : effect.apply c = some d)
    (hplaced : c.store.Placed) :
    c.store.size ≤ d.store.size + effect.erased?.toList.length := by
  cases effect with
  | erase key => cases h; exact hplaced.size_le_size_erase key
  | put key value deadline => cases h; exact hplaced.size_le_size_insert key _
  | wake =>
    obtain ⟨sweeper, -, rfl⟩ := Option.map_eq_some_iff.mp h
    exact Nat.le_refl _
  | _ => cases h; exact Nat.le_refl _

theorem Access.size_finding {key : Key} {ticket : Nat} {request : Request} {point : AccessPoint}
    (h : Finding key ticket c request d point) (hplaced : c.store.Placed) :
    c.store.size ≤ d.store.size +
      ((Frame.access ⟨key, request, .look ticket⟩).takes? c).toList.length := by
  cases h with
  | extended present => exact hplaced.size_le_size_insert key _
  | forgotten present =>
    have hcontains : c.contains key = true := by rw [Cache.contains, present]; rfl
    simp only [Frame.takes?, hcontains, if_true]
    exact hplaced.size_le_size_erase key
  | _ => exact Nat.le_add_right _ _

theorem Access.size_step {a : Access} {progress : Progress Access}
    (h : a.step c = some (d, progress)) (hplaced : c.store.Placed) :
    c.store.size ≤ d.store.size + ((Frame.access a).takes? c).toList.length := by
  cases stride_of_step h with
  | @look key request ticket =>
    exact size_finding (finding_look key request (.look ticket) ticket c) hplaced
  | @effect key request ticket effect todo answer after applied =>
    have hsize := effect.size_apply applied hplaced
    cases request <;> exact hsize
  | _ => exact Nat.le_add_right _ _

theorem Pass.size_step {p : Pass} {who : Worker} {progress : Progress Pass}
    (h : p.step who c = some (d, progress)) (hplaced : c.store.Placed) :
    c.store.size ≤ d.store.size + ((Frame.pass p).takes? c).toList.length := by
  have givenUp : ∀ ticket key marks next, c.store.size =
      (giveUp c ticket key marks next).1.store.size :=
    fun ticket key marks next => by rw [(giveUp_spec c ticket key marks next).1]
  cases stride_of_step h with
  | effect applied => exact Effect.size_apply applied hplaced
  | dismiss => exact Nat.le_add_right_of_le (Nat.le_of_eq (givenUp _ _ _ _))
  | removed => exact Nat.le_add_right_of_le (Nat.le_of_eq (givenUp _ _ _ _))
  | unwind => exact Nat.le_add_right_of_le (Nat.le_of_eq (givenUp _ _ _ _))
  | _ => exact Nat.le_add_right _ _

theorem Frame.size_step {frame : Frame} {who : Worker} {progress : Progress Frame}
    (h : frame.step who c = some (d, progress)) (hplaced : c.store.Placed) :
    c.store.size ≤ d.store.size + (frame.takes? c).toList.length := by
  cases stride_of_step h with
  | access step => exact Access.size_step step hplaced
  | pass step => exact Pass.size_step step hplaced
  | _ => exact Nat.le_add_right _ _

namespace Machine

variable {m n : Machine layout} {event : Event} {place : Place}

def takes? (m : Machine layout) (event : Event) : Option Key :=
  ((m.acting event).bind m.frameAt).bind (Frame.takes? m.cache)

theorem size_step (h : m.step event = some n) (hplaced : m.cache.store.Placed) :
    m.cache.store.size ≤ n.cache.store.size + (m.takes? event).toList.length := by
  cases turnout_of_step h with
  | worked acting was step tally_eq store_eq =>
    rw [takes?, acting, Option.bind_some, was, Option.bind_some, store_eq]
    exact Frame.size_step step hplaced
  | apart idle tally_eq size_eq =>
    rw [size_eq hplaced]
    exact Nat.le_add_right _ _

/-- The key whose entry somebody else than the operation at a place removes. -/
def loss? (place : Place) (m : Machine layout) (event : Event) : Option Key :=
  if m.acting event = some place then none else m.takes? event

/-- The keys whose entries are removed in a run by others than the operation at a place. -/
def losses (m : Machine layout) (place : Place) : List Event -> List Key := m.observe (loss? place)

end Machine

/-! ## What a pass has left to spend -/

namespace Pass

def marks : Pass -> List Mark
  | .visit _ _ survey | .acquire _ _ _ _ survey | .judge _ _ _ _ survey | .untrack _ _ _ survey
  | .dismiss _ _ _ _ survey | .release _ _ _ _ survey | .weigh survey | .choose _ survey =>
      survey.marks
  | .remove _ mark marks => mark :: marks
  | .free _ _ marks | .unwind marks _ | .drop _ _ marks _ => marks
  | .enter | .queue | .collect _ _ _ | .decide | .sum _ _ | .leave _ => []

/-- The number of candidates that a pass may still find to have entries. -/
def ahead : Pass -> Nat
  | .choose count _ => count
  | .visit .eviction keys _ | .untrack _ _ keys _ | .dismiss .eviction _ _ keys _
  | .release .eviction _ _ keys _ => keys.length
  | .acquire .eviction _ _ keys _ | .judge .eviction _ _ keys _ => keys.length + 1
  | _ => 0

def weighed : Pass -> Bool
  | .enter | .queue | .collect _ _ _ | .visit .expiry _ _ | .acquire .expiry _ _ _ _
  | .judge .expiry _ _ _ _ | .dismiss .expiry _ _ _ _ | .release .expiry _ _ _ _ | .weigh _ => false
  | _ => true

/-- The number of entries that a pass may still remove. -/
def burden (p : Pass) : Nat := p.ahead + p.relies.length

/-- A pass that evicts nothing. -/
structure Lenient (p : Pass) : Prop where
  ahead : p.ahead = 0
  marks : ∀ mark ∈ p.marks, mark.removal = .expired

def Honest (p : Pass) : Prop := p.weighed = false → ∀ mark ∈ p.marks, mark.removal = .expired

theorem marks_clear (marks : List Mark) : (clear marks).marks = marks := by
  cases marks <;> rfl

theorem ahead_clear (marks : List Mark) : (clear marks).ahead = 0 := by
  cases marks <;> rfl

theorem weighed_clear (marks : List Mark) : (clear marks).weighed = true := by
  cases marks <;> rfl

theorem lenient_clear {marks : List Mark} (h : ∀ mark ∈ marks, mark.removal = .expired) :
    (clear marks).Lenient := ⟨ahead_clear marks, by rwa [marks_clear]⟩

/-- A step of a pass that has asked for the excess: it spends what it takes from the cache. -/
structure Thrifty (c : Cache layout) (p : Pass) (d : Cache layout) (q : Pass) : Prop where
  weighed : q.weighed = true
  lenient : p.Lenient → q.Lenient
  burden : c.store.size + q.burden ≤ d.store.size + p.burden

theorem Thrifty.of_same {p q : Pass} (hweighed : q.weighed = true) (hstore : d.store = c.store)
    (hahead : q.ahead ≤ p.ahead) (hrelies : q.relies.length ≤ p.relies.length)
    (hmarks : ∀ mark ∈ q.marks, mark ∈ p.marks) : Thrifty c p d q where
  weighed := hweighed
  lenient h :=
    ⟨Nat.eq_zero_of_le_zero (h.ahead ▸ hahead), fun mark hmark => h.marks mark (hmarks mark hmark)⟩
  burden := by
    rw [hstore, Pass.burden, Pass.burden]
    omega

theorem thrifty_clear {p : Pass} {marks : List Mark} (hmarks : p.marks = marks)
    (hrelies : p.relies = marks.map Mark.key) (hstore : d.store = c.store) :
    Thrifty c p d (clear marks) :=
  .of_same (weighed_clear marks) hstore (by simp [ahead_clear]) (by simp [relies_clear, hrelies])
    (by simp [marks_clear, hmarks])

theorem thrifty_giveUp {p next : Pass} (ticket : Nat) (key : Key) {marks : List Mark}
    (h : Thrifty c p c next) (hmarks : ∀ mark ∈ marks, mark ∈ p.marks)
    (hrelies : marks.length ≤ p.relies.length) :
    Thrifty c p (giveUp c ticket key marks next).1 (giveUp c ticket key marks next).2 := by
  obtain ⟨hstore, -, -, hsame | ⟨panic, hdrop⟩⟩ := giveUp_spec c ticket key marks next
  · rw [hsame]
    exact ⟨h.weighed, h.lenient, by rw [hstore]; exact h.burden⟩
  · rw [hdrop]
    exact .of_same rfl hstore (Nat.zero_le _) (by simpa [relies] using hrelies) hmarks

theorem thrifty_judge (ticket : Nat) (key : Key) (keys : List Key) (survey : Survey) :
    Thrifty c (.judge .eviction ticket key keys survey) c
      (judgeEviction c ticket key keys survey) := by
  unfold judgeEviction
  split
  · refine ⟨rfl, fun h => absurd h.ahead (Nat.succ_ne_zero _), ?_⟩
    simp only [burden, ahead, relies, Survey.mark, List.length_map, List.length_append,
      List.length_singleton]
    omega
  · exact .of_same rfl rfl (Nat.le_succ _) (Nat.le_refl _) fun _ h => h

theorem thrifty_effect {effect : Effect} {todo : List Effect} {mark : Mark} {marks : List Mark}
    (h : effect.apply c = some d) (hsheds : (Pass.remove (effect :: todo) mark marks).Sheds)
    (hplaced : c.store.Placed) :
    Thrifty c (.remove (effect :: todo) mark marks) d (.remove todo mark marks) := by
  refine ⟨rfl, fun hlenient => ⟨rfl, hlenient.marks⟩, ?_⟩
  have hsize := effect.size_apply h hplaced
  cases hsheds.next with
  | erase =>
    simp [burden, ahead, relies, overwritesFirst, Effect.overwrites, Effect.erased?] at hsize ⊢
    omega
  | untrack =>
    simpa [burden, ahead, relies, overwritesFirst, Effect.overwrites, Effect.erased?] using hsize
  | count =>
    simpa [burden, ahead, relies, overwritesFirst, Effect.overwrites, Effect.erased?] using hsize

theorem thrifty_step {p q : Pass} {who : Worker} (h : p.step who c = some (d, .more q))
    (hweighed : p.weighed = true) (hsheds : p.Sheds) (hplaced : c.store.Placed) :
    Thrifty c p d q := by
  generalize hprogress : Progress.more q = progress at h
  cases stride_of_step h with
  | enter => cases hweighed
  | begin => cases hweighed
  | list => cases hweighed
  | listed => cases hweighed
  | judgeExpiry => cases hweighed
  | weigh => cases hweighed
  | @register round key keys survey =>
    cases hprogress
    cases round
    · cases hweighed
    · exact .of_same rfl rfl (Nat.le_refl _) (Nat.le_refl _) fun _ hmark => hmark
  | @visited round survey =>
    cases hprogress
    cases round
    · cases hweighed
    · exact thrifty_clear rfl rfl rfl
  | @acquire round ticket key keys survey locks acquired =>
    cases hprogress
    cases round
    · cases hweighed
    · exact .of_same rfl rfl (Nat.le_refl _) (Nat.le_refl _) fun _ hmark => hmark
  | judgeEviction => cases hprogress; exact thrifty_judge _ _ _ _
  | @dismiss round ticket key keys survey =>
    cases hprogress
    cases round
    · cases hweighed
    · refine thrifty_giveUp ticket key ?_ (fun _ hmark => hmark) (by simp [relies])
      exact .of_same rfl rfl (Nat.le_refl _) (Nat.le_refl _) fun _ hmark => hmark
  | @release round ticket key keys survey =>
    cases hprogress
    cases round
    · cases hweighed
    · exact .of_same rfl rfl (Nat.le_refl _) (Nat.le_refl _) fun _ hmark => hmark
  | @choose count survey =>
    cases hprogress
    refine .of_same rfl rfl ?_ (Nat.le_refl _) fun _ hmark => hmark
    simp only [ahead, candidates]
    split
    · exact Nat.zero_le _
    · exact List.length_take_le _ _
  | effect applied => cases hprogress; exact thrifty_effect applied hsheds hplaced
  | @removed mark marks =>
    cases hprogress
    refine thrifty_giveUp mark.ticket mark.key ?_ (fun _ => List.mem_cons_of_mem mark)
      (by simp [relies, overwritesFirst])
    exact .of_same rfl rfl (Nat.le_refl _) (by simp [relies, overwritesFirst])
      fun _ => List.mem_cons_of_mem mark
  | free => cases hprogress; exact thrifty_clear rfl rfl rfl
  | @unwind mark marks panic =>
    cases hprogress
    refine thrifty_giveUp mark.ticket mark.key ?_ (fun _ => List.mem_cons_of_mem mark)
      (by simp [relies])
    exact .of_same rfl rfl (Nat.le_refl _) (by simp [relies]) fun _ => List.mem_cons_of_mem mark
  | leave => cases hprogress
  | _ =>
    cases hprogress
    exact .of_same rfl rfl (Nat.le_refl _) (Nat.le_refl _) fun _ hmark => hmark

/-- A pass that has asked for the excess, and may remove so many entries above a capacity. -/
structure Within (capacity room : Nat) (p : Pass) : Prop where
  weighed : p.weighed = true
  spends : p.Lenient ∨ capacity + p.burden ≤ room

theorem Within.mono {capacity room more : Nat} {p : Pass} (h : p.Within capacity room)
    (hmore : room ≤ more) : p.Within capacity more :=
  ⟨h.weighed, h.spends.imp_right fun hspends => Nat.le_trans hspends hmore⟩

theorem Within.step {capacity reserve : Nat} {p q : Pass}
    (h : p.Within capacity (c.store.size + reserve)) (hthrifty : Thrifty c p d q) :
    q.Within capacity (d.store.size + reserve) := by
  refine ⟨hthrifty.weighed, h.spends.imp hthrifty.lenient fun hspends => ?_⟩
  have hburden := hthrifty.burden
  omega

/-- A pass does not go for more entries than the ranking has above the capacity. -/
theorem within_weighExcess {survey : Survey} {evictor : Evictor} {capacity : Nat}
    (hevictor : c.evictor = some evictor)
    (hexcess : evictor.excess = .ok (evictor.worst.length - capacity))
    (hmarks : ∀ mark ∈ survey.marks, mark.removal = .expired) :
    (weighExcess c survey).Within capacity evictor.worst.length := by
  simp only [weighExcess, hevictor, hexcess]
  split
  · exact ⟨weighed_clear _, Or.inl (lenient_clear hmarks)⟩
  · refine ⟨rfl, Or.inr ?_⟩
    simp only [burden, ahead, relies, List.length_map]
    omega

theorem Honest.of_weighed {p : Pass} (h : p.weighed = true) : p.Honest := by
  intro hnot
  rw [h] at hnot
  cases hnot

theorem honest_endRound {survey : Survey} {round : Round}
    (h : (Pass.visit round [] survey).Honest) : (endRound c survey round).Honest := by
  cases round with
  | expiry =>
    simp only [endRound]
    split
    · exact h
    · exact .of_weighed (weighed_clear _)
  | eviction => exact .of_weighed (weighed_clear _)

theorem honest_judgeExpiry {ticket : Nat} {key : Key} {keys : List Key} {survey : Survey}
    (h : (Pass.judge .expiry ticket key keys survey).Honest) :
    (judgeExpiry c ticket key keys survey).Honest := by
  unfold judgeExpiry
  split
  · exact h
  · split
    · intro _ mark hmark
      rcases List.mem_append.mp hmark with hearlier | hnew
      · exact h rfl mark hearlier
      · rw [List.mem_singleton.mp hnew]
    · exact h

theorem honest_giveUp {ticket : Nat} {key : Key} {marks : List Mark} {next : Pass}
    (h : next.Honest) : (giveUp c ticket key marks next).2.Honest := by
  rcases (giveUp_spec c ticket key marks next).2.2.2 with hsame | ⟨panic, hdrop⟩
  · rwa [hsame]
  · rw [hdrop]
    exact .of_weighed rfl

theorem honest_step {p q : Pass} {who : Worker} (h : p.step who c = some (d, .more q))
    (hhonest : p.Honest) : q.Honest := by
  generalize hprogress : Progress.more q = progress at h
  cases stride_of_step h with
  | listed => cases hprogress; exact fun _ => List.forall_mem_nil _
  | @register round => cases hprogress; cases round <;> exact hhonest
  | visited => cases hprogress; exact honest_endRound hhonest
  | @acquire round => cases hprogress; cases round <;> exact hhonest
  | judgeExpiry => cases hprogress; exact honest_judgeExpiry hhonest
  | judgeEviction =>
    cases hprogress
    unfold judgeEviction
    split <;> exact .of_weighed rfl
  | @dismiss round =>
    cases hprogress
    refine honest_giveUp ?_
    cases round <;> exact hhonest
  | @release round => cases hprogress; cases round <;> exact hhonest
  | @weigh survey =>
    cases hprogress
    unfold weighExcess
    split
    · exact .of_weighed (weighed_clear _)
    · split
      · exact .of_weighed rfl
      · split
        · exact .of_weighed (weighed_clear _)
        · exact .of_weighed rfl
  | removed => cases hprogress; exact honest_giveUp (.of_weighed rfl)
  | free => cases hprogress; exact .of_weighed (weighed_clear _)
  | unwind => cases hprogress; exact honest_giveUp (.of_weighed rfl)
  | enter => cases hprogress; exact fun _ => List.forall_mem_nil _
  | begin => cases hprogress; exact fun _ => List.forall_mem_nil _
  | list => cases hprogress; exact fun _ => List.forall_mem_nil _
  | leave => cases hprogress
  | _ => cases hprogress; exact .of_weighed rfl

end Pass

/-- The ranked keys that have no entries. -/
def Cache.strays (c : Cache layout) (evictor : Evictor) : List Key :=
  evictor.worst.filter fun key => !c.contains key

theorem Cache.length_worst_le {evictor : Evictor} (hplaced : c.store.Placed)
    (hsound : evictor.ranking.Sound) :
    evictor.worst.length ≤ c.store.size + (c.strays evictor).length := by
  have hstored : (evictor.worst.filter c.contains).length ≤ c.store.size := by
    rw [← Store.length_keys]
    refine (hsound.nodup_worst.filter _).length_le_of_subset fun key hkey => ?_
    exact hplaced.mem_keys.mpr (List.mem_filter.mp hkey).2
  rw [List.length_eq_length_filter_add c.contains, strays]
  omega

namespace Machine

variable {m n : Machine layout} {event : Event} {place : Place} {policy : Policy}
  {capacity reserve : Nat} {first : Evictor} {config : Config} {clock : Instant}

/-! ## Passes among other operations -/

theorem honest_of_run {earlier : List Event}
    (hrun : (ofConfig layout config clock).runAll earlier = some m) {p : Pass}
    (hframe : m.frameAt place = some (.pass p)) : p.Honest := by
  refine run_induction (P := fun m => ∀ place p, m.frameAt place = some (.pass p) → p.Honest)
    ?_ ?_ hrun place p hframe
  · intro m n event h hstep place p hframe
    cases came_of_step hstep hframe with
    | stood was => exact h place p was
    | began fresh =>
      cases fresh
      exact fun _ => List.forall_mem_nil _
    | stepped was step =>
      obtain ⟨before, rfl, hpass⟩ := Frame.pass_of_step step
      exact Pass.honest_step hpass (h place before was)
  · intro place p hframe
    rw [frameAt_ofConfig] at hframe
    cases hframe

/-- The removals of a pass are covered by what a cache has above its capacity, and what it lost. -/
structure Spending (capacity reserve : Nat) (place : Place) (lost : List Key)
    (m : Machine layout) : Prop where
  coherent : m.Coherent
  reliable : m.Reliable
  within : ∀ {p}, m.frameAt place = some (.pass p) →
    p.Within capacity (m.cache.store.size + lost.length + reserve)

/-- As long as a pass goes on, its own steps and those of others keep it covered. -/
theorem Spending.step {lost : List Key} (h : Spending capacity reserve place lost m)
    (hactive : m.isActive place = true) (hstep : m.step event = some n) :
    Spending capacity reserve place (lost ++ (loss? place m event).toList) n := by
  have hcoherent := h.coherent
  refine ⟨hcoherent.step hstep,
    h.reliable.step hcoherent.owned hcoherent.tidy hstep, fun {p} hframe => ?_⟩
  by_cases hacting : m.acting event = some place
  · rw [loss?, if_pos hacting, Option.toList_none, List.append_nil]
    cases step_cases hstep with
    | aside frames alike acting => cases acting.symm.trans hacting
    | opened other frame fresh free now others alike acting => cases acting.symm.trans hacting
    | ended other access next outcome was after now others same acting event =>
      cases acting.symm.trans hacting
      cases now.symm.trans hframe
    | stepped other frame cache progress was step now others alike acting event kept =>
      cases acting.symm.trans hacting
      rw [now] at hframe
      cases progress with
      | done answer => cases hframe
      | more next =>
        cases hframe
        obtain ⟨before, rfl, hpass⟩ := Frame.pass_of_step step
        have hwithin := h.within was
        rw [Nat.add_assoc] at hwithin ⊢
        rw [kept _ rfl]
        exact hwithin.step (Pass.thrifty_step hpass hwithin.weighed (hcoherent.tidy.sheds was)
          hcoherent.placed)
  · -- the pass stands still, and what is taken counts as lost
    obtain ⟨frame, hwas, -⟩ := (Option.any_eq_true _ _).mp hactive
    have hsame := (frameAt_step hstep hacting hwas).symm.trans hframe
    cases hsame
    have hsize := size_step hstep hcoherent.placed
    refine (h.within hwas).mono ?_
    rw [loss?, if_neg hacting, List.length_append]
    omega

theorem reliable_of_run {earlier : List Event} (horigin : first.Origin)
    (hconfig : config.evictor = some first)
    (hrun : (ofConfig layout config clock).runAll earlier = some m) : m.Reliable := by
  refine (run_induction (P := fun m => m.Coherent ∧ m.Reliable) ?_ ?_ hrun).2
  · rintro m n event ⟨hcoherent, hreliable⟩ hstep
    exact ⟨hcoherent.step hstep, hreliable.step hcoherent.owned hcoherent.tidy hstep⟩
  · exact ⟨coherent_of_origin horigin hconfig (show runAll _ [] = some _ from rfl),
      reliable_ofConfig config clock⟩

/-- A key without an entry is still ranked only while another operation is about to take it off. -/
theorem kept_of_stray (htidy : m.Tidy fun _ => False) (hreliable : m.Reliable) {survey : Survey}
    (hframe : m.frameAt place = some (.pass (.weigh survey))) {now : Evictor}
    (hnow : m.cache.evictor = some now) {stray : Key} (hstray : stray ∈ m.cache.strays now) :
    ∃ other frame, other ≠ place ∧ m.frameAt other = some frame ∧ frame.Keeps stray := by
  obtain ⟨hmem, habsent⟩ := List.mem_filter.mp hstray
  have hnone : m.cache.contains stray ≠ true := by simpa using habsent
  by_contra hkept
  push Not at hkept
  refine hnone (((htidy.free ?_ (by rw [hnow]; rfl)).2 ⟨now, hnow, hmem⟩).resolve_right id)
  intro other frame hother hkeeps
  by_cases hplace : other = place
  · subst hplace
    cases hframe.symm.trans hother
    -- the pass keeps the keys that it has marked, and their entries are there
    obtain ⟨ticket, hclaim⟩ := hkeeps
    obtain ⟨mark, hmark, hsame⟩ := List.mem_map.mp hclaim
    cases hsame
    exact hnone (hreliable _ _ hframe _ (List.mem_map_of_mem hmark))
  · exact hkept other frame hplace hother hkeeps

/--
Whenever a pass evicts an entry, what is stored, what others have removed since the pass asked for
the excess, and what was then on its way out, are together more than the capacity.
-/
theorem evicts_above_capacity_but_for_losses {earlier events : List Event} {survey : Survey}
    {key : Key} {todo : List Effect} {mark : Mark} {marks : List Mark}
    (hbuilt : Evictor.builtIn policy capacity = .ok first) (hconfig : config.evictor = some first)
    (hrun : (ofConfig layout config clock).runAll earlier = some m)
    (hframe : m.frameAt place = some (.pass (.weigh survey)))
    (hthen : m.runAll (.run place.worker :: events) = some n)
    (hstays : m.Heeds (fun m _ => m.isActive place = true) (.run place.worker :: events))
    (hevicts : n.frameAt place = some (.pass (.remove (.erase key :: todo) mark marks)))
    (hmark : mark.removal = .evicted) :
    n.cache.contains key = true ∧ ∃ now, m.cache.evictor = some now ∧
      capacity < n.cache.store.size + (m.losses place (.run place.worker :: events)).length +
        (m.cache.strays now).length ∧
      ∀ stray ∈ m.cache.strays now, ∃ other frame, other ≠ place ∧
        m.frameAt other = some frame ∧ frame.Keeps stray := by
  have horigin : first.Origin := .builtIn hbuilt
  have hcoherent := coherent_of_origin horigin hconfig hrun
  have hreliable := reliable_of_run horigin hconfig hrun
  have htidy := tidy_of_builtIn hbuilt hconfig hrun
  obtain ⟨now, hnow, hterms⟩ := evictor_of_run hconfig hrun
  have hsound := hcoherent.tidy.ranked now hnow
  have hexcess := Evictor.excess_of_terms (hterms.trans (Evictor.terms_builtIn hbuilt)) hsound
  -- the first step asks for the excess
  have hweigh : (Pass.weigh survey).step place.worker m.cache =
      some (m.cache, .more (Pass.weighExcess m.cache survey)) := rfl
  obtain ⟨weighed, hfirst, hcache, hthere⟩ := (hcoherent.alone hframe).advance hweigh
  have hstep : m.step (.run place.worker) = some weighed := hfirst
  obtain ⟨next, hnext, hrest⟩ := Option.bind_eq_some_iff.mp hthen
  cases hstep.symm.trans hnext
  have hspending : Spending capacity (m.cache.strays now).length place
      (loss? place m (.run place.worker)).toList weighed := by
    refine ⟨hthere.coherent, hreliable.step hcoherent.owned hcoherent.tidy hstep, ?_⟩
    intro p hp
    cases hthere.frame.symm.trans hp
    have hwithin : (Pass.weighExcess m.cache survey).Within capacity now.worst.length :=
      Pass.within_weighExcess hnow hexcess (honest_of_run hrun hframe rfl)
    refine hwithin.mono ?_
    have hlength := Cache.length_worst_le hcoherent.placed hsound
    rw [hcache]
    omega
  have hend := observe_induction (P := Spending capacity (m.cache.strays now).length place)
    (fun h hactive hstep => h.step hactive hstep) hspending (hstays.2 weighed hstep) hrest
  have hlosses : (loss? place m (.run place.worker)).toList ++
      weighed.observe (loss? place) events = m.losses place (.run place.worker :: events) := by
    rw [losses, observe, hstep]
  rw [hlosses] at hend
  have hkey : key = mark.key := by
    have hsheds : (Pass.remove (.erase key :: todo) mark marks).Sheds :=
      hend.coherent.tidy.sheds hevicts
    cases hsheds.next
    rfl
  refine ⟨?_, now, hnow, ?_, fun stray hstray => kept_of_stray htidy hreliable hframe hnow hstray⟩
  · rw [hkey]
    exact hend.reliable _ _ hevicts _ List.mem_cons_self
  · rcases (hend.within hevicts).spends with hlenient | hspends
    · have hexpired := hlenient.marks mark List.mem_cons_self
      rw [hmark] at hexpired
      cases hexpired
    · have hburden : 0 < (Pass.remove (.erase key :: todo) mark marks).burden :=
        Nat.succ_pos _
      omega

/-- Two entries where there is room for one, and a pass that is about to ask for the excess. -/
def overfull : List Event :=
  creation 0 "a" leastTtl .unit ++ [.call 0 (.access "a" (.extend ⟨100⟩))] ++
    List.replicate 5 (.run (.client 0)) ++ creation 0 "b" leastTtl .unit ++
      [.call 0 (.access "b" (.extend ⟨100⟩))] ++ List.replicate 5 (.run (.client 0)) ++
        [.call 1 .purge] ++ List.replicate 15 (.run (.client 1))

/-- Where nobody else removes anything, the entry that is evicted is one too many. -/
theorem evicts_above_capacity_but_for_losses_alone :
    ∃ (m n : Machine .flat) (now : Evictor) (todo : List Effect) (mark : Mark),
      runAll (ofConfig .flat keepLast ⟨0⟩) overfull = some m ∧ m.cache.evictor = some now ∧
      m.runAll (List.replicate 6 (.run (.client 1))) = some n ∧
      n.frameAt (.client 1 0) = some (.pass (.remove (.erase "a" :: todo) mark [])) ∧
      mark.removal = .evicted ∧ n.cache.contains "a" = true ∧ 1 < n.cache.store.size := by
  have hbuilt : Evictor.builtIn .recency 1 = .ok ⟨.recency ⟨1, .empty, .empty⟩, none⟩ := rfl
  obtain ⟨m, hrun, ⟨survey, hframe⟩, ⟨now, hnow, hstrays⟩, hstays, hlosses, n, hthen, hevicts⟩ :
      ∃ m : Machine .flat, runAll (ofConfig .flat keepLast ⟨0⟩) overfull = some m ∧
        (∃ survey, m.frameAt (.client 1 0) = some (.pass (.weigh survey))) ∧
        (∃ now, m.cache.evictor = some now ∧ m.cache.strays now = []) ∧
        m.Heeds (fun m _ => m.isActive (.client 1 0) = true)
          (.run (.client 1) :: List.replicate 5 (.run (.client 1))) ∧
        m.losses (.client 1 0) (.run (.client 1) :: List.replicate 5 (.run (.client 1))) = [] ∧
        ∃ n, m.runAll (.run (.client 1) :: List.replicate 5 (.run (.client 1))) = some n ∧
          n.frameAt (.client 1 0) = some (.pass (.remove
            [.erase "a", .untrack "a", .count .eviction] ⟨6, "a", .evicted⟩ [])) :=
    ⟨_, rfl, ⟨_, rfl⟩, ⟨_, rfl, by decide⟩, by decide +kernel, by decide +kernel, _, rfl, rfl⟩
  obtain ⟨hcontains, same, hsame, habove, -⟩ := evicts_above_capacity_but_for_losses hbuilt rfl
    hrun hframe hthen hstays hevicts rfl
  cases hnow.symm.trans hsame
  simp only [Place.worker, hlosses, hstrays] at habove
  exact ⟨m, n, now, _, _, hrun, hnow, hthen, hevicts, rfl, hcontains, habove⟩

/--
A pass reads that one entry is too many.  Then another client removes the other entry, and the pass
still evicts the last one, though the cache fits its capacity.
-/
theorem stale_excess_evicts_at_capacity :
    ∃ (m n o : Machine .flat) (events : List Event) (todo : List Effect) (mark : Mark),
      runAll (ofConfig .flat keepLast ⟨0⟩) overfull = some m ∧ m.cache.store.size = 2 ∧
      m.runAll (.run (.client 1) :: events) = some n ∧
      m.Heeds (fun m _ => m.isActive (.client 1 0) = true) (.run (.client 1) :: events) ∧
      m.losses (.client 1 0) (.run (.client 1) :: events) = ["b"] ∧
      n.frameAt (.client 1 0) = some (.pass (.remove (.erase "a" :: todo) mark [])) ∧
      mark.removal = .evicted ∧ n.cache.store.size = 1 ∧ n.cache.contains "a" = true ∧
      n.runAll (List.replicate 3 (.run (.client 1))) = some o ∧ o.cache.store.size = 0 ∧
      o.cache.tally.evictions = n.cache.tally.evictions + 1 :=
  ⟨_, _, _, [.call 2 (.access "b" .forget)] ++ List.replicate 6 (.run (.client 2)) ++
      List.replicate 5 (.run (.client 1)), [.untrack "a", .count .eviction], ⟨7, "a", .evicted⟩,
    rfl, rfl, rfl, by decide +kernel, by decide +kernel, rfl, rfl, rfl, rfl, rfl, rfl, rfl⟩

end Machine

end TtlCache
