import Mathlib.Data.List.Induction
import TtlCache.Proofs.Machine.Chronicle

/-!
# What stands in a record

An entry stands from the line on which it is stored until a line on which it is replaced, removed
or evicted; extensions move its deadline meanwhile.  This is the ledger of a key without a fold.
What stands and has not expired is what a lookup finds.
-/

namespace TtlCache

variable {layout : Layout}

/-- Whether a line puts an end to what stood under a key before. -/
def Note.replaces (key : Key) : Note -> Bool
  | .stored k _ _ | .evicted k _ | .looked k _ .forget _ => decide (k = key)
  | _ => false

def Line.postpone (key : Key) (deadline : Instant) (line : Line) : Instant :=
  match line.note with
  | .looked k _ (.extend later) (some _) => if k = key then later else deadline
  | _ => deadline

/-- An entry as it is after some lines that do not replace it. -/
def Entry.after (entry : Entry) (key : Key) (lines : List Line) : Entry :=
  { entry with deadline := lines.foldl (Line.postpone key) entry.deadline }

/-- Whether an entry was stored under a key and stands, with its deadline as last moved. -/
def Stands (log : List Line) (key : Key) (entry : Entry) : Prop :=
  ∃ before clock ticket stored since,
    log = before ++ ⟨clock, .stored key ticket stored⟩ :: since ∧
      (∀ line ∈ since, line.note.replaces key = false) ∧ entry = stored.after key since

theorem Line.settle_of_kept {key : Key} {line : Line} (h : line.note.replaces key = false)
    (entry : Option Entry) :
    line.settle key entry = entry.map fun entry => entry.after key [line] := by
  unfold settle
  split
  · next k ticket new hnote =>
    have hkey : k ≠ key := by simpa [hnote, Note.replaces] using h
    simp [hkey, Entry.after, postpone, hnote]
  · next k ticket deadline seen hnote =>
    split
    · next hkey => simp [hkey, Entry.after, postpone, hnote, Entry.extend]
    · next hkey => simp [hkey, Entry.after, postpone, hnote]
  · next k ticket seen hnote =>
    have hkey : k ≠ key := by simpa [hnote, Note.replaces] using h
    simp [hkey, Entry.after, postpone, hnote]
  · next k ticket hnote =>
    have hkey : k ≠ key := by simpa [hnote, Note.replaces] using h
    simp [hkey, Entry.after, postpone, hnote]
  · next _ _ hextend _ _ =>
    have hkept : ∀ deadline, line.postpone key deadline = deadline := by
      intro deadline
      unfold postpone
      split
      · next hnote => exact (hextend _ _ _ _ hnote).elim
      · rfl
    simp [Entry.after, hkept]

theorem Line.settle_of_replaces {key : Key} {line : Line} {entry : Option Entry} {new : Entry}
    (h : line.note.replaces key = true) :
    line.settle key entry = some new ↔ ∃ ticket, line.note = .stored key ticket new := by
  cases hnote : line.note with
  | stored k ticket stored =>
    have hkey : k = key := by simpa [hnote, Note.replaces] using h
    simp [settle, hnote, hkey]
  | evicted k ticket =>
    have hkey : k = key := by simpa [hnote, Note.replaces] using h
    simp [settle, hnote, hkey]
  | looked k ticket request seen =>
    cases request with
    | forget =>
      have hkey : k = key := by simpa [hnote, Note.replaces] using h
      simp [settle, hnote, hkey]
    | get kind => simp [hnote, Note.replaces] at h
    | create kind ttl => simp [hnote, Note.replaces] at h
    | extend deadline => simp [hnote, Note.replaces] at h
  | granted k ticket => simp [hnote, Note.replaces] at h
  | provided k ticket request => simp [hnote, Note.replaces] at h
  | returned k ticket value ttl => simp [hnote, Note.replaces] at h
  | answered k ticket answer => simp [hnote, Note.replaces] at h

theorem Stands.append_iff {log : List Line} {line : Line} {key : Key} {entry : Entry} :
    Stands (log ++ [line]) key entry ↔
      (∃ ticket, line.note = .stored key ticket entry) ∨
        line.note.replaces key = false ∧
          ∃ old, Stands log key old ∧ entry = old.after key [line] := by
  constructor
  · rintro ⟨before, clock, ticket, stored, since, hsplit, hkept, rfl⟩
    rcases List.eq_nil_or_concat since with rfl | ⟨rest, last, rfl⟩
    · obtain ⟨-, hline⟩ := List.append_inj' hsplit rfl
      cases hline
      exact Or.inl ⟨ticket, rfl⟩
    · rw [List.concat_eq_append] at hsplit hkept ⊢
      rw [← List.cons_append, ← List.append_assoc] at hsplit
      obtain ⟨rfl, hline⟩ := List.append_inj' hsplit rfl
      cases hline
      have hlast := hkept _ (List.mem_append_right _ List.mem_cons_self)
      refine Or.inr ⟨hlast, stored.after key rest, ?_, ?_⟩
      · refine ⟨before, clock, ticket, stored, rest, rfl, fun other hother => ?_, rfl⟩
        exact hkept other (List.mem_append_left _ hother)
      · simp [Entry.after]
  · rintro (⟨ticket, hnote⟩ | ⟨hkept, old, hstands, rfl⟩)
    · refine ⟨log, line.clock, ticket, entry, [], ?_, List.forall_mem_nil _, rfl⟩
      rw [← hnote]
    · obtain ⟨before, clock, ticket, stored, since, rfl, hsince, rfl⟩ := hstands
      refine ⟨before, clock, ticket, stored, since ++ [line], by simp, ?_, by simp [Entry.after]⟩
      intro other hother
      rcases List.mem_append.mp hother with hmem | hlast
      · exact hsince other hmem
      · rw [List.mem_singleton.mp hlast]
        exact hkept

/-- The ledger has what stands. -/
theorem ledger_eq_some_iff {log : List Line} {key : Key} {entry : Entry} :
    ledger log key = some entry ↔ Stands log key entry := by
  induction log using List.reverseRecOn generalizing entry with
  | nil => simp [ledger, Stands]
  | append_singleton log line ih =>
    rw [ledger_append, Stands.append_iff]
    cases hreplaces : line.note.replaces key with
    | true =>
      rw [Line.settle_of_replaces hreplaces]
      simp
    | false =>
      have hnot : ¬∃ ticket, line.note = .stored key ticket entry := by
        rintro ⟨ticket, hnote⟩
        simp [hnote, Note.replaces] at hreplaces
      rw [Line.settle_of_kept hreplaces, Option.map_eq_some_iff]
      simp only [hnot, ih, true_and, false_or]
      exact exists_congr fun old => and_congr_right fun _ => eq_comm

theorem liveAt_ledger_iff {log : List Line} {key : Key} {now : Instant} {entry : Entry} :
    liveAt now (ledger log key) = some entry ↔
      Stands log key entry ∧ now.nanos < entry.deadline.nanos := by
  rw [liveAt_eq_some_iff, ledger_eq_some_iff]
  simp [Entry.isExpired]

end TtlCache
