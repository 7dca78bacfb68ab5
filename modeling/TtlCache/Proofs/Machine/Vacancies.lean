import TtlCache.Proofs.Machine.Answers
import TtlCache.Proofs.Machine.Attendance

/-!
# Keys that nobody is about

The lock table has a record for a key only while some operation holds the key or waits for it.  So
whoever comes for a key that nobody else is about gets it at once.
-/

namespace TtlCache

variable {layout : Layout}

namespace LockTable

variable {κ : Type} [DecidableEq κ] {t : LockTable κ}

/-- The first guard of a key gets a mutex that nobody has had before. -/
theorem Sound.acquires_join (h : t.Sound) {key : κ} (hkey : t.records.get? key = none) :
    ∃ u, (t.join key .waiting).acquire? t.nextTicket = some u := by
  have hguard := get?_guards_join t key .waiting t.nextTicket
  rw [if_pos rfl, recordFor_of_none hkey] at hguard
  refine ⟨_, acquire?_eq_some_iff.mpr ⟨_, hguard, rfl, ?_, rfl⟩⟩
  rw [← Bool.not_eq_true, isLocked_iff]
  rintro ⟨ticket, guard, hother, hmutex, hstage⟩
  rw [get?_guards_join] at hother
  split at hother
  · cases hother
    exact hstage rfl
  · have hlt := h.mutex_lt hother
    rw [hmutex] at hlt
    exact Nat.lt_irrefl _ hlt

end LockTable

namespace Machine

variable {m n : Machine layout} {key : Key}

/-- No operation in progress holds a key or waits for it. -/
def Vacant (m : Machine layout) (key : Key) : Prop :=
  ∀ place frame, m.frameAt place = some frame → ∀ claim ∈ frame.claims, claim.key = key →
    claim.stage = .leaving

theorem Coherent.records_eq_none (h : m.Coherent) (hvacant : m.Vacant key) :
    m.cache.locks.records.get? key = none := by
  cases hrecord : m.cache.locks.records.get? key with
  | none => rfl
  | some record =>
    have hregistered := h.owned.sound.wanted hrecord
    rw [h.owned.sound.counted hrecord, LockTable.registered, List.countP_pos_iff] at hregistered
    obtain ⟨⟨ticket, guard⟩, hrow, hguard⟩ := hregistered
    obtain ⟨hown, hstage⟩ := of_decide_eq_true hguard
    have hget := Table.get?_eq_some_iff.mpr hrow
    obtain ⟨place, frame, hframe, hticket⟩ :=
      h.attended.claimed (Table.mem_keys_iff.mpr (Option.isSome_of_eq_some hget))
    obtain ⟨claim, hclaim, rfl⟩ := List.mem_map.mp hticket
    obtain ⟨same, hsame, hsamekey, hsamestage⟩ := (h.owned.bears hframe).granted hclaim
    cases hget.symm.trans hsame
    have hleaving := hvacant place frame hframe claim hclaim (hsamekey.symm.trans hown)
    exact absurd (hsamestage.trans hleaving) hstage

theorem eq_begin_of_opening {request : Request} {frame : Frame}
    (h : opening (.access key request) = .more frame) : frame = .access (.begin key request) := by
  cases request with
  | create kind ttl =>
    simp only [opening] at h
    split at h <;> cases h
    rfl
  | _ =>
    cases h
    rfl

theorem call_of_mayCall {number : Nat} {request : Call} {frame : Frame}
    (hopening : opening request = .more frame) (hmay : (m.client number).mayCall = true)
    (hhandles : 0 < m.clientHandles) :
    m.step (.call number request) = some (m.setClient number
      { stack := frame :: (m.client number).stack, answer := none }) := by
  simp only [step, call, hopening, hmay, hhandles, decide_true, Bool.and_true, if_true]

theorem spec_of_call {number : Nat} {request : Call} {frame : Frame}
    (hopening : opening request = .more frame) (h : m.step (.call number request) = some n) :
    n.cache = m.cache ∧ (n.client number).stack = frame :: (m.client number).stack := by
  simp only [step, call, hopening, Option.ite_none_right_eq_some, Option.some.injEq] at h
  obtain ⟨-, rfl⟩ := h
  exact ⟨rfl, by rw [client_setClient, if_pos rfl]⟩

/-- Who comes for a key that nobody is about has it after two steps, and only locks have changed. -/
theorem Coherent.comes_to_look (h : m.Coherent) (hvacant : m.Vacant key) {number : Nat}
    {request : Request} {frame : Frame} (hopening : opening (.access key request) = .more frame)
    (hcall : m.step (.call number (.access key request)) = some n) :
    ∃ ticket last, n.runAll [.run (.client number), .run (.client number)] = some last ∧
      (last.client number).stack =
        .access ⟨key, request, .look ticket⟩ :: (m.client number).stack ∧
      last.cache = { m.cache with locks := last.cache.locks } := by
  obtain ⟨hcache, hstack⟩ := spec_of_call hopening hcall
  rw [eq_begin_of_opening hopening] at hstack
  have hregister : (Access.begin key request).step n.cache =
      some ({ n.cache with locks := n.cache.locks.join key .waiting },
        .more ⟨key, request, .acquire n.cache.locks.nextTicket⟩) := by
    simp only [Access.step, Access.begin, LockTable.register_eq, Access.moveTo]
  obtain ⟨middle, hmiddle, hlocks, hwaiting⟩ := run_more hstack hregister
  obtain ⟨locks, hacquired⟩ :=
    (h.step hcall).owned.sound.acquires_join (hcache ▸ h.records_eq_none hvacant)
  have hacquire : Access.step ⟨key, request, .acquire n.cache.locks.nextTicket⟩ middle.cache =
      some ({ middle.cache with locks := locks },
        .more ⟨key, request, .look n.cache.locks.nextTicket⟩) := by
    simp only [Access.step, hlocks, hacquired, Option.map_some, Access.moveTo]
  obtain ⟨last, hlast, hgranted, hlooking⟩ := run_more hwaiting hacquire
  refine ⟨_, last, ?_, hlooking, by rw [hgranted, hlocks, hcache]⟩
  rw [runAll_cons, hmiddle, Option.bind_some, runAll_cons, hlast]
  rfl

theorem Coherent.takes_at_once (h : m.Coherent) (hvacant : m.Vacant key) {number : Nat}
    {request : Request} {frame : Frame} (hopening : opening (.access key request) = .more frame)
    (hcall : m.step (.call number (.access key request)) = some n) :
    ∃ ticket last, n.runAll [.run (.client number), .run (.client number)] = some last ∧
      (last.client number).stack =
        .access ⟨key, request, .look ticket⟩ :: (m.client number).stack := by
  obtain ⟨ticket, last, hlast, hlooking, -⟩ := h.comes_to_look hvacant hopening hcall
  exact ⟨ticket, last, hlast, hlooking⟩

end Machine

end TtlCache
