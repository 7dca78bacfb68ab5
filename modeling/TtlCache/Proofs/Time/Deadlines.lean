import Mathlib
import TtlCache.Time

/-!
# Deadlines past the end of time

A duration that leads past the end of time is halved until it does not.  What is left of it is at
least half of the time that there is, rounded up, and seldom all of it: only if the duration, cut
down to some of its leading bits, happens to be just that time.  So a longer life may end earlier,
but never leave less than half as much time.
-/

namespace TtlCache

theorem Duration.nanos_half_iterate (d : Duration) (halvings : Nat) :
    (Duration.half^[halvings] d).nanos = d.nanos / 2 ^ halvings := by
  induction halvings generalizing d with
  | zero => simp
  | succ halvings ih =>
    rw [Function.iterate_succ_apply, ih, Duration.half, Nat.div_div_eq_div_mul, Nat.pow_succ']

theorem Duration.longest_lt : longest.nanos < 2 ^ 94 := by decide

namespace Instant

theorem add?_eq_some_iff {now deadline : Instant} {d : Duration} :
    now.add? d = some deadline ↔
      now.nanos + d.nanos ≤ last.nanos ∧ deadline = ⟨now.nanos + d.nanos⟩ := by
  rw [add?]
  split
  · next hfits => simp [hfits, eq_comm]
  · next hexceeds => simp [hexceeds]

theorem add?_eq_none_iff {now : Instant} {d : Duration} :
    now.add? d = none ↔ last.nanos < now.nanos + d.nanos := by
  rw [add?]
  split
  · next hfits => simpa using hfits
  · next hexceeds => simpa using hexceeds

/-- The sum of an instant and a duration is an instant, `deadline`, once the duration has been
halved so many times, and not before. -/
structure FitsAfter (now : Instant) (ttl : Duration) (halvings : Nat) (deadline : Instant) :
    Prop where
  fits : now.add? (Duration.half^[halvings] ttl) = some deadline
  exceeds : ∀ fewer < halvings, now.add? (Duration.half^[fewer] ttl) = none

/-- The sum becomes an instant in the end; a duration is halved no more often than it has bits. -/
theorem fitsAfter_deadlineAfter {now : Instant} (hnow : now.nanos ≤ last.nanos) (ttl : Duration) :
    ∃ halvings, now.FitsAfter ttl halvings (now.deadlineAfter ttl) ∧
      ∀ bits, ttl.nanos < 2 ^ bits → halvings ≤ bits := by
  fun_induction deadlineAfter now ttl with
  | case1 ttl deadline hfits => exact ⟨0, ⟨hfits, by simp⟩, by simp⟩
  | case2 ttl hexceeds hzero =>
    rw [add?_eq_none_iff, hzero] at hexceeds
    exact absurd hnow (Nat.not_le_of_lt hexceeds)
  | case3 ttl hexceeds hpositive ih =>
    obtain ⟨halvings, h, hbits⟩ := ih
    refine ⟨halvings + 1, ⟨h.fits, fun fewer hfewer => ?_⟩, fun bits hlt => ?_⟩
    · cases fewer with
      | zero => exact hexceeds
      | succ fewer => exact h.exceeds fewer (Nat.lt_of_succ_lt_succ hfewer)
    · cases bits with
      | zero => exact absurd (Nat.lt_one_iff.mp hlt) hpositive
      | succ bits =>
        have hhalf : ttl.half.nanos < 2 ^ bits := by
          rw [Nat.pow_succ] at hlt
          exact Nat.div_lt_of_lt_mul (by rwa [Nat.mul_comm])
        exact Nat.succ_le_succ (hbits bits hhalf)

namespace FitsAfter

variable {now deadline : Instant} {ttl : Duration} {halvings : Nat}

theorem nanos_eq (h : now.FitsAfter ttl halvings deadline) :
    deadline.nanos = now.nanos + ttl.nanos / 2 ^ halvings := by
  rw [(add?_eq_some_iff.mp h.fits).2, Duration.nanos_half_iterate]

theorem le_last (h : now.FitsAfter ttl halvings deadline) : deadline.nanos ≤ last.nanos := by
  obtain ⟨hfits, rfl⟩ := add?_eq_some_iff.mp h.fits
  exact hfits

theorem lt_of_lt (h : now.FitsAfter ttl halvings deadline) {fewer : Nat}
    (hfewer : fewer < halvings) :
    last.nanos < now.nanos + ttl.nanos / 2 ^ fewer := by
  rw [← Duration.nanos_half_iterate]
  exact add?_eq_none_iff.mp (h.exceeds fewer hfewer)

theorem le_of_fits (h : now.FitsAfter ttl halvings deadline) {enough : Nat}
    (hfits : now.nanos + ttl.nanos / 2 ^ enough ≤ last.nanos) : halvings ≤ enough := by
  by_contra hfew
  exact absurd hfits (Nat.not_le_of_lt (h.lt_of_lt (Nat.lt_of_not_le hfew)))

end FitsAfter

variable {now : Instant} {ttl : Duration}

theorem deadlineAfter_of_fits (hfits : now.nanos + ttl.nanos ≤ last.nanos) :
    now.deadlineAfter ttl = ⟨now.nanos + ttl.nanos⟩ := by
  rw [deadlineAfter, add?_eq_some_iff.mpr ⟨hfits, rfl⟩]

theorem deadlineAfter_le_last (hnow : now.nanos ≤ last.nanos) (ttl : Duration) :
    (now.deadlineAfter ttl).nanos ≤ last.nanos := by
  obtain ⟨halvings, h, -⟩ := fitsAfter_deadlineAfter hnow ttl
  exact h.le_last

/-- A duration that is too long leaves at least half of the time that there is, rounded up. -/
theorem half_le_deadlineAfter (hnow : now.nanos ≤ last.nanos)
    (hexceeds : last.nanos < now.nanos + ttl.nanos) :
    now.nanos + (last.nanos - now.nanos + 1) / 2 ≤ (now.deadlineAfter ttl).nanos := by
  obtain ⟨halvings, h, -⟩ := fitsAfter_deadlineAfter hnow ttl
  cases halvings with
  | zero =>
    have hfits := h.le_last
    rw [h.nanos_eq, Nat.pow_zero, Nat.div_one] at hfits
    exact absurd hexceeds (Nat.not_lt_of_le hfits)
  | succ halvings =>
    -- before the last halving the duration was longer than the time that there is
    have hbefore := h.lt_of_lt (Nat.lt_succ_self halvings)
    rw [h.nanos_eq, Nat.pow_succ, ← Nat.div_div_eq_div_mul]
    omega

theorem lt_deadlineAfter_iff (hnow : now.nanos ≤ last.nanos) :
    now.nanos < (now.deadlineAfter ttl).nanos ↔ 0 < ttl.nanos ∧ now.nanos < last.nanos := by
  by_cases hfits : now.nanos + ttl.nanos ≤ last.nanos
  · rw [deadlineAfter_of_fits hfits]
    change now.nanos < now.nanos + ttl.nanos ↔ _
    omega
  · have hhalf := half_le_deadlineAfter hnow (Nat.lt_of_not_le hfits)
    have hlast := deadlineAfter_le_last hnow ttl
    omega

theorem deadlineAfter_le_add (now : Instant) (ttl : Duration) :
    (now.deadlineAfter ttl).nanos ≤ now.nanos + ttl.nanos := by
  fun_induction deadlineAfter now ttl with
  | case1 ttl deadline hfits => rw [(add?_eq_some_iff.mp hfits).2]
  | case2 ttl hexceeds hzero => exact Nat.le_add_right _ _
  | case3 ttl hexceeds hpositive ih =>
    exact Nat.le_trans ih (Nat.add_le_add_left (Nat.div_le_self _ _) _)

/-- A deadline is the latest instant there can be exactly if the sum is an instant, or if some
leading bits of the duration are the time that there is. -/
theorem deadlineAfter_eq_min_iff (hnow : now.nanos ≤ last.nanos) :
    (now.deadlineAfter ttl).nanos = min (now.nanos + ttl.nanos) last.nanos ↔
      now.nanos + ttl.nanos ≤ last.nanos ∨
        ∃ halvings, ttl.nanos / 2 ^ halvings = last.nanos - now.nanos := by
  by_cases hfits : now.nanos + ttl.nanos ≤ last.nanos
  · rw [deadlineAfter_of_fits hfits]
    simp [hfits]
  · obtain ⟨halvings, h, -⟩ := fitsAfter_deadlineAfter hnow ttl
    rw [Nat.min_eq_right (Nat.le_of_not_le hfits), h.nanos_eq]
    constructor
    · intro hlast
      exact .inr ⟨halvings, by omega⟩
    · rintro (hsum | ⟨enough, henough⟩)
      · exact absurd hsum hfits
      · -- fewer halvings leave no less, and no more than there is
        have hle := h.le_of_fits (show now.nanos + ttl.nanos / 2 ^ enough ≤ last.nanos by omega)
        have hmore : ttl.nanos / 2 ^ enough ≤ ttl.nanos / 2 ^ halvings :=
          Nat.div_le_div_left (Nat.pow_le_pow_right (by omega) hle) (Nat.two_pow_pos _)
        have hlast := h.le_last
        rw [h.nanos_eq] at hlast
        omega

theorem lifetime_le_double (hnow : now.nanos ≤ last.nanos) {longer : Duration}
    (hlonger : ttl.nanos ≤ longer.nanos) :
    (now.deadlineAfter ttl).nanos - now.nanos ≤
      2 * ((now.deadlineAfter longer).nanos - now.nanos) := by
  have hadd := deadlineAfter_le_add now ttl
  by_cases hfits : now.nanos + longer.nanos ≤ last.nanos
  · rw [deadlineAfter_of_fits hfits]
    change _ ≤ 2 * (now.nanos + longer.nanos - now.nanos)
    omega
  · have hhalf := half_le_deadlineAfter hnow (Nat.lt_of_not_le hfits)
    have hlast := deadlineAfter_le_last hnow ttl
    omega

/--
A deadline is the sum of instant and duration with as many of the last bits of the duration left out
as it takes to have an instant.  It is the sum itself, or the latest instant there is if the sum
lies past it, exactly if no bit is left out or what is left is all the time that there is.  As long
as no bit is left out a longer life ends no earlier, and it never leaves less than half as much
time.
-/
theorem deadlines_leave_out_bits (hnow : now.nanos ≤ last.nanos) (ttl : Duration) :
    (∃ halvings, now.FitsAfter ttl halvings (now.deadlineAfter ttl) ∧
      (now.deadlineAfter ttl).nanos = now.nanos + ttl.nanos / 2 ^ halvings) ∧
    ((now.deadlineAfter ttl).nanos = min (now.nanos + ttl.nanos) last.nanos ↔
      now.nanos + ttl.nanos ≤ last.nanos ∨
        ∃ halvings, ttl.nanos / 2 ^ halvings = last.nanos - now.nanos) ∧
    ∀ longer : Duration, ttl.nanos ≤ longer.nanos →
      (now.nanos + longer.nanos ≤ last.nanos →
        (now.deadlineAfter ttl).nanos ≤ (now.deadlineAfter longer).nanos) ∧
      (now.deadlineAfter ttl).nanos - now.nanos ≤
        2 * ((now.deadlineAfter longer).nanos - now.nanos) := by
  obtain ⟨halvings, h, -⟩ := fitsAfter_deadlineAfter hnow ttl
  refine ⟨⟨halvings, h, h.nanos_eq⟩, deadlineAfter_eq_min_iff hnow, fun longer hlonger =>
    ⟨fun hfits => ?_, lifetime_le_double hnow hlonger⟩⟩
  rw [deadlineAfter_of_fits hfits]
  exact Nat.le_trans (deadlineAfter_le_add now ttl) (Nat.add_le_add_left hlonger _)

/-- From the origin on, a duration as long as all of time has its last bit left out once it is a
nanosecond longer. -/
theorem deadlines_leave_out_bits_origin :
    (⟨0⟩ : Instant).nanos ≤ last.nanos ∧
      ∃ halvings, (⟨0⟩ : Instant).FitsAfter ⟨last.nanos + 1⟩ halvings
          ((⟨0⟩ : Instant).deadlineAfter ⟨last.nanos + 1⟩) ∧
        ((⟨0⟩ : Instant).deadlineAfter ⟨last.nanos + 1⟩).nanos =
          0 + (last.nanos + 1) / 2 ^ halvings :=
  ⟨Nat.zero_le _, (deadlines_leave_out_bits (Nat.zero_le _) ⟨last.nanos + 1⟩).1⟩

/-- A nanosecond more of life ends it in mid-time, where it was to end with time itself. -/
theorem longer_life_ends_earlier :
    (⟨last.nanos⟩ : Duration).nanos ≤ (⟨last.nanos + 1⟩ : Duration).nanos ∧
      (⟨0⟩ : Instant).deadlineAfter ⟨last.nanos⟩ = last ∧
      (⟨0⟩ : Instant).deadlineAfter ⟨last.nanos + 1⟩ = ⟨4611686018427387904 * nanosPerSecond⟩ ∧
      ((⟨0⟩ : Instant).deadlineAfter ⟨last.nanos + 1⟩).nanos ≠
        min (0 + (last.nanos + 1)) last.nanos ∧
      ((⟨0⟩ : Instant).deadlineAfter ⟨last.nanos + 1⟩).nanos <
        ((⟨0⟩ : Instant).deadlineAfter ⟨last.nanos⟩).nanos := by
  have hall : (⟨0⟩ : Instant).deadlineAfter ⟨last.nanos⟩ = last :=
    deadlineAfter_of_fits (by decide)
  have hmore : (⟨0⟩ : Instant).deadlineAfter ⟨last.nanos + 1⟩ =
      ⟨4611686018427387904 * nanosPerSecond⟩ := by
    rw [deadlineAfter, show (⟨0⟩ : Instant).add? ⟨last.nanos + 1⟩ = none by decide]
    exact deadlineAfter_of_fits (by decide)
  refine ⟨Nat.le_succ _, hall, hmore, ?_, ?_⟩
  · rw [hmore]
    decide
  · rw [hall, hmore]
    decide

end Instant

end TtlCache
