import TtlCache.Ranking.Walk

/-!
# What a walk meets

A walk that meets a list of items answers them one after another, and nothing ever after.  How far
it is followed makes no difference: whoever takes some of the items only gets the first ones.
-/

namespace TtlCache

variable {σ α : Type}

/-- The answers of a walk to its first `steps` questions, those behind its end included. -/
def responses (next : σ → Option α × σ) : Nat → σ → List (Option α)
  | 0, _ => []
  | steps + 1, cursor => (next cursor).1 :: responses next steps (next cursor).2

/-- From a cursor on, a walk answers these items and then stands at its end. -/
inductive Meets (next : σ → Option α × σ) : σ → List α → Prop
  | ended {cursor stop : σ} (hend : next cursor = (none, stop)) (hstop : next stop = (none, stop)) :
      Meets next cursor []
  | item {cursor after : σ} {item : α} {rest : List α} (hitem : next cursor = (some item, after))
      (hrest : Meets next after rest) : Meets next cursor (item :: rest)

theorem responses_of_stopped {next : σ → Option α × σ} {stop : σ} (h : next stop = (none, stop))
    (steps : Nat) : responses next steps stop = List.replicate steps none := by
  induction steps with
  | zero => rfl
  | succ steps ih => rw [responses, h, ih, List.replicate_succ]

namespace Meets

variable {next : σ → Option α × σ} {cursor : σ} {items : List α}

theorem responses_eq (h : Meets next cursor items) (steps : Nat) :
    responses next steps cursor = (items.map some ++ List.replicate steps none).take steps := by
  induction h generalizing steps with
  | ended hend hstop =>
    cases steps with
    | zero => rfl
    | succ steps =>
      rw [responses, hend, responses_of_stopped hstop, List.map_nil, List.nil_append,
        ← List.replicate_succ, List.take_of_length_le (Nat.le_of_eq List.length_replicate)]
  | item hitem _ ih =>
    cases steps with
    | zero => rfl
    | succ steps =>
      have hmore : ∀ answered : List (Option α),
          (answered ++ List.replicate steps none).take steps =
            (answered ++ List.replicate (steps + 1) none).take steps := by
        intro answered
        rw [List.take_append, List.take_append, List.take_replicate, List.take_replicate]
        congr 2
        omega
      rw [responses, hitem, ih, List.map_cons, List.cons_append, List.take_succ_cons, hmore]

theorem walk_eq_take (h : Meets next cursor items) (steps : Nat) :
    (walk next steps cursor).1 = items.take steps := by
  induction h generalizing steps with
  | ended hend =>
    cases steps with
    | zero => rfl
    | succ steps => rw [walk, hend, List.take_nil]
  | item hitem _ ih =>
    cases steps with
    | zero => rfl
    | succ steps =>
      rw [walk, hitem]
      change _ :: (walk next steps _).1 = _
      rw [ih, List.take_succ_cons]

theorem walk_eq (h : Meets next cursor items) {steps : Nat} (hsteps : items.length ≤ steps) :
    (walk next steps cursor).1 = items := by
  rw [h.walk_eq_take, List.take_of_length_le hsteps]

theorem of_walk {steps : Nat} {stop : σ} (hwalk : walk next steps cursor = (items, stop))
    (hlength : items.length = steps) (hstop : next stop = (none, stop)) :
    Meets next cursor items := by
  induction steps generalizing cursor items with
  | zero =>
    cases hwalk
    exact .ended hstop hstop
  | succ steps ih =>
    rw [walk] at hwalk
    split at hwalk
    · cases hwalk
      cases hlength
    · next item after hitem =>
      cases hwalk
      exact .item hitem (ih rfl (Nat.succ.inj hlength))

/-- A walk that goes along with another one meets what the other one meets, in its own reading. -/
theorem map {τ β : Type} {other : τ → Option β × τ} (h : Meets next cursor items) (embed : σ → τ)
    (read : α → β)
    (hother : ∀ cursor, other (embed cursor) = ((next cursor).1.map read, embed (next cursor).2)) :
    Meets other (embed cursor) (items.map read) := by
  induction h with
  | ended hend hstop =>
    exact .ended (by rw [hother, hend]; rfl) (by rw [hother, hstop]; rfl)
  | item hitem _ ih => exact .item (by rw [hother, hitem]; rfl) ih

end Meets

end TtlCache
