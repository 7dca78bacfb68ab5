/-!
# Walks

A walk is a cursor that answers one item after another until it answers `none`.
-/

namespace TtlCache

/-- The items of a walk before its first `none`, at most `steps`, and where it then stands. -/
def walk {σ α : Type} (next : σ -> Option α × σ) : Nat -> σ -> List α × σ
  | 0, cursor => ([], cursor)
  | steps + 1, cursor =>
      match next cursor with
      | (none, cursor) => ([], cursor)
      | (some item, cursor) =>
          let (items, stop) := walk next steps cursor
          (item :: items, stop)

end TtlCache
