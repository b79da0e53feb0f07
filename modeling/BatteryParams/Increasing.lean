/-!
# Increasing lists

Breakpoints of a table and times of an experiment must strictly increase. `stall?` finds the first
place where a list does not.
-/

namespace BatteryParams

/-- A place where a list does not increase: the index of the earlier entry, that entry and the next
one. -/
structure Stall (α : Type) where
  index : Nat
  before : α
  after : α
deriving DecidableEq, Repr

/-- The first entry that is not below its successor, entries being counted from `index`. -/
def stallFrom? {α : Type} [LE α] [DecidableLE α] : (index : Nat) → List α → Option (Stall α)
  | index, a :: b :: rest => if b ≤ a then some ⟨index, a, b⟩
      else stallFrom? (index + 1) (b :: rest)
  | _, _ => none

/-- The first entry of a list that is not below its successor. -/
def stall? {α : Type} [LE α] [DecidableLE α] (xs : List α) : Option (Stall α) := stallFrom? 0 xs

end BatteryParams
