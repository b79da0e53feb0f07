/-!
# Named entries

A `Named α` files values under names. Entries stand in the order of their names, compared by code
points, and a name is filed once: filing it again replaces the value. Objects, blends, experiments
and user-defined groups are all kept this way, so what they list has one order.
-/

namespace BatteryParams

/-- Values filed under names, in the order of the names. -/
abbrev Named (α : Type) := List (String × α)

namespace Named

variable {α β : Type}

/-- File `value` under `name`, in place of what was filed there. -/
def insert (name : String) (value : α) : Named α → Named α
  | [] => [(name, value)]
  | (other, kept) :: rest =>
    if name < other then (name, value) :: (other, kept) :: rest
    else if name = other then (name, value) :: rest
    else (other, kept) :: insert name value rest

/-- File entries one after the other; of a repeated name the last one stays. -/
def ofList (entries : List (String × α)) : Named α :=
  entries.foldl (fun filed (name, value) => insert name value filed) []

def find? (name : String) : Named α → Option α
  | [] => none
  | (other, value) :: rest => if other = name then some value else find? name rest

def names (entries : Named α) : List String := entries.map (·.1)

/-- Names strictly ascend, so each is filed once. -/
def Ordered (entries : Named α) : Prop := entries.names.Pairwise (· < ·)

end Named

end BatteryParams
