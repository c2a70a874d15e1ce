/-!
# Named fields

Finite maps from names to values, kept as a list that is strictly increasing in its names.  The
order of names is that of their code points, which is also the order of their UTF-8 bytes.
-/

namespace Stencil

/-- Named values in increasing order of their names. -/
abbrev Fields (α : Type) := List (String × α)

namespace Fields

variable {α : Type}

def get? (name : String) : Fields α → Option α
  | [] => none
  | (n, v) :: rest => if n = name then some v else get? name rest

def has (name : String) (fields : Fields α) : Bool := (fields.get? name).isSome

def insert (name : String) (value : α) : Fields α → Fields α
  | [] => [(name, value)]
  | (n, v) :: rest =>
    if n = name then (name, value) :: rest
    else if name < n then (name, value) :: (n, v) :: rest
    else (n, v) :: insert name value rest

def erase (name : String) : Fields α → Fields α
  | [] => []
  | (n, v) :: rest => if n = name then rest else (n, v) :: erase name rest

def names (fields : Fields α) : List String := fields.map (·.1)

/-- The fields of a list of pairs, of which a later one replaces an earlier one of its name. -/
def ofList (pairs : List (String × α)) : Fields α :=
  pairs.foldl (fun fields (name, value) => fields.insert name value) []

end Fields

end Stencil
