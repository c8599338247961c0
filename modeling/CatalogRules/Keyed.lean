/-! # Maps in order of insertion

A map is a list of pairs with distinct keys. Setting the value of a present key keeps the key's
place; a new key goes to the end. -/

namespace CatalogRules.Keyed

variable {α β : Type} [DecidableEq α]

/-- Sets the value of a key. -/
def put (k : α) (v : β) : List (α × β) → List (α × β)
  | [] => [(k, v)]
  | (j, w) :: rest => if j = k then (k, v) :: rest else (j, w) :: put k v rest

/-- The map of a list of pairs: a repeated key keeps its first place and its last value. -/
def ofPairs (xs : List (α × β)) : List (α × β) := xs.foldl (fun m p => put p.1 p.2 m) []

/-- Removes a key. -/
def erase (k : α) (m : List (α × β)) : List (α × β) := m.filter fun p => p.1 ≠ k

/-- The distinct elements of a list, each at its first place. -/
def distinct (xs : List α) : List α :=
  xs.foldl (fun seen x => if x ∈ seen then seen else seen ++ [x]) []

theorem lookup_put (k j : α) (v : β) (m : List (α × β)) :
    (put k v m).lookup j = if j = k then some v else m.lookup j := by
  induction m with
  | nil => grind [put]
  | cons p rest ih =>
    obtain ⟨i, w⟩ := p
    unfold put
    split <;> grind

end CatalogRules.Keyed
