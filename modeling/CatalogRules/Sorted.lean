/-! # Sorted sets and maps

Sets are lists in increasing order without repetition, maps are lists of pairs in increasing order
of distinct keys. The order is the one of the element type: texts are ordered by their Unicode
scalar values, entity names by their text. -/

namespace CatalogRules.Sorted

variable {α β : Type} [LT α] [DecidableLT α] [DecidableEq α]

/-- Adds an element to a sorted set. -/
def insert (x : α) : List α → List α
  | [] => [x]
  | y :: ys => if x < y then x :: y :: ys else if x = y then y :: ys else y :: insert x ys

/-- The sorted set of the elements of a list. -/
def ofList (xs : List α) : List α := xs.foldr insert []

/-- Sets the value of a key, in place if the key is present. -/
def put (k : α) (v : β) : List (α × β) → List (α × β)
  | [] => [(k, v)]
  | (j, w) :: rest =>
    if k < j then (k, v) :: (j, w) :: rest
    else if k = j then (k, v) :: rest else (j, w) :: put k v rest

/-- The sorted map of a list of pairs; of two pairs with one key the later counts. -/
def ofPairs (xs : List (α × β)) : List (α × β) := xs.foldl (fun m p => put p.1 p.2 m) []

omit [LT α] [DecidableLT α] in
/-- The value of a key. -/
def get? (m : List (α × β)) (k : α) : Option β := m.lookup k

/-- Changes the value of a key, where `none` stands for an absent key. -/
def alter (k : α) (f : Option β → β) (m : List (α × β)) : List (α × β) :=
  put k (f (m.lookup k)) m

theorem mem_insert {x y : α} {xs : List α} : y ∈ insert x xs ↔ y = x ∨ y ∈ xs := by
  induction xs with
  | nil => simp [insert]
  | cons z zs ih =>
    unfold insert
    split
    · simp
    · split
      · next h => subst h; simp
      · simp only [List.mem_cons, ih]
        constructor
        · rintro (h | h | h) <;> simp [h]
        · rintro (h | h | h) <;> simp [h]

theorem mem_ofList {y : α} {xs : List α} : y ∈ ofList xs ↔ y ∈ xs := by
  induction xs with
  | nil => simp [ofList]
  | cons x xs ih =>
    have : ofList (x :: xs) = insert x (ofList xs) := rfl
    rw [this, mem_insert, ih, List.mem_cons]

end CatalogRules.Sorted
