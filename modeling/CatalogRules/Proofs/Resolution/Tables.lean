import CatalogRules.Proofs.Collections
import CatalogRules.Resolution.Resolve

/-! # Resolutions as tables

A resolution is a table with a row for each entity and path that has values. In a valid table the
keys are in order and no row is empty, so an entry is there if and only if there are values
(`Valid.row?_eq`). Values are appended row by row: after that a row holds what it held before and
then what was listed for it, in the order of the list (`values_appendAll`). Merging two tables joins
their rows (`values_merge`). -/

namespace CatalogRules.Resolution

/-- The entry for an entity and a path. -/
def row? (res : Resolution) (u : Urn) (p : Path) : Option (List String) := do
  (← res.lookup u).lookup p

/-- The keys are in order and no entry is empty. -/
structure Valid (res : Resolution) : Prop where
  outer : (res.map (·.1)).Pairwise (· < ·)
  inner : ∀ e ∈ res, (e.2.map (·.1)).Pairwise (· < ·)
  filled : ∀ e ∈ res, ∀ x ∈ e.2, x.2 ≠ []

variable {res other : Resolution} {u v : Urn} {p q : Path}

theorem values_eq_getD : res.values u p = (res.row? u p).getD [] := by
  unfold values row?
  cases res.lookup u <;> rfl

theorem Valid.nil : Valid [] := ⟨List.Pairwise.nil, by simp, by simp⟩

/-- An entry is there if and only if there are values. -/
theorem Valid.row?_eq (h : res.Valid) (u : Urn) (p : Path) :
    res.row? u p = if res.values u p = [] then none else some (res.values u p) := by
  rw [values_eq_getD]
  cases he : res.row? u p with
  | none => simp
  | some vs =>
    simp only [row?, Option.bind_eq_bind, Option.bind_eq_some_iff] at he
    obtain ⟨row, hr, hv⟩ := he
    have hne : vs ≠ [] := h.filled _ (mem_of_lookup hr) _ (mem_of_lookup hv)
    simp [hne]

/-! ### Appending values -/

theorem values_put (vs : List String) :
    (res.put u p vs).values v q = if v = u ∧ q = p then vs else res.values v q := by
  unfold put values
  rw [Sorted.lookup_alter]
  by_cases hv : v = u
  · subst hv
    simp only [if_true, Option.getD_some, Sorted.lookup_put, true_and]
    by_cases hq : q = p <;> simp [hq]
  · simp [hv]

theorem values_append (vs : List String) : (res.append u p vs).values v q =
    res.values v q ++ if v = u ∧ q = p then vs else [] := by
  unfold append
  by_cases hvs : vs = []
  · simp [hvs]
  · rw [if_neg hvs, values_put]
    by_cases h : v = u ∧ q = p
    · obtain ⟨rfl, rfl⟩ := h
      simp
    · simp [h]

theorem Valid.append (h : res.Valid) (u : Urn) (p : Path) (vs : List String) :
    (res.append u p vs).Valid := by
  unfold Resolution.append
  by_cases hvs : vs = []
  · rw [if_pos hvs]; exact h
  rw [if_neg hvs]
  have hne : res.values u p ++ vs ≠ [] := by simp [hvs]
  -- the row that is changed was a row of the table before, or is a new one
  have hrow : (((res.lookup u).getD []).map (·.1)).Pairwise (· < ·) ∧
      ∀ x ∈ (res.lookup u).getD [], x.2 ≠ [] := by
    cases hu : res.lookup u with
    | none => simp
    | some row => exact ⟨h.inner _ (mem_of_lookup hu), h.filled _ (mem_of_lookup hu)⟩
  refine ⟨Sorted.pairwise_alter u _ h.outer, fun e he => ?_, fun e he => ?_⟩
  · rcases Sorted.mem_put he with rfl | he
    · exact Sorted.pairwise_put p _ hrow.1
    · exact h.inner e he
  · rcases Sorted.mem_put he with rfl | he
    · intro x hx
      rcases Sorted.mem_put hx with rfl | hx
      · exact hne
      · exact hrow.2 x hx
    · exact h.filled e he

/-- What a list of rows holds for an entity and a path. -/
def gathered (rows : List (Urn × Path × List String)) (u : Urn) (p : Path) : List String :=
  rows.flatMap fun t => if u = t.1 ∧ p = t.2.1 then t.2.2 else []

/-- Appends row by row. -/
def appendAll (res : Resolution) (rows : List (Urn × Path × List String)) : Resolution :=
  rows.foldl (fun res t => res.append t.1 t.2.1 t.2.2) res

theorem values_appendAll (rows : List (Urn × Path × List String)) :
    (res.appendAll rows).values u p = res.values u p ++ gathered rows u p := by
  induction rows generalizing res with
  | nil => simp [appendAll, gathered]
  | cons t rows ih =>
    have hf : res.appendAll (t :: rows) = (res.append t.1 t.2.1 t.2.2).appendAll rows := rfl
    rw [hf, ih, values_append, List.append_assoc]
    rfl

theorem Valid.appendAll (h : res.Valid) (rows : List (Urn × Path × List String)) :
    (res.appendAll rows).Valid := by
  induction rows generalizing res with
  | nil => exact h
  | cons t rows ih => exact ih (h.append _ _ _)

/-! ### Merging -/

/-- The rows of a table. -/
def rows (res : Resolution) : List (Urn × Path × List String) :=
  res.flatMap fun e => e.2.map fun x => (e.1, x.1, x.2)

theorem merge_eq_appendAll : res.merge other = res.appendAll other.rows := by
  unfold merge appendAll rows
  induction other generalizing res with
  | nil => rfl
  | cons e other ih =>
    rw [List.foldl_cons, ih, List.flatMap_cons, List.foldl_append, List.foldl_map]

/-- At most one entry of a map contributes to what is collected under a key. -/
theorem flatMap_key {α β γ : Type} [DecidableEq α] [BEq α] [LawfulBEq α] {m : List (α × β)}
    (hm : (m.map (·.1)).Nodup) (k : α) (f : β → List γ) :
    (m.flatMap fun e => if k = e.1 then f e.2 else []) = ((m.lookup k).map f).getD [] := by
  induction m with
  | nil => rfl
  | cons e rest ih =>
    obtain ⟨j, w⟩ := e
    obtain ⟨hj, hr⟩ := List.nodup_cons.mp hm
    rw [List.flatMap_cons, ih hr]
    by_cases hk : k = j
    · subst hk
      rw [lookup_eq_none.mpr hj]
      simp
    · have hb : (k == j) = false := beq_eq_false_iff_ne.mpr hk
      simp [hk, List.lookup_cons, hb]

theorem Valid.gathered_rows (h : other.Valid) (u : Urn) (p : Path) :
    gathered other.rows u p = other.values u p := by
  have hrow : ∀ e ∈ other, (e.2.flatMap fun x => if p = x.1 then x.2 else []) =
      (e.2.lookup p).getD [] := by
    intro e he
    have hk := flatMap_key (Sorted.nodup_of_pairwise (h.inner e he)) p fun vs => vs
    simpa using hk
  calc gathered other.rows u p
      = other.flatMap fun e => if u = e.1 then (e.2.lookup p).getD [] else [] := by
        unfold gathered rows
        rw [List.flatMap_assoc]
        refine List.flatMap_congr fun e he => ?_
        rw [List.flatMap_map, ← hrow e he]
        by_cases hu : u = e.1 <;> simp [hu]
    _ = ((other.lookup u).map fun row => (row.lookup p).getD []).getD [] :=
        flatMap_key (Sorted.nodup_of_pairwise h.outer) u fun row => (row.lookup p).getD []
    _ = other.values u p := by
        unfold values
        cases other.lookup u <;> rfl

theorem values_merge (h : other.Valid) (u : Urn) (p : Path) :
    (res.merge other).values u p = res.values u p ++ other.values u p := by
  rw [merge_eq_appendAll, values_appendAll, h.gathered_rows]

theorem Valid.merge (h : res.Valid) (other : Resolution) : (res.merge other).Valid := by
  rw [merge_eq_appendAll]
  exact h.appendAll _

/-! ### Tables that are listed -/

/-- The table with at most one value for each of some paths on each of some entities: the value is
derived from what is known about the entity. -/
def singles {α : Type} (known : Urn → Option α) (value : Urn → α → Path → Option String)
    (us : List Urn) (ps : List Path) : Resolution :=
  us.filterMap fun u => (known u).map fun a =>
    (u, ps.filterMap fun p => (value u a p).map fun x => (p, [x]))

section Singles
variable {α : Type} {known : Urn → Option α} {value : Urn → α → Path → Option String}

theorem keys_singles (u : Urn) (ps : List Path) (y : Urn × List (Path × List String))
    (h : ((known u).map fun a => (u, ps.filterMap fun p =>
      (value u a p).map fun x => (p, [x]))) = some y) : y.1 = u := by
  obtain ⟨a, -, rfl⟩ := Option.map_eq_some_iff.mp h
  rfl

theorem keys_row (u : Urn) (a : α) (p : Path) (y : Path × List String)
    (h : ((value u a p).map fun x => (p, [x])) = some y) : y.1 = p := by
  obtain ⟨x, -, rfl⟩ := Option.map_eq_some_iff.mp h
  rfl

theorem values_singles (us : List Urn) (ps : List Path) (u : Urn) (p : Path) :
    values (singles known value us ps) u p =
      if u ∈ us ∧ p ∈ ps then ((known u).bind fun a => value u a p).toList else [] := by
  unfold values singles
  rw [lookup_filterMap fun u => keys_singles u ps]
  by_cases hu : u ∈ us
  swap; · simp [hu]
  simp only [hu, if_true, true_and]
  cases known u with
  | none => simp
  | some a =>
    simp only [Option.map_some, Option.getD_some, Option.bind_some]
    rw [lookup_filterMap (keys_row u a)]
    by_cases hp : p ∈ ps
    · simp only [hp, if_true]
      cases value u a p <;> rfl
    · simp [hp]

theorem Valid.singles {us : List Urn} {ps : List Path} (hus : us.Pairwise (· < ·))
    (hps : ps.Pairwise (· < ·)) : Valid (singles known value us ps) := by
  refine ⟨hus.sublist (keys_filterMap_sublist (fun u => keys_singles u ps) us),
    fun e he => ?_, fun e he => ?_⟩
  · obtain ⟨u, -, hu⟩ := List.mem_filterMap.mp he
    obtain ⟨a, -, rfl⟩ := Option.map_eq_some_iff.mp hu
    exact hps.sublist (keys_filterMap_sublist (keys_row u a) ps)
  · obtain ⟨u, -, hu⟩ := List.mem_filterMap.mp he
    obtain ⟨a, -, rfl⟩ := Option.map_eq_some_iff.mp hu
    intro x hx
    obtain ⟨p, -, hp⟩ := List.mem_filterMap.mp hx
    obtain ⟨y, -, rfl⟩ := Option.map_eq_some_iff.mp hp
    simp

end Singles

/-- The rows that are listed for the entries of two maps, of entities and of paths. -/
def grid {α β : Type} (m : List (Urn × α)) (n : List (Path × β)) (g : α → β → List String) :
    List (Urn × Path × List String) :=
  m.flatMap fun e => n.map fun x => (e.1, x.1, g e.2 x.2)

theorem gathered_grid {α β : Type} {m : List (Urn × α)} {n : List (Path × β)}
    (hm : (m.map (·.1)).Nodup) (hn : (n.map (·.1)).Nodup) (g : α → β → List String)
    (u : Urn) (p : Path) : gathered (grid m n g) u p =
      ((m.lookup u).bind fun a => (n.lookup p).map fun b => g a b).getD [] := by
  have hin : ∀ a, (n.flatMap fun x => if p = x.1 then g a x.2 else []) =
      ((n.lookup p).map fun b => g a b).getD [] := fun a => flatMap_key hn p (g a)
  calc gathered (grid m n g) u p
      = m.flatMap fun e => if u = e.1 then ((n.lookup p).map fun b => g e.2 b).getD [] else [] := by
        unfold gathered grid
        rw [List.flatMap_assoc]
        refine List.flatMap_congr fun e _ => ?_
        rw [List.flatMap_map, ← hin e.2]
        by_cases hu : u = e.1 <;> simp [hu]
    _ = ((m.lookup u).map fun a => ((n.lookup p).map fun b => g a b).getD []).getD [] :=
        flatMap_key hm u fun a => ((n.lookup p).map fun b => g a b).getD []
    _ = ((m.lookup u).bind fun a => (n.lookup p).map fun b => g a b).getD [] := by
        cases m.lookup u <;> rfl

end CatalogRules.Resolution
