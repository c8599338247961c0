import CatalogRules.Keyed
import CatalogRules.Sorted
import CatalogRules.Store.Basic
import CatalogRules.Urn
import Mathlib.Data.List.Lex
import Mathlib.Data.List.Nodup
import Mathlib.Data.String.Basic

/-! # Sorted and keyed collections

Looking up in a map of either sort after a change of it needs no order of the keys
(`Sorted.lookup_put`, `Keyed.lookup_put`). That the keys of a map are distinct does: the keys of a
sorted map stay in increasing order (`Sorted.pairwise_put`), and a keyed map never repeats a key
(`Keyed.nodup_put`). A list that is sorted already is its own sorted set (`Sorted.ofList_self`). The
entities of a store are such a map (`Store.entity?_putEntity`), and so are the aspects of an entity
(`Store.aspect?_putAspect`). -/

namespace CatalogRules

/-! ### Looking up -/

section Lookup
variable {α β γ : Type} [BEq α] [LawfulBEq α]

theorem lookup_eq_none {m : List (α × β)} {k : α} : m.lookup k = none ↔ k ∉ m.map (·.1) := by
  rw [List.lookup_eq_none_iff]
  simp only [List.mem_map, bne_iff_ne]
  constructor
  · rintro h ⟨e, he, rfl⟩; exact h e he rfl
  · intro h e he hk; exact h ⟨e, he, hk.symm⟩

theorem mem_of_lookup {m : List (α × β)} {k : α} {v : β} (h : m.lookup k = some v) :
    (k, v) ∈ m := by
  induction m with
  | nil => simp at h
  | cons e rest ih =>
    obtain ⟨j, w⟩ := e
    by_cases hk : k = j
    · subst hk
      simp only [List.lookup_cons_self, Option.some.injEq] at h
      rw [h]; exact List.mem_cons_self
    · have hb : (k == j) = false := beq_eq_false_iff_ne.mpr hk
      simp only [List.lookup_cons, hb] at h
      exact List.mem_cons_of_mem _ (ih h)

theorem lookup_of_mem {m : List (α × β)} (hm : (m.map (·.1)).Nodup) {k : α} {v : β}
    (h : (k, v) ∈ m) : m.lookup k = some v := by
  induction m with
  | nil => simp at h
  | cons e rest ih =>
    obtain ⟨j, w⟩ := e
    obtain ⟨hj, hr⟩ := List.nodup_cons.mp hm
    rcases List.mem_cons.mp h with he | he
    · rw [Prod.mk.injEq] at he
      obtain ⟨rfl, rfl⟩ := he
      exact List.lookup_cons_self
    · have hk : k ≠ j := by
        rintro rfl; exact hj (List.mem_map.mpr ⟨_, he, rfl⟩)
      have hb : (k == j) = false := beq_eq_false_iff_ne.mpr hk
      simp only [List.lookup_cons, hb]
      exact ih hr he

/-- Looking up in a list of images that keep the elements as keys. -/
theorem lookup_filterMap [DecidableEq α] {f : α → Option (α × β)}
    (hf : ∀ x y, f x = some y → y.1 = x) (xs : List α) (k : α) :
    (xs.filterMap f).lookup k = if k ∈ xs then (f k).map (·.2) else none := by
  induction xs with
  | nil => simp
  | cons x xs ih =>
    cases hx : f x with
    | none =>
      rw [List.filterMap_cons_none hx, ih]
      by_cases hk : k = x
      · subst hk; simp [hx]
      · simp [hk]
    | some y =>
      obtain ⟨j, w⟩ := y
      have hj : j = x := hf x _ hx
      subst hj
      rw [List.filterMap_cons_some hx, List.lookup_cons, ih]
      by_cases hk : k = j
      · subst hk; simp [hx]
      · simp [hk, beq_eq_false_iff_ne.mpr hk]

theorem lookup_map_self [DecidableEq α] (f : α → β) (xs : List α) (k : α) :
    (xs.map fun x => (x, f x)).lookup k = if k ∈ xs then some (f k) else none := by
  have h := lookup_filterMap (f := fun x => some (x, f x)) (by simp) xs k
  rw [List.filterMap_eq_map'] at h
  exact h

omit [BEq α] [LawfulBEq α] in
theorem keys_filterMap_sublist {f : α → Option (α × β)} (hf : ∀ x y, f x = some y → y.1 = x)
    (xs : List α) : ((xs.filterMap f).map (·.1)).Sublist xs := by
  induction xs with
  | nil => exact List.Sublist.slnil
  | cons x xs ih =>
    cases hx : f x with
    | none => rw [List.filterMap_cons_none hx]; exact ih.cons x
    | some y =>
      rw [List.filterMap_cons_some hx, List.map_cons, hf x y hx]
      exact ih.cons_cons x

/-- Changing the values of a map under their keys. -/
theorem lookup_map_values (f : α → β → γ) (m : List (α × β)) (k : α) :
    (m.map fun e => (e.1, f e.1 e.2)).lookup k = (m.lookup k).map (f k) := by
  induction m with
  | nil => rfl
  | cons e rest ih =>
    obtain ⟨j, w⟩ := e
    by_cases hk : k = j
    · subst hk; simp
    · simp [List.lookup_cons, beq_eq_false_iff_ne.mpr hk, ih]

theorem lookup_filter_keys (q : α → Bool) (m : List (α × β)) (k : α) :
    (m.filter fun e => q e.1).lookup k = if q k then m.lookup k else none := by
  induction m with
  | nil => simp
  | cons e rest ih =>
    obtain ⟨j, w⟩ := e
    by_cases hk : k = j
    · subst hk
      by_cases hq : q k = true
      · simp [hq]
      · simp [hq, ih]
    · have hb : (k == j) = false := beq_eq_false_iff_ne.mpr hk
      by_cases hq : q j = true
      · simp [hq, List.lookup_cons, hb, ih]
      · simp [hq, List.lookup_cons, hb, ih]

end Lookup

/-! ### Sorted sets and maps -/

namespace Sorted

variable {α β : Type} [LT α] [DecidableLT α] [DecidableEq α]

theorem lookup_put [BEq α] [LawfulBEq α] (k j : α) (v : β) (m : List (α × β)) :
    (put k v m).lookup j = if j = k then some v else m.lookup j := by
  induction m with
  | nil =>
    by_cases h : j = k
    · simp [put, h]
    · simp [put, h, List.lookup_cons, beq_eq_false_iff_ne.mpr h]
  | cons e rest ih =>
    obtain ⟨i, w⟩ := e
    unfold put
    split_ifs with h1 h2 h3 h4
    all_goals grind

theorem lookup_alter (k j : α) (f : Option β → β) (m : List (α × β)) :
    (alter k f m).lookup j = if j = k then some (f (m.lookup k)) else m.lookup j :=
  lookup_put k j _ m

theorem mem_put {k : α} {v : β} {m : List (α × β)} {e : α × β} (h : e ∈ put k v m) :
    e = (k, v) ∨ e ∈ m := by
  induction m with
  | nil => exact Or.inl (List.mem_singleton.mp h)
  | cons x rest ih =>
    obtain ⟨j, w⟩ := x
    unfold put at h
    split_ifs at h with h1 h2
    · exact List.mem_cons.mp h
    · rcases List.mem_cons.mp h with h | h
      · exact Or.inl h
      · exact Or.inr (List.mem_cons_of_mem _ h)
    · rcases List.mem_cons.mp h with h | h
      · exact Or.inr (by rw [h]; exact List.mem_cons_self)
      · rcases ih h with h | h
        · exact Or.inl h
        · exact Or.inr (List.mem_cons_of_mem _ h)

theorem mem_keys_put {k j : α} {v : β} {m : List (α × β)} (h : j ∈ (put k v m).map (·.1)) :
    j = k ∨ j ∈ m.map (·.1) := by
  obtain ⟨e, he, rfl⟩ := List.mem_map.mp h
  rcases mem_put he with rfl | he
  · exact Or.inl rfl
  · exact Or.inr (List.mem_map.mpr ⟨e, he, rfl⟩)

theorem mem_keys_alter {k j : α} {f : Option β → β} {m : List (α × β)} :
    j ∈ (alter k f m).map (·.1) ↔ j = k ∨ j ∈ m.map (·.1) := by
  rw [← not_iff_not, not_or, ← lookup_eq_none, lookup_alter, ← lookup_eq_none]
  by_cases hj : j = k <;> simp [hj]

section Order
variable [IsStrictTotalOrder α (· < ·)]

omit [DecidableLT α] [DecidableEq α] in
theorem nodup_of_pairwise {xs : List α} (h : xs.Pairwise (· < ·)) : xs.Nodup := by
  refine h.imp ?_
  rintro a b hab rfl
  exact irrefl_of (· < ·) a hab

omit [DecidableLT α] [DecidableEq α] in
theorem lt_of_not {x y : α} (h1 : ¬ x < y) (h2 : x ≠ y) : y < x := by
  rcases trichotomous_of (· < ·) x y with h | h | h
  · exact absurd h h1
  · exact absurd h h2
  · exact h

theorem pairwise_insert (x : α) {xs : List α} (h : xs.Pairwise (· < ·)) :
    (insert x xs).Pairwise (· < ·) := by
  induction xs with
  | nil => simp [insert]
  | cons y ys ih =>
    obtain ⟨hy, hys⟩ := List.pairwise_cons.mp h
    unfold insert
    split_ifs with h1 h2
    · refine List.pairwise_cons.mpr ⟨fun z hz => ?_, h⟩
      rcases List.mem_cons.mp hz with rfl | hz
      · exact h1
      · exact trans_of (· < ·) h1 (hy z hz)
    · exact h
    · refine List.pairwise_cons.mpr ⟨fun z hz => ?_, ih hys⟩
      rcases mem_insert.mp hz with rfl | hz
      · exact lt_of_not h1 h2
      · exact hy z hz

theorem pairwise_ofList (xs : List α) : (ofList xs).Pairwise (· < ·) := by
  induction xs with
  | nil => exact List.Pairwise.nil
  | cons x xs ih => exact pairwise_insert x ih

omit [IsStrictTotalOrder α (· < ·)] in
/-- A sorted list is the sorted set of its elements. -/
theorem ofList_self {xs : List α} (h : xs.Pairwise (· < ·)) : ofList xs = xs := by
  induction xs with
  | nil => rfl
  | cons x xs ih =>
    obtain ⟨hx, hxs⟩ := List.pairwise_cons.mp h
    have hf : ofList (x :: xs) = insert x (ofList xs) := rfl
    rw [hf, ih hxs]
    cases xs with
    | nil => rfl
    | cons y ys =>
      unfold insert
      rw [if_pos (hx y List.mem_cons_self)]

theorem pairwise_put (k : α) (v : β) {m : List (α × β)} (h : (m.map (·.1)).Pairwise (· < ·)) :
    ((put k v m).map (·.1)).Pairwise (· < ·) := by
  induction m with
  | nil => simp [put]
  | cons e rest ih =>
    obtain ⟨j, w⟩ := e
    obtain ⟨hj, hr⟩ := List.pairwise_cons.mp h
    unfold put
    split_ifs with h1 h2
    · refine List.pairwise_cons.mpr ⟨fun z hz => ?_, h⟩
      rcases List.mem_cons.mp hz with rfl | hz
      · exact h1
      · exact trans_of (· < ·) h1 (hj z hz)
    · subst h2; exact h
    · refine List.pairwise_cons.mpr ⟨fun z hz => ?_, ih hr⟩
      rcases mem_keys_put hz with rfl | hz
      · exact lt_of_not h1 h2
      · exact hj z hz

/-- A key beyond all others goes to the end. -/
theorem put_of_lt {k : α} {v : β} {m : List (α × β)} (h : ∀ e ∈ m, e.1 < k) :
    put k v m = m ++ [(k, v)] := by
  induction m with
  | nil => rfl
  | cons e rest ih =>
    obtain ⟨j, w⟩ := e
    have hj : j < k := h _ List.mem_cons_self
    have h1 : ¬ k < j := asymm_of (· < ·) hj
    have h2 : k ≠ j := by
      rintro rfl
      exact irrefl_of (· < ·) k hj
    rw [put, if_neg h1, if_neg h2, ih fun e he => h e (List.mem_cons_of_mem _ he)]
    rfl

/-- Pairs whose keys are in order go to the end one after the other. -/
theorem foldl_put_of_lt : ∀ {done rest : List (α × β)},
    ((done ++ rest).map (·.1)).Pairwise (· < ·) →
      rest.foldl (fun m p => put p.1 p.2 m) done = done ++ rest
  | done, [], _ => (List.append_nil done).symm
  | done, (k, v) :: rest, h => by
    have hlt : ∀ e ∈ done, e.1 < k := by
      rw [List.map_append, List.pairwise_append] at h
      exact fun e he => h.2.2 _ (List.mem_map_of_mem he) _ List.mem_cons_self
    have happend : done ++ (k, v) :: rest = (done ++ [(k, v)]) ++ rest := by simp
    rw [List.foldl_cons, put_of_lt hlt, happend]
    exact foldl_put_of_lt (happend ▸ h)

/-- A sorted map is the sorted map of its pairs. -/
theorem ofPairs_self {m : List (α × β)} (h : (m.map (·.1)).Pairwise (· < ·)) : ofPairs m = m :=
  foldl_put_of_lt (by simpa using h)

theorem pairwise_alter (k : α) (f : Option β → β) {m : List (α × β)}
    (h : (m.map (·.1)).Pairwise (· < ·)) : ((alter k f m).map (·.1)).Pairwise (· < ·) :=
  pairwise_put k _ h

end Order

/-! Adding several elements one by one. -/

theorem mem_foldl_insert {y : α} {xs s : List α} :
    y ∈ xs.foldl (fun s x => insert x s) s ↔ y ∈ xs ∨ y ∈ s := by
  induction xs generalizing s with
  | nil => simp
  | cons x xs ih =>
    rw [List.foldl_cons, ih, mem_insert, List.mem_cons]
    constructor
    · rintro (h | h | h) <;> simp [h]
    · rintro ((h | h) | h) <;> simp [h]

theorem pairwise_foldl_insert [IsStrictTotalOrder α (· < ·)] (xs : List α) {s : List α}
    (h : s.Pairwise (· < ·)) : (xs.foldl (fun s x => insert x s) s).Pairwise (· < ·) :=
  List.foldlRecOn (motive := List.Pairwise (· < ·)) xs _ h fun _ hs x _ => pairwise_insert x hs

end Sorted

/-! ### Keyed maps -/

namespace Keyed

variable {α β : Type} [DecidableEq α]

theorem mem_keys_put {k j : α} {v : β} {m : List (α × β)} :
    j ∈ (put k v m).map (·.1) ↔ j = k ∨ j ∈ m.map (·.1) := by
  induction m with
  | nil => simp [put]
  | cons e rest ih =>
    obtain ⟨i, w⟩ := e
    unfold put
    split_ifs with h
    · subst h; simp
    · simp only [List.map_cons, List.mem_cons, ih]
      constructor
      · rintro (h | h | h) <;> simp [h]
      · rintro (h | h | h) <;> simp [h]

/-- A known key keeps its place. -/
theorem keys_put_of_mem {k : α} {v : β} {m : List (α × β)} (h : k ∈ m.map (·.1)) :
    (put k v m).map (·.1) = m.map (·.1) := by
  induction m with
  | nil => simp at h
  | cons e rest ih =>
    obtain ⟨j, w⟩ := e
    unfold put
    split_ifs with hk
    · simp [hk]
    · have hr : k ∈ rest.map (·.1) := (List.mem_cons.mp h).resolve_left (Ne.symm hk)
      simp only [List.map_cons, ih hr]

/-- A new key goes to the end. -/
theorem put_of_not_mem {k : α} {v : β} {m : List (α × β)} (h : k ∉ m.map (·.1)) :
    put k v m = m ++ [(k, v)] := by
  induction m with
  | nil => rfl
  | cons e rest ih =>
    obtain ⟨i, w⟩ := e
    simp only [List.map_cons, List.mem_cons, not_or] at h
    unfold put
    rw [if_neg (Ne.symm h.1), ih h.2]
    rfl

theorem nodup_put (k : α) (v : β) {m : List (α × β)} (h : (m.map (·.1)).Nodup) :
    ((put k v m).map (·.1)).Nodup := by
  induction m with
  | nil => simp [put]
  | cons e rest ih =>
    obtain ⟨i, w⟩ := e
    obtain ⟨hi, hr⟩ := List.nodup_cons.mp h
    unfold put
    split_ifs with hk
    · subst hk; exact h
    · refine List.nodup_cons.mpr ⟨fun hm => ?_, ih hr⟩
      rcases mem_keys_put.mp hm with hm | hm
      · exact hk hm
      · exact hi hm

theorem nodup_ofPairs (xs : List (α × β)) : ((ofPairs xs).map (·.1)).Nodup := by
  refine List.foldlRecOn (motive := fun m => (List.map Prod.fst m).Nodup) xs _ List.nodup_nil ?_
  exact fun m hm y _ => nodup_put y.1 y.2 hm

/-- Pairs with distinct keys make up the map by themselves. -/
theorem ofPairs_self {xs : List (α × β)} (h : (xs.map (·.1)).Nodup) : ofPairs xs = xs := by
  have hf : ∀ (ys m : List (α × β)), ((m ++ ys).map (·.1)).Nodup →
      ys.foldl (fun m p => put p.1 p.2 m) m = m ++ ys := by
    intro ys
    induction ys with
    | nil => simp
    | cons y ys ih =>
      intro m hm
      have hy : y.1 ∉ m.map (·.1) := by
        rw [List.map_append, List.nodup_append] at hm
        intro hmem
        exact hm.2.2 _ hmem y.1 (by simp) rfl
      rw [List.foldl_cons, put_of_not_mem hy, ih _ (by simpa using hm)]
      simp
  exact hf xs [] (by simpa using h)

theorem mem_put {k : α} {v : β} {m : List (α × β)} {e : α × β} (h : e ∈ put k v m) :
    e = (k, v) ∨ e ∈ m := by
  induction m with
  | nil => exact Or.inl (List.mem_singleton.mp h)
  | cons x rest ih =>
    obtain ⟨i, w⟩ := x
    unfold put at h
    split_ifs at h with hk
    · rcases List.mem_cons.mp h with h | h
      · exact Or.inl h
      · exact Or.inr (List.mem_cons_of_mem _ h)
    · rcases List.mem_cons.mp h with h | h
      · exact Or.inr (by rw [h]; exact List.mem_cons_self)
      · rcases ih h with h | h
        · exact Or.inl h
        · exact Or.inr (List.mem_cons_of_mem _ h)

theorem mem_ofPairs {xs : List (α × β)} {e : α × β} (h : e ∈ ofPairs xs) : e ∈ xs := by
  have hall : ∀ e ∈ ofPairs xs, e ∈ xs := by
    refine List.foldlRecOn (motive := fun m => ∀ e ∈ m, e ∈ xs) xs _ (by simp) ?_
    intro m hm y hy e he
    rcases mem_put he with rfl | he
    · exact hy
    · exact hm e he
  exact hall e h

end Keyed

/-! ### The order of entity names -/

instance : IsStrictTotalOrder Urn (· < ·) :=
  Function.Injective.isStrictTotalOrder_onFun (r := (· < ·)) (f := Urn.text)
    fun _ _ => Urn.text_injective

/-! ### Entities -/

namespace Store

theorem entity?_putEntity (s : Store) (u v : Urn) (a : Aspects) :
    (s.putEntity u a).entity? v = if v = u then some a else s.entity? v :=
  Sorted.lookup_put u v a s.entities

theorem aspect?_putAspect (s : Store) (u v : Urn) (name n : String) (e : Envelope) :
    (s.putAspect u name e).aspect? v n = if v = u ∧ n = name then some e else s.aspect? v n := by
  unfold aspect? putAspect
  rw [entity?_putEntity]
  by_cases hv : v = u
  · rw [if_pos hv, Option.bind_eq_bind, Option.bind_some, Sorted.lookup_put]
    by_cases hn : n = name
    · rw [if_pos hn, if_pos ⟨hv, hn⟩]
    · rw [if_neg hn, if_neg fun h => hn h.2, hv]
      cases s.entity? u <;> rfl
  · rw [if_neg hv, if_neg fun h => hv h.1]

end Store

end CatalogRules
