import CatalogRules.Resolution.Path
import Mathlib.Data.List.Basic
import Mathlib.Data.List.Lex
import Mathlib.Data.List.Nodup
import Mathlib.Tactic.SplitIfs

/-! # The nodes that field names lead to

A place in a value is the list of the numbers of the items and fields that are entered on the way to
it, so document order is the lexicographic order of places. `Json.Value.HasNode` says which node is
at a place and which keys are on the way; items of arrays have none. Field names lead to the nodes
that have just these keys on the way and are not arrays (`Json.Value.Addresses`).

* `enumerates_walk`: `Path.walk` finds the nodes that the names lead to, in document order. What is
  listed for the parts of a value is put together by the lemmas on `Json.Enumerates`.
* `walk_infix`: what is found in a node by the names that are left is found in the value by all of
  them, as one run.
* `walk_addressed`: both together. -/

namespace CatalogRules

namespace Json

/-- A place in a value: the numbers of the items and fields that are entered, from the root on. -/
abbrev Place := List Nat

/-- A value has the node `w` at a place, and the fields that are entered have the keys `ks`. If a key
is repeated, it is that of the first field. -/
inductive Value.HasNode : Value → Place → List String → Value → Prop
  | root (v : Value) : HasNode v [] [] v
  | item {items : List Value} {i : Nat} {v w : Value} {p : Place} {ks : List String}
      (hi : items[i]? = some v) (hv : v.HasNode p ks w) : HasNode (.array items) (i :: p) ks w
  | field {fields : List (String × Value)} {i : Nat} {k : String} {v w : Value} {p : Place}
      {ks : List String} (hi : fields[i]? = some (k, v)) (first : k ∉ (fields.take i).map (·.1))
      (hv : v.HasNode p ks w) : HasNode (.object fields) (i :: p) (k :: ks) w

/-- In an object with distinct keys every field counts. -/
theorem Value.HasNode.field_of_nodup {fields : List (String × Value)} {i : Nat} {k : String}
    {v w : Value} {p : Place} {ks : List String} (hfields : (fields.map (·.1)).Nodup)
    (hi : fields[i]? = some (k, v)) (hv : v.HasNode p ks w) :
    (Value.object fields).HasNode (i :: p) (k :: ks) w := by
  refine .field hi (fun hk => ?_) hv
  have hdrop : (k, v) ∈ fields.drop i := by
    refine List.mem_of_getElem? (i := 0) ?_
    rw [List.getElem?_drop, Nat.add_zero, hi]
  rw [← List.take_append_drop i fields, List.map_append] at hfields
  exact List.disjoint_of_nodup_append hfields hk (List.mem_map_of_mem hdrop)

/-- Field names lead to the node `w` at a place: it is not an array, and the names are the keys on
the way to it. -/
def Value.Addresses (v : Value) (names : List String) (p : Place) (w : Value) : Prop :=
  v.HasNode p names w ∧ ∀ items, w ≠ .array items

/-! ### Listing in document order -/

/-- The values for which `P` holds at some place, each once and in order of the places. -/
def Enumerates (P : Place → Value → Prop) (vs : List Value) : Prop :=
  ∃ nodes : List (Place × Value), (∀ p w, (p, w) ∈ nodes ↔ P p w) ∧
    (nodes.map (·.1)).Pairwise (· < ·) ∧ vs = nodes.map (·.2)

namespace Enumerates

variable {P Q : Place → Value → Prop} {vs ws : List Value}

theorem congr (h : Enumerates P vs) (hPQ : ∀ p w, Q p w ↔ P p w) : Enumerates Q vs := by
  obtain ⟨nodes, hmem, hlt, hvs⟩ := h
  exact ⟨nodes, fun p w => (hmem p w).trans (hPQ p w).symm, hlt, hvs⟩

theorem nil (h : ∀ p w, ¬ P p w) : Enumerates P [] :=
  ⟨[], by simpa using h, List.Pairwise.nil, rfl⟩

theorem root (v : Value) : Enumerates (fun p w => p = [] ∧ w = v) [v] :=
  ⟨[([], v)], by simp, List.pairwise_singleton _ _, rfl⟩

/-- What is listed for an item or a field is listed for the whole, with its number in front of the
places. -/
theorem below (h : Enumerates P vs) (i : Nat) :
    Enumerates (fun p w => ∃ q, p = i :: q ∧ P q w) vs := by
  obtain ⟨nodes, hmem, hlt, rfl⟩ := h
  refine ⟨nodes.map fun n => (i :: n.1, n.2), fun p w => ?_, ?_, ?_⟩
  · simp only [List.mem_map, Prod.exists, Prod.mk.injEq, ← hmem]
    constructor
    · rintro ⟨q, w, hq, rfl, rfl⟩
      exact ⟨q, rfl, hq⟩
    · rintro ⟨q, rfl, hq⟩
      exact ⟨q, w, hq, rfl, rfl⟩
  · rw [List.pairwise_map] at hlt
    rw [List.map_map, List.pairwise_map]
    exact hlt.imp fun h => List.cons_lt_cons_iff.mpr (Or.inr ⟨rfl, h⟩)
  · rw [List.map_map]
    rfl

theorem append (hv : Enumerates P vs) (hw : Enumerates Q ws)
    (hPQ : ∀ p q v w, P p v → Q q w → p < q) :
    Enumerates (fun p w => P p w ∨ Q p w) (vs ++ ws) := by
  obtain ⟨ns, hns, hltns, rfl⟩ := hv
  obtain ⟨ms, hms, hltms, rfl⟩ := hw
  refine ⟨ns ++ ms, fun p w => by rw [List.mem_append, hns, hms], ?_, by rw [List.map_append]⟩
  rw [List.map_append, List.pairwise_append]
  refine ⟨hltns, hltms, fun p hp q hq => ?_⟩
  obtain ⟨n, hn, rfl⟩ := List.mem_map.mp hp
  obtain ⟨m, hm, rfl⟩ := List.mem_map.mp hq
  exact hPQ _ _ _ _ ((hns n.1 n.2).mp hn) ((hms m.1 m.2).mp hm)

end Enumerates
end Json

namespace Path

open Json

/-! ### The parts of a value -/

/-- Field names lead to a node in some items, the first of which has the number `n`. -/
def ItemsAddress (n : Nat) (items : List Value) (names : List String) (p : Place) (w : Value) :
    Prop :=
  ∃ i v, items[i]? = some v ∧ ∃ q, p = (n + i) :: q ∧ v.Addresses names q w

/-- Field names, of which `name` is the first, lead to a node in some fields, the first of which has
the number `n`. -/
def FieldsAddress (n : Nat) (fields : List (String × Value)) (name : String) (names : List String)
    (p : Place) (w : Value) : Prop :=
  ∃ i v, fields[i]? = some (name, v) ∧ name ∉ (fields.take i).map (·.1) ∧
    ∃ q, p = (n + i) :: q ∧ v.Addresses names q w

variable {n : Nat} {v w : Value} {items : List Value} {fields : List (String × Value)}
variable {k name : String} {names : List String} {p : Place}

theorem itemsAddress_cons : ItemsAddress n (v :: items) names p w ↔
    (∃ q, p = n :: q ∧ v.Addresses names q w) ∨ ItemsAddress (n + 1) items names p w := by
  constructor
  · rintro ⟨_ | i, u, hi, q, rfl, hq⟩
    · rw [List.getElem?_cons_zero, Option.some.injEq] at hi
      subst hi
      exact Or.inl ⟨q, rfl, hq⟩
    · exact Or.inr ⟨i, u, hi, q, by rw [Nat.add_right_comm, Nat.add_assoc], hq⟩
  · rintro (⟨q, rfl, hq⟩ | ⟨i, u, hi, q, rfl, hq⟩)
    · exact ⟨0, v, rfl, q, rfl, hq⟩
    · exact ⟨i + 1, u, hi, q, by rw [Nat.add_right_comm, Nat.add_assoc], hq⟩

theorem fieldsAddress_cons_self : FieldsAddress n ((name, v) :: fields) name names p w ↔
    ∃ q, p = n :: q ∧ v.Addresses names q w := by
  constructor
  · rintro ⟨_ | i, u, hi, first, q, rfl, hq⟩
    · rw [List.getElem?_cons_zero, Option.some.injEq, Prod.mk.injEq] at hi
      obtain ⟨-, rfl⟩ := hi
      exact ⟨q, rfl, hq⟩
    · exact absurd (by simp) first
  · rintro ⟨q, rfl, hq⟩
    exact ⟨0, v, rfl, by simp, q, rfl, hq⟩

theorem fieldsAddress_cons_of_ne (hk : k ≠ name) :
    FieldsAddress n ((k, v) :: fields) name names p w ↔
      FieldsAddress (n + 1) fields name names p w := by
  constructor
  · rintro ⟨_ | i, u, hi, first, q, rfl, hq⟩
    · rw [List.getElem?_cons_zero, Option.some.injEq, Prod.mk.injEq] at hi
      exact absurd hi.1 hk
    · refine ⟨i, u, hi, fun h => first ?_, q, by rw [Nat.add_right_comm, Nat.add_assoc], hq⟩
      exact List.mem_cons_of_mem _ h
  · rintro ⟨i, u, hi, first, q, rfl, hq⟩
    refine ⟨i + 1, u, hi, fun h => ?_, q, by rw [Nat.add_right_comm, Nat.add_assoc], hq⟩
    exact (List.mem_cons.mp h).elim (fun h => hk h.symm) first

theorem addresses_array :
    (Value.array items).Addresses names p w ↔ ItemsAddress 0 items names p w := by
  constructor
  · rintro ⟨hnode, hw⟩
    cases hnode with
    | root => exact absurd rfl (hw items)
    | item hi hv => exact ⟨_, _, hi, _, by rw [Nat.zero_add], hv, hw⟩
  · rintro ⟨i, v, hi, q, rfl, hv, hw⟩
    rw [Nat.zero_add]
    exact ⟨.item hi hv, hw⟩

theorem addresses_object :
    (Value.object fields).Addresses (name :: names) p w ↔
      FieldsAddress 0 fields name names p w := by
  constructor
  · rintro ⟨hnode, hw⟩
    cases hnode with
    | field hi first hv => exact ⟨_, _, hi, first, _, by rw [Nat.zero_add], hv, hw⟩
  · rintro ⟨i, v, hi, first, q, rfl, hv, hw⟩
    rw [Nat.zero_add]
    exact ⟨.field hi first hv, hw⟩

theorem addresses_nil (hv : ∀ items, v ≠ .array items) :
    v.Addresses [] p w ↔ p = [] ∧ w = v := by
  constructor
  · rintro ⟨hnode, -⟩
    cases hnode with
    | root => exact ⟨rfl, rfl⟩
    | item => exact absurd rfl (hv _)
  · rintro ⟨rfl, rfl⟩
    exact ⟨.root _, hv⟩

/-- Nothing is below a value that is neither an array nor an object. -/
theorem not_addresses_cons (ha : ∀ items, v ≠ .array items) (ho : ∀ fields, v ≠ .object fields) :
    ¬ v.Addresses (name :: names) p w := by
  rintro ⟨hnode, -⟩
  cases hnode with
  | item => exact ha _ rfl
  | field => exact ho _ rfl

/-! ### Walking -/

theorem walkItems_eq (items : List Value) (names : List String) :
    walkItems items names = items.flatMap fun v => walk v names := by
  induction items with
  | nil => rfl
  | cons v items ih => rw [walkItems, ih, List.flatMap_cons]

theorem walk_array (items : List Value) (names : List String) :
    walk (.array items) names = items.flatMap fun v => walk v names := by
  rw [walk, walkItems_eq]

theorem walkField_of_first {i : Nat} (hi : fields[i]? = some (k, v))
    (first : k ∉ (fields.take i).map (·.1)) : walkField fields k names = walk v names := by
  induction fields generalizing i with
  | nil => cases hi
  | cons f fields ih =>
    obtain ⟨j, u⟩ := f
    cases i with
    | zero =>
      rw [List.getElem?_cons_zero, Option.some.injEq, Prod.mk.injEq] at hi
      obtain ⟨rfl, rfl⟩ := hi
      rw [walkField, if_pos rfl]
    | succ i =>
      rw [List.take_succ_cons, List.map_cons, List.mem_cons, not_or] at first
      rw [walkField, if_neg (Ne.symm first.1)]
      exact ih hi first.2

/-- **What is found in a node is found in the value, as one run.** -/
theorem walk_infix {ks : List String} (h : v.HasNode p ks w) (names : List String) :
    walk w names <:+: walk v (ks ++ names) := by
  induction h with
  | root => exact List.infix_rfl
  | @item items i u w q ks hi _ ih =>
    rw [walk_array]
    exact ih.trans (List.infix_flatMap_of_mem (List.mem_of_getElem? hi) (walk · (ks ++ names)))
  | field hi first _ ih => rwa [List.cons_append, walk, walkField_of_first hi first]

-- The recursion is that of `walk`: through the items with the same names, into one field with one
-- name less. The numbers in front keep the places of later items above those of earlier ones.
mutual

/-- **The nodes that field names lead to are found in document order.** -/
theorem enumerates_walk : ∀ (v : Value) (names : List String),
    Enumerates (v.Addresses names) (walk v names)
  | .array items, names => by
    rw [walk]
    exact (enumerates_walkItems 0 items names).congr fun _ _ => addresses_array
  | .object fields, name :: names => by
    rw [walk]
    exact (enumerates_walkField 0 fields name names).congr fun _ _ => addresses_object
  | .null, [] | .bool _, [] | .number _, [] | .string _, [] | .object _, [] =>
    (Enumerates.root _).congr fun _ _ => addresses_nil (by simp)
  | .null, _ :: _ | .bool _, _ :: _ | .number _, _ :: _ | .string _, _ :: _ =>
    Enumerates.nil fun _ _ => not_addresses_cons (by simp) (by simp)

theorem enumerates_walkItems : ∀ (n : Nat) (items : List Value) (names : List String),
    Enumerates (ItemsAddress n items names) (walkItems items names)
  | _, [], _ => Enumerates.nil fun _ _ ⟨_, _, hi, _⟩ => by cases hi
  | n, v :: items, names => by
    rw [walkItems]
    have hhead := (enumerates_walk v names).below n
    have htail := enumerates_walkItems (n + 1) items names
    refine (hhead.append htail ?_).congr fun _ _ => itemsAddress_cons
    rintro _ _ _ _ ⟨q, rfl, -⟩ ⟨i, _, _, q', rfl, -⟩
    exact List.cons_lt_cons_iff.mpr (Or.inl (by omega))

theorem enumerates_walkField : ∀ (n : Nat) (fields : List (String × Value)) (name : String)
    (names : List String), Enumerates (FieldsAddress n fields name names)
      (walkField fields name names)
  | _, [], _, _ => Enumerates.nil fun _ _ ⟨_, _, hi, _⟩ => by cases hi
  | n, (k, v) :: fields, name, names => by
    rw [walkField]
    split_ifs with hk
    · subst hk
      exact ((enumerates_walk v names).below n).congr fun _ _ => fieldsAddress_cons_self
    · exact (enumerates_walkField (n + 1) fields name names).congr fun _ _ =>
        fieldsAddress_cons_of_ne hk

end

/-- **Walking visits the addressed nodes, each once and in document order.** They are the nodes that
are not arrays and have the field names as the keys on the way to them. The items of an array at any
depth are found one after the other, by the names that are left. -/
theorem walk_addressed (v : Value) (names : List String) :
    (∃ nodes : List (Place × Value),
      (∀ p w, (p, w) ∈ nodes ↔ v.HasNode p names w ∧ ∀ items, w ≠ .array items) ∧
      (nodes.map (·.1)).Pairwise (· < ·) ∧ (nodes.map (·.1)).Nodup ∧
      walk v names = nodes.map (·.2)) ∧
    ∀ p taken left items, names = taken ++ left → v.HasNode p taken (.array items) →
      (items.flatMap fun u => walk u left) <:+: walk v names := by
  constructor
  · obtain ⟨nodes, hmem, hlt, hwalk⟩ := enumerates_walk v names
    exact ⟨nodes, hmem, hlt, hlt.imp fun h => ne_of_lt h, hwalk⟩
  · rintro p taken left items rfl harray
    rw [← walk_array]
    exact walk_infix harray left

/-- Arrays of arrays of objects, a list at the end, an empty one and a missing field. -/
theorem walk_nested :
    let items := [.array [.object [("b", .number (.int 1))], .bool true],
      .object [("b", .array [.object [("b", .null)], .array []])], .object [("c", .null)]]
    let v := Value.object [("a", .array items)]
    walk v ["a", "b"] = [.number (.int 1), .object [("b", .null)]] ∧
      v.HasNode [0] ["a"] (.array items) ∧
      (items.flatMap fun u => walk u ["b"]) <:+: walk v ["a", "b"] := by
  intro items v
  have harray : v.HasNode [0] ["a"] (.array items) := .field_of_nodup (by simp) rfl (.root _)
  exact ⟨rfl, harray, (walk_addressed v ["a", "b"]).2 [0] ["a"] ["b"] items rfl harray⟩

end Path
end CatalogRules
