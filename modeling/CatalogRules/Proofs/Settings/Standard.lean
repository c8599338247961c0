import CatalogRules.Proofs.Settings.Lawful
import CatalogRules.Proofs.Toml.Distinct
import CatalogRules.Settings.Standard

/-! # The standard library keeps the laws

Documents write maps of maps, paths part where their keys do, and a value is put where its path
leads. -/

namespace CatalogRules.Settings

open Toml (Value)

namespace Standard

/-! ### Paths -/

theorem isPart_of_isName {name : String} (h : IsName name) :
    name.toList ≠ [] ∧ name.toList.all isPart = true ∧ '.' ∉ name.toList := by
  have hall := List.all_eq_true.mp h.2
  refine ⟨fun hnil => h.1 (String.toList_eq_nil_iff.mp hnil), ?_, fun hpoint => ?_⟩
  · refine List.all_eq_true.mpr fun c hc => ?_
    unfold isPart
    rw [hall c hc, Bool.true_or]
  · exact absurd (hall '.' hpoint) (by decide)

theorem pathOf_name {name : String} (h : IsName name) : pathOf name = [name] := by
  unfold pathOf
  dsimp only
  rw [Text.splitAt_self (isPart_of_isName h).2.2, List.map_singleton, String.ofList_toList,
    ite_self]

theorem pathOf_point {first second : String} (hfirst : IsName first) (hsecond : IsName second) :
    pathOf (first ++ "." ++ second) = [first, second] := by
  obtain ⟨hne, hall, hpoint⟩ := isPart_of_isName hfirst
  obtain ⟨hne', hall', hpoint'⟩ := isPart_of_isName hsecond
  have hlist : (first ++ "." ++ second).toList = first.toList ++ '.' :: second.toList := by
    rw [String.toList_append, String.toList_append, List.append_assoc]
    rfl
  unfold pathOf
  rw [hlist, Text.splitAt_append _ hpoint, Text.splitAt_self hpoint']
  simp [hne, hall, hne', hall']

/-- The path of a key is the key itself, or it begins with what stands before a point. -/
theorem pathOf_cases (key : String) :
    pathOf key = [key] ∨
      ∃ p rest, pathOf key = String.ofList p :: rest ∧ p ++ ['.'] <+: key.toList := by
  have hjoin := Text.joinWith_splitAt '.' key.toList
  unfold pathOf
  dsimp only
  split_ifs
  · cases hs : Text.splitAt '.' key.toList with
    | nil => exact absurd hs (Text.splitAt_ne_nil _ _)
    | cons p ps =>
      rw [hs] at hjoin
      cases ps with
      | nil =>
        left
        rw [Text.joinWith] at hjoin
        rw [hjoin, List.map_singleton, String.ofList_toList]
      | cons q qs =>
        right
        refine ⟨p, _, rfl, Text.joinWith '.' (q :: qs), ?_⟩
        rw [← hjoin, Text.joinWith_cons_cons, List.append_assoc, List.singleton_append]
  · exact Or.inl rfl

/-- The path of a key begins with a name only if the key leads into it. -/
theorem exists_pathOf (key : String) :
    ∃ first rest, pathOf key = first :: rest ∧ LeadsInto first key := by
  rcases pathOf_cases key with hp | ⟨p, rest, hp, hprefix⟩
  · exact ⟨key, [], hp, .inl rfl⟩
  · refine ⟨_, rest, hp, .inr (.inl ?_)⟩
    rwa [String.toList_ofList]

/-! ### Values on top of each other -/

theorem lookup_layFields {fs : List (String × Value)} (h : (fs.map (·.1)).Nodup)
    (old : List (String × Value)) (k : String) :
    (layFields old fs).lookup k =
      match fs.lookup k with
      | some v => some (lay (old.lookup k) v)
      | none => old.lookup k := by
  induction fs generalizing old with
  | nil => rfl
  | cons e fs ih =>
    obtain ⟨j, v⟩ := e
    obtain ⟨hj, hfs⟩ := List.nodup_cons.mp h
    rw [layFields, ih hfs, Keyed.lookup_put]
    by_cases hk : k = j
    · -- the other fields have other names, so this one is not laid over again
      subst hk
      rw [lookup_eq_none.mpr hj, List.lookup_cons_self, if_pos rfl]
    · rw [if_neg hk, List.lookup_cons, beq_eq_false_iff_ne.mpr hk]

theorem lookup_fieldsOf (old : Option Value) (k : String) :
    (fieldsOf old).lookup k = old.bind fun w => w.fields.lookup k := by
  cases old <;> rfl

theorem lay_cons (old : Option Value) (e : String × Value) (fs : List (String × Value)) :
    lay old (.table (e :: fs)) = .table (layFields (fieldsOf old) (e :: fs)) := by
  rw [lay]
  rfl

theorem lay_of_not_isTable {v : Value} (h : ¬ v.IsTable) (old : Option Value) : lay old v = v := by
  cases v with
  | table fs => exact absurd ⟨fs, rfl⟩ h
  | _ => rw [lay]; nofun

/-- A table is laid over another one, and a table with fields over anything, field by field. -/
theorem exists_lay_table (old : Option Value) {fs : List (String × Value)}
    (hkeys : (fs.map (·.1)).Nodup) (h : fs ≠ [] ∨ ∀ w ∈ old, w.IsTable) :
    ∃ gs, lay old (.table fs) = .table gs ∧ ∀ k, gs.lookup k =
      match fs.lookup k with
      | some v => some (lay (old.bind fun w => w.fields.lookup k) v)
      | none => old.bind fun w => w.fields.lookup k := by
  simp only [← lookup_fieldsOf]
  cases fs with
  | cons e fs => exact ⟨_, lay_cons old e fs, lookup_layFields hkeys _⟩
  | nil =>
    -- there is nothing to lay over the table
    have hold := h.resolve_left fun h => h rfl
    cases old with
    | none => exact ⟨[], rfl, fun _ => rfl⟩
    | some w =>
      obtain ⟨ws, rfl⟩ := hold w rfl
      exact ⟨ws, rfl, fun _ => rfl⟩

/-- What is set under a path is put under the name with which the path begins. -/
theorem lay_nest (t : Value) (first : String) (rest : List String) (v : Value) :
    lay (some t) (nest (first :: rest) v) =
      .table (Keyed.put first (lay (t.fields.lookup first) (nest rest v)) t.fields) := by
  rw [nest, lay_cons, layFields, layFields]
  rfl

/-- A value that is set is put under a name that the key leads into. -/
theorem exists_set (t : Value) (key : String) (v : Value) :
    ∃ first rest, LeadsInto first key ∧ set t key v =
      .table (Keyed.put first (lay (t.fields.lookup first) (nest rest v)) t.fields) := by
  obtain ⟨first, rest, hpath, hleads⟩ := exists_pathOf key
  refine ⟨first, rest, hleads, ?_⟩
  rw [set, hpath, lay_nest]

theorem set_of_isName {name : String} (h : IsName name) (t v : Value) :
    set t name v = .table (Keyed.put name (lay (t.fields.lookup name) v) t.fields) := by
  rw [set, pathOf_name h, lay_nest, nest]

/-! ### Files -/

theorem file?_of_lookup {files : List (String × String)} {path text : String}
    (h : files.lookup path = some text) :
    file? files path = if Nameless path then some [] else fields? text := by
  rw [file?, h]

theorem file?_of_absent {files : List (String × String)} {path : String}
    (h : ∀ f ∈ files, ¬ path.toList <+: f.1.toList) : file? files path = some [] := by
  have hnone : ∀ rest, files.lookup (path ++ rest) = none := by
    intro rest
    cases hfile : files.lookup (path ++ rest) with
    | none => rfl
    | some text =>
      refine absurd ?_ (h _ (mem_of_lookup hfile))
      rw [String.toList_append]
      exact List.prefix_append _ _
  have hpath := hnone ""
  rw [String.append_empty] at hpath
  rw [file?, hpath, hnone]

end Standard

/-! ### Laws -/

/-- **The standard library keeps the laws.** -/
instance : LawfulLibrary where
  distinct {text fs} h := by
    obtain ⟨v, hv, rfl⟩ := Option.map_eq_some_iff.mp h
    obtain ⟨p, -, hp⟩ := Option.bind_eq_some_iff.mp hv
    cases hp
    exact Toml.distinct_of_ofText? hv
  present hname hfile := (Standard.file?_of_lookup hfile).trans (if_neg hname)
  nameless hpath hfile := (Standard.file?_of_lookup hfile).trans (if_pos hpath)
  absent := Standard.file?_of_absent
  value {name text key v} h := by
    obtain ⟨rest, -, h⟩ := Option.bind_eq_some_iff.mp h
    cases h
    rfl
  lay_plain h := Standard.lay_of_not_isTable h _
  lay_table := Standard.exists_lay_table
  lay_empty _ := rfl
  set_isTable t key v := by
    obtain ⟨first, rest, -, hset⟩ := Standard.exists_set t key v
    exact ⟨_, hset⟩
  set_name {name} hname t v := by
    show (Standard.set t name v).fields.lookup name = some (Standard.lay (t.fields.lookup name) v)
    rw [Standard.set_of_isName hname, Value.fields, Keyed.lookup_put, if_pos rfl]
  set_other {name key} _ hkey t v := by
    obtain ⟨first, rest, hleads, hset⟩ := Standard.exists_set t key v
    have hne : name ≠ first := fun h => hkey (h ▸ hleads)
    show (Standard.set t key v).fields.lookup name = t.fields.lookup name
    rw [hset, Value.fields, Keyed.lookup_put, if_neg hne]
  set_point {first second} hfirst hsecond t v := by
    show Standard.set t (first ++ "." ++ second) v = Standard.set t first (.table [(second, v)])
    rw [Standard.set, Standard.set, Standard.pathOf_point hfirst hsecond,
      Standard.pathOf_name hfirst]
    rfl
  text s := rfl
  text_table fs := rfl
  truth_table fs := rfl
  natural_table fs := rfl
  short_table fs := rfl

end CatalogRules.Settings
