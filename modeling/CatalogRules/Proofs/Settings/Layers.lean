import CatalogRules.Proofs.Settings.Lawful
import CatalogRules.Settings.Layers

/-! # Layers on top of each other

A layer gives each setting a value or none, and the value of the last layer that gives one counts
(`overriding`), except that a table without fields does not count over anything else. This is what a
value laid over another one has at the end of a path (`alike_lay`), up to the fields of tables
(`Alike`), which no conversion looks at. It takes tables on the way along the path in both values.
From it follows what an entry of a layer does to a setting (`Sets`), what a file does
(`Layer.gives_fields`), and what layers do together (`Layer.alike_combine`). -/

namespace CatalogRules

open Toml (Value)

namespace Settings

open Library

/-! ### The last value counts -/

/-- The value that counts after a layer, by what counted before and what the layer gives. A table
without fields sets nothing where there is a value. -/
def overriding (old : Option Value) : Option Value → Option Value
  | none => old
  | some (.table []) => old.or (some (.table []))
  | some v => some v

/-- The values are the same, or they are both tables. -/
inductive Alike : Option Value → Option Value → Prop
  | refl (v : Option Value) : Alike v v
  | tables (fs gs : List (String × Value)) : Alike (some (.table fs)) (some (.table gs))

theorem Alike.trans {u v w : Option Value} (huv : Alike u v) (hvw : Alike v w) : Alike u w := by
  cases huv with
  | refl => exact hvw
  | tables fs gs =>
    cases hvw with
    | refl => exact .tables fs gs
    | tables _ hs => exact .tables fs hs

theorem overriding_plain {v : Value} (h : ¬ v.IsTable) (old : Option Value) :
    overriding old (some v) = some v := by
  cases v with
  | table fs => exact absurd ⟨fs, rfl⟩ h
  | _ => rfl

theorem Alike.overriding {v w : Option Value} (h : Alike v w) (new : Option Value) :
    Alike (overriding v new) (overriding w new) := by
  cases h with
  | refl => exact .refl _
  | tables fs gs =>
    cases new with
    | none => exact .tables fs gs
    | some u =>
      cases u with
      | table hs =>
        cases hs with
        | nil => exact .tables fs gs
        | cons e hs => exact .refl _
      | _ => exact .refl _

section Laws
variable [Library] [LawfulLibrary]

/-! ### Values laid over each other -/

/-- A value laid over what is there counts as overriding it. -/
theorem alike_lay_end {new : Value} (hd : new.Distinct) (old : Option Value) :
    Alike (some (lay old new)) (overriding old (some new)) := by
  by_cases hnew : new.IsTable
  · obtain ⟨fs, rfl⟩ := hnew
    cases fs with
    | cons e fs =>
      obtain ⟨gs, hgs, -⟩ := LawfulLibrary.lay_table old hd.keys (.inl (by simp))
      rw [hgs]
      exact .tables gs _
    | nil =>
      by_cases hold : ∀ w ∈ old, w.IsTable
      · obtain ⟨gs, hgs, -⟩ := LawfulLibrary.lay_table old hd.keys (.inr hold)
        rw [hgs]
        cases old with
        | none => exact .tables gs []
        | some w =>
          obtain ⟨ws, rfl⟩ := hold w rfl
          exact .tables gs ws
      · push Not at hold
        obtain ⟨w, rfl, hw⟩ := hold
        rw [LawfulLibrary.lay_empty hw]
        exact .refl _
  · rw [LawfulLibrary.lay_plain hnew, overriding_plain hnew]
    exact .refl _

theorem leadsTo_lay {path : List String} {old : Option Value} {new : Value}
    (ho : ∀ w ∈ old, w.LeadsTo path) (hn : new.LeadsTo path) (hd : new.Distinct) :
    (lay old new).LeadsTo path := by
  induction path generalizing old new with
  | nil => trivial
  | cons k ks ih =>
    obtain ⟨⟨fs, rfl⟩, hn⟩ := hn
    obtain ⟨gs, hgs, hlookup⟩ := LawfulLibrary.lay_table old hd.keys (.inr fun w hw => (ho w hw).1)
    have hbelow : ∀ u ∈ old.bind fun w => w.fields.lookup k, u.LeadsTo ks := by
      intro u hu
      obtain ⟨w, hw, hu⟩ := Option.bind_eq_some_iff.mp hu
      exact (ho w hw).2 u hu
    rw [hgs]
    refine ⟨⟨gs, rfl⟩, fun u hu => ?_⟩
    rw [Value.fields, hlookup] at hu
    cases hv : fs.lookup k with
    | none => exact hbelow u (by simpa only [hv, Option.mem_def] using hu)
    | some v =>
      obtain rfl : _ = u := by simpa only [hv, Option.some.injEq] using hu
      exact ih hbelow (hn v hv) (hd.lookup hv)

/-- **What a value laid over another one has at the end of a path** is what the new value has there,
overriding what the old one had. -/
theorem alike_lay {path : List String} {old : Option Value} {new : Value}
    (ho : ∀ w ∈ old, w.LeadsTo path) (hn : new.LeadsTo path) (hd : new.Distinct) :
    Alike ((lay old new).get? path) (overriding (old.bind (Value.get? path)) (new.get? path)) := by
  induction path generalizing old new with
  | nil =>
    have hend : old.bind (Value.get? []) = old := by cases old <;> rfl
    rw [hend]
    exact alike_lay_end hd old
  | cons k ks ih =>
    obtain ⟨⟨fs, rfl⟩, hn⟩ := hn
    obtain ⟨gs, hgs, hlookup⟩ := LawfulLibrary.lay_table old hd.keys (.inr fun w hw => (ho w hw).1)
    have hbelow : old.bind (Value.get? (k :: ks)) =
        (old.bind fun w => w.fields.lookup k).bind (Value.get? ks) := by
      rw [Option.bind_assoc]
      rfl
    rw [hgs, hbelow, Value.get?_cons, Value.get?_cons, Value.fields, Value.fields, hlookup]
    cases hv : fs.lookup k with
    | none => exact .refl _
    | some v =>
      refine ih (fun u hu => ?_) (hn v hv) (hd.lookup hv)
      obtain ⟨w, hw, hu⟩ := Option.bind_eq_some_iff.mp hu
      exact (ho w hw).2 u hu

/-! ### Entries -/

/-- An entry of a layer leaves the tables on the way along the path in place and gives the setting
at its end a value, or none. -/
structure Sets (path : List String) (e : String × Value) (given : Option Value) : Prop where
  leadsTo : ∀ {t : Value}, t.LeadsTo path → (set t e.1 e.2).LeadsTo path
  alike : ∀ {t : Value}, t.LeadsTo path →
    Alike ((set t e.1 e.2).get? path) (overriding (t.get? path) given)

section Entries
variable {name : String} {rest : List String}

/-- A value under the name with which the path begins gives what it has along the rest. -/
theorem sets_name {v : Value} (hname : IsName name) (hv : v.LeadsTo rest) (hd : v.Distinct) :
    Sets (name :: rest) (name, v) (v.get? rest) where
  leadsTo {t} ht := by
    refine ⟨LawfulLibrary.set_isTable t name v, fun w hw => ?_⟩
    rw [LawfulLibrary.set_name hname] at hw
    obtain rfl := Option.some.inj hw
    exact leadsTo_lay ht.2 hv hd
  alike {t} ht := by
    rw [Value.get?_cons, LawfulLibrary.set_name hname, Value.get?_cons]
    exact alike_lay ht.2 hv hd

/-- A value under a key that does not lead into the name gives nothing. -/
theorem sets_other {key : String} (hname : IsName name) (hkey : ¬ LeadsInto name key) (v : Value) :
    Sets (name :: rest) (key, v) none where
  leadsTo {t} ht := by
    refine ⟨LawfulLibrary.set_isTable t key v, fun w hw => ?_⟩
    rw [LawfulLibrary.set_other hname hkey] at hw
    exact ht.2 w hw
  alike {t} ht := by
    rw [Value.get?_cons, LawfulLibrary.set_other hname hkey]
    exact .refl _

end Entries
end Laws
end Settings

/-! ### Layers -/

namespace Layer

open Settings

variable [Library] [LawfulLibrary] {path : List String}

/-- The layer leaves the tables on the way along the path in place and gives the setting at its end
a value, or none. -/
structure Gives (path : List String) (l : Layer) (given : Option Value) : Prop where
  leadsTo : ∀ {t : Value}, t.LeadsTo path → (applyTo t l).LeadsTo path
  alike : ∀ {t : Value}, t.LeadsTo path →
    Alike ((applyTo t l).get? path) (overriding (t.get? path) given)

omit [LawfulLibrary] in
theorem gives_nil : Gives path [] none := ⟨id, fun _ => .refl _⟩

omit [LawfulLibrary] in
/-- What a layer gives is what its first entry gives, overridden by the others. -/
theorem gives_cons {e : String × Value} {l : Layer} {first others given : Option Value}
    (he : Sets path e first) (hl : Gives path l others)
    (h : ∀ old, overriding (overriding old first) others = overriding old given) :
    Gives path (e :: l) given where
  leadsTo ht := hl.leadsTo (he.leadsTo ht)
  alike {t} ht := by
    have hstep := ((he.alike ht).overriding others)
    rw [h] at hstep
    exact (hl.alike (he.leadsTo ht)).trans hstep

/-- The fields of a file beside a path: those under the name with which it begins lead along it, and
no other leads into the name. -/
def Beside (name : String) (rest : List String) (fs : List (String × Value)) : Prop :=
  ∀ e ∈ fs, e.1 = name ∧ e.2.LeadsTo rest ∨ ¬ LeadsInto name e.1

/-- A file gives a setting the value at the end of the setting's path. -/
theorem gives_fields {name : String} {rest : List String} (hname : IsName name)
    {fs : List (String × Value)} (hfs : Beside name rest fs) (hd : (Value.table fs).Distinct) :
    Gives (name :: rest) fs ((Value.table fs).get? (name :: rest)) := by
  induction fs with
  | nil => exact gives_nil
  | cons e fs ih =>
    obtain ⟨k, v⟩ := e
    obtain ⟨he, hfs⟩ := List.forall_mem_cons.mp hfs
    obtain ⟨hnew, hkeys⟩ := List.nodup_cons.mp hd.keys
    have hrest := ih hfs (.table hkeys fun e he => hd.lookup (lookup_of_mem hd.keys
      (List.mem_cons_of_mem _ he)))
    rw [Value.get?_cons, Value.fields] at hrest ⊢
    rcases he with ⟨rfl, hv⟩ | hother
    · -- the other fields have other names, so they give nothing more
      dsimp only at hnew hname
      rw [lookup_eq_none.mpr hnew] at hrest
      rw [List.lookup_cons_self, Option.bind_some]
      exact gives_cons (sets_name hname hv (hd.lookup List.lookup_cons_self)) hrest fun _ => rfl
    · have hne : name ≠ k := fun h => hother (.inl h.symm)
      rw [List.lookup_cons, beq_eq_false_iff_ne.mpr hne]
      exact gives_cons (sets_other hname hother v) hrest fun _ => rfl

end Layer
end CatalogRules
