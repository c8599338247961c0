import CatalogRules.Proofs.Definition.NewerNames

/-! # The plain form of a document

The plain form of a document (`Definition.desugar`) has no older names and no arrays as rule nodes;
a mark is a `not` around the object, and the parameters of a leaf are lists in `params`.

A leaf is read alike, up to the paths in its faults, with its parameters gathered
(`toOption_leaf_gathered`) and without its mark (`toOption_leaf_markless`). -/

namespace CatalogRules.Definition

open Json (Value)

/-! ### The plain form -/

/-- The values of a parameter as a list, for a scalar the list of its text. -/
def listed (v : Value) : Value :=
  match scalarText? v with
  | some s => .array [.string s]
  | none => v

/-- The parameters with lists of values. -/
def listedParams : Value → Value
  | .object params => .object (params.map fun p => (p.1, listed p.2))
  | v => v

/-- The fields of a leaf with the parameters in `params`; a logical node keeps its fields. -/
def gathered (fields : List (String × Value)) : List (String × Value) :=
  if logicalPresent fields ≠ [] then fields
  else if (fields.lookup "params").isSome then
    fields.map fun p => (p.1, if p.1 = "params" then listedParams p.2 else p.2)
  else
    fields.filter (fun p => reserved.contains p.1) ++
      [("params", listedParams (.object (fields.filter fun p => ¬ reserved.contains p.1)))]

/-- The fields without the mark. -/
def markless (fields : List (String × Value)) : List (String × Value) :=
  fields.filter fun p => p.1 ≠ "negate"

/-- The plain form of an object, given its fields under their newer names with the rule nodes among
them in plain form. A mark that is no truth value stays. -/
def plainObject (fields : List (String × Value)) : Value :=
  let plain : Value := .object (gathered (markless fields))
  if (fields.lookup "not").isSome then plain
  else match fields.lookup "negate" with
    | none | some .null | some (.bool false) => plain
    | some (.bool true) => .object [("not", plain)]
    | some _ => .object (gathered fields)

mutual

/-- The plain form of a rule node. -/
def desugarRule : Value → Value
  | .array items => .object [("and", .array (desugarItems items))]
  | .object fields => plainObject (renamed (desugarFields fields))
  | v => v

/-- The plain form of an array of rule nodes. -/
def desugarRules : Value → Value
  | .array items => .array (desugarItems items)
  | v => v

/-- The plain forms of a list of rule nodes. -/
def desugarItems : List Value → List Value
  | [] => []
  | v :: vs => desugarRule v :: desugarItems vs

/-- The fields of an object with the rule nodes among them in plain form. -/
def desugarFields : List (String × Value) → List (String × Value)
  | [] => []
  | (k, v) :: rest =>
    (k, if k = "not" then desugarRule v else if k = "or" ∨ k = "and" then desugarRules v else v) ::
      desugarFields rest

end

/-- The plain form of a field of the `on` block. -/
def desugarTarget (k : String) (v : Value) : Value := if k = "conditions" then desugarRule v else v

/-- The plain form of the `on` block. -/
def desugarTargeting : Value → Value
  | .object fields => .object ((renamed fields).map fun p => (p.1, desugarTarget p.1 p.2))
  | v => v

/-- The plain form of a field of a document. -/
def desugarPart (k : String) (v : Value) : Value :=
  if k = "on" then desugarTargeting v else if k = "rules" then desugarRule v else v

/-- The plain form of a document. -/
def desugar : Value → Value
  | .object fields => .object (fields.map fun p => (p.1, desugarPart p.1 p.2))
  | v => v

/-! ### Results up to faults -/

/-- Two steps are carried over if each of them is. -/
theorem toOption_bind_map {ε α α' β β' : Type} {x : Except ε α} {y : Except ε α'}
    {f : α → Except ε β} {g : α' → Except ε β'} {u : α → α'} {w : β → β'}
    (h : y.toOption = x.toOption.map u) (hfg : ∀ a, (g (u a)).toOption = (f a).toOption.map w) :
    (y >>= g).toOption = (x >>= f).toOption.map w := by
  rw [toOption_bind, toOption_bind, h, Option.bind_map, Option.map_bind]
  exact congrArg _ (funext hfg)

variable {path path' : String} {fields fields' : List (String × Value)}

theorem toOption_checked (op : Operator) (xs : List (Operand Predicate)) :
    (checked path' op xs).toOption = (checked path op xs).toOption := by
  unfold checked
  split <;> rfl

theorem toOption_scalarTexts (fault fault' : Nat → Fault) : ∀ (i : Nat) (vs : List Value),
    (scalarTexts fault' i vs).toOption = (scalarTexts fault i vs).toOption
  | _, [] => rfl
  | i, v :: vs => by
    unfold scalarTexts
    cases scalarText? v with
    | none => rfl
    | some s =>
      dsimp only
      rw [toOption_bind, toOption_bind, toOption_scalarTexts fault fault' (i + 1) vs]

/-- A parameter has the same values as a list. -/
theorem toOption_stringList_listed (v : Value) :
    (stringList path' (listed v)).toOption = (stringList path v).toOption := by
  cases v with
  | array items => exact toOption_scalarTexts _ _ 0 items
  | null | bool | number | string | object => rfl

theorem toOption_literalOperands : ∀ (i : Nat) (params : List (String × Value)),
    (literalOperands path' i (params.map fun p => (p.1, listed p.2))).toOption =
      (literalOperands path i params).toOption
  | _, [] => rfl
  | i, (name, v) :: params => by
    rw [List.map_cons, literalOperands, literalOperands, toOption_bind, toOption_bind,
      toOption_stringList_listed]
    refine congrArg _ (funext fun values => ?_)
    rw [toOption_bind, toOption_bind, toOption_literalOperands (i + 1) params]

/-! ### Leaves -/

theorem toOption_leafProperty (h : fields'.lookup "property" = fields.lookup "property") :
    (leafProperty path' fields').toOption = (leafProperty path fields).toOption := by
  unfold leafProperty
  rw [h]
  split <;> rfl

theorem toOption_leafOperator (h : fields'.lookup "operator" = fields.lookup "operator") :
    (leafOperator path' fields').toOption = (leafOperator path fields).toOption := by
  unfold leafOperator
  rw [h]
  split
  · split <;> rfl
  · rfl

/-- The fields without the mark are the same but for the mark. -/
theorem lookup_markless {key : String} (h : key ≠ "negate") (fields : List (String × Value)) :
    (markless fields).lookup key = fields.lookup key := by
  refine (lookup_filter_keys (fun k => decide (k ≠ "negate")) fields key).trans ?_
  exact if_pos (decide_eq_true h)

theorem filter_markless (fields : List (String × Value)) :
    ((markless fields).filter fun p => ¬ reserved.contains p.1) =
      fields.filter fun p => ¬ reserved.contains p.1 := by
  rw [markless, List.filter_filter]
  refine List.filter_congr fun p _ => ?_
  by_cases hp : p.1 = "negate"
  · simp [hp, reserved]
  · simp [hp]

/-- What the reader asks for in an object is the same with the parameters gathered. -/
theorem lookup_gathered {key : String} (hk : reserved.contains key ∨ fields.lookup key = none)
    (h : key ≠ "params") : (gathered fields).lookup key = fields.lookup key := by
  unfold gathered
  split_ifs with hl hp
  · rfl
  · refine (lookup_map_values (fun k v => if k = "params" then listedParams v else v)
      fields key).trans ?_
    simp [h]
  · have hnone : [("params", listedParams (.object (fields.filter fun p =>
        ¬ reserved.contains p.1)))].lookup key = none := by
      rw [List.lookup_cons, beq_eq_false_iff_ne.mpr h]
      rfl
    rw [List.lookup_append, lookup_filter_keys (fun k => reserved.contains k), hnone,
      Option.or_none]
    rcases hk with hk | hk
    · rw [if_pos hk]
    · rw [hk, ite_self]

/-- Where the parameters of a leaf stand. -/
def paramsValue (fields : List (String × Value)) : Value :=
  (fields.lookup "params").getD (.object (fields.filter fun p => ¬ reserved.contains p.1))

theorem lookup_params_gathered (h : logicalPresent fields = []) :
    (gathered fields).lookup "params" = some (listedParams (paramsValue fields)) := by
  unfold gathered paramsValue
  rw [if_neg (not_not.mpr h)]
  cases hp : fields.lookup "params" with
  | some v =>
    refine (lookup_map_values (fun k v => if k = "params" then listedParams v else v)
      fields "params").trans ?_
    rw [hp]
    rfl
  | none =>
    refine List.lookup_append.trans ?_
    rw [lookup_filter_keys (fun k => reserved.contains k), hp]
    rfl

/-- The operands of the parameters of a leaf. -/
def paramOperands (path : String) (fields : List (String × Value)) :
    Except Fault (List (Operand Predicate)) :=
  leafParams path fields >>= literalOperands path 1

theorem leaf_eq (path : String) (fields : List (String × Value)) : leaf path fields =
    leafProperty path fields >>= fun property => leafOperator path fields >>= fun op =>
      paramOperands path fields >>= fun literals =>
        checked path op (⟨0, some Predicate.propertyName, .property property⟩ :: literals) := by
  unfold leaf paramOperands
  simp only [bind_assoc]

theorem paramOperands_eq (path : String) (fields : List (String × Value)) :
    paramOperands path fields = match paramsValue fields with
      | .object params => literalOperands path 1 params
      | _ => .error (.paramsNotObject path) := by
  unfold paramOperands leafParams paramsValue
  rcases fields.lookup "params" with _ | v
  · rfl
  · cases v <;> rfl

theorem toOption_paramOperands (h : logicalPresent fields = []) :
    (paramOperands path' (gathered fields)).toOption = (paramOperands path fields).toOption := by
  have hvalue : paramsValue (gathered fields) = listedParams (paramsValue fields) := by
    rw [paramsValue, lookup_params_gathered h, Option.getD_some]
  rw [paramOperands_eq, paramOperands_eq, hvalue]
  cases paramsValue fields with
  | object params => exact toOption_literalOperands 1 params
  | null | bool | number | string | array => rfl

/-- **A leaf is the same with its parameters gathered.** -/
theorem toOption_leaf_gathered (h : logicalPresent fields = []) :
    (leaf path' (gathered fields)).toOption = (leaf path fields).toOption := by
  rw [leaf_eq, leaf_eq, toOption_bind, toOption_bind,
    toOption_leafProperty (lookup_gathered (.inl (by decide)) (by decide))]
  refine congrArg _ (funext fun property => ?_)
  rw [toOption_bind, toOption_bind,
    toOption_leafOperator (lookup_gathered (.inl (by decide)) (by decide))]
  refine congrArg _ (funext fun op => ?_)
  rw [toOption_bind, toOption_bind, toOption_paramOperands h]
  exact congrArg _ (funext fun xs => toOption_checked op _)

/-- A mark does not matter to a leaf. -/
theorem toOption_leaf_markless :
    (leaf path (markless fields)).toOption = (leaf path fields).toOption := by
  have hvalue : paramsValue (markless fields) = paramsValue fields := by
    rw [paramsValue, lookup_markless (by decide), filter_markless, paramsValue]
  rw [leaf_eq, leaf_eq, paramOperands_eq, paramOperands_eq, hvalue, toOption_bind, toOption_bind,
    toOption_leafProperty (lookup_markless (by decide) fields)]
  refine congrArg _ (funext fun property => ?_)
  rw [toOption_bind, toOption_bind, toOption_leafOperator (lookup_markless (by decide) fields)]

/-! ### Objects -/

theorem logicalPresent_congr {β : Type} {fields fields' : List (String × β)}
    (h : ∀ e ∈ logicalFields, fields'.lookup e.1 = fields.lookup e.1) :
    logicalPresent fields' = logicalPresent fields :=
  List.filterMap_congr fun (key, op) he => by
    dsimp only
    rw [h _ he]

theorem logicalPresent_map {β γ : Type} (f : String → β → γ) (fields : List (String × β)) :
    logicalPresent (fields.map fun p => (p.1, f p.1 p.2)) =
      (logicalPresent fields).map fun e => (e.1, e.2.1, f e.1 e.2.2) := by
  unfold logicalPresent
  rw [List.map_filterMap]
  refine List.filterMap_congr fun (key, op) _ => ?_
  dsimp only
  rw [lookup_map_values, Option.map_map, Option.map_map]
  rfl

theorem lookup_of_logicalPresent_eq_nil {β : Type} {fields : List (String × β)}
    (h : logicalPresent fields = []) {e : String × Operator} (he : e ∈ logicalFields) :
    fields.lookup e.1 = none := by
  have hnone := List.filterMap_eq_nil_iff.mp h e he
  simpa using hnone

theorem lookup_logical_gathered {e : String × Operator} (he : e ∈ logicalFields)
    (fields : List (String × Value)) : (gathered fields).lookup e.1 = fields.lookup e.1 := by
  by_cases hl : logicalPresent fields = []
  · exact lookup_gathered (.inr (lookup_of_logicalPresent_eq_nil hl he)) (by revert e; decide)
  · rw [gathered, if_pos hl]

theorem logicalPresent_gathered (fields : List (String × Value)) :
    logicalPresent (gathered fields) = logicalPresent fields :=
  logicalPresent_congr fun _ he => lookup_logical_gathered he fields

theorem logicalPresent_markless (fields : List (String × Value)) :
    logicalPresent (markless fields) = logicalPresent fields :=
  logicalPresent_congr fun e he => lookup_markless (by revert e; decide) fields

theorem Newer.gathered (h : Newer fields) : Newer (gathered fields) := by
  unfold Definition.gathered
  split_ifs with hl hp
  · exact h
  · exact h.map fun k v => if k = "params" then listedParams v else v
  · have hparams : "params" ∉ fields.map (·.1) := by
      rw [← lookup_eq_none]
      exact Option.not_isSome_iff_eq_none.mp hp
    obtain ⟨hnames, hnodup⟩ := h.filter fun p => reserved.contains p.1
    refine ⟨?_, ?_⟩
    · rw [List.forall_mem_append]
      exact ⟨hnames, by simp [newerName?]⟩
    · rw [List.map_append, List.nodup_append]
      refine ⟨hnodup, by simp, fun j hj k hk => ?_⟩
      obtain ⟨e, he, rfl⟩ := List.mem_map.mp hj
      have hkey : e.1 ∈ fields.map (·.1) := List.mem_map_of_mem (List.mem_of_mem_filter he)
      rintro rfl
      rw [List.map_singleton, List.mem_singleton] at hk
      rw [hk] at hkey
      exact hparams hkey

end CatalogRules.Definition
