import CatalogRules.Definition.Canonical
import CatalogRules.Pattern.Reader
import CatalogRules.Proofs.Definition.Accepted
import Mathlib.Data.List.Forall2

/-! # Reading written forms

What is read from the parts of a canonical form: from the object of a leaf (`readRule_written`), from
the objects of logical nodes (`readRule_not`, `readRule_list`), from the `on` block
(`readTargeting_targetFields`) and from actions (`readActions_toValue`). Of a canonical form, only
the condition and the rules may fail to be read (`ofValue_toValue_eq`). -/

namespace CatalogRules.Definition

open Json (Value)
open Predicate (literals leafOperands compose checkOperands)

/-! ### Texts -/

theorem scalarTexts_strings (fault : Nat → Fault) : ∀ (i : Nat) (ss : List String),
    scalarTexts fault i (ss.map .string) = .ok ss
  | _, [] => rfl
  | i, s :: ss => by
    rw [List.map_cons, scalarTexts, scalarTexts_strings fault (i + 1) ss]
    rfl

theorem stringList_ofStrings (path : String) (ss : List String) :
    stringList path (.ofStrings ss) = .ok ss :=
  scalarTexts_strings _ 0 ss

/-- The field of a parameter is read as some texts under its name. -/
def ReadsAs (e : String × Value) (f : String × List String) : Prop :=
  e.1 = f.1 ∧ ∀ path, stringList path e.2 = .ok f.2

theorem literalOperands_readsAs {path : String} {fields : List (String × Value)}
    {ps : List (String × List String)} (h : List.Forall₂ ReadsAs fields ps) :
    ∀ i, literalOperands path i fields = .ok (literals i ps) := by
  induction h with
  | nil => exact fun _ => rfl
  | @cons e f fields ps he _ ih =>
    intro i
    obtain ⟨name, v⟩ := e
    obtain ⟨name', values⟩ := f
    obtain ⟨rfl, hv⟩ := he
    have hv' : stringList s!"{path}.{name}" v = .ok values := hv _
    show (stringList s!"{path}.{name}" v >>= fun values =>
      literalOperands path (i + 1) fields >>= fun rest =>
        .ok (⟨i, some name, .strings values⟩ :: rest)) = _
    rw [hv', ih (i + 1)]
    rfl

/-! ### Rule nodes -/

theorem normalize_self {β : Type} {fields : List (String × β)}
    (hnew : ∀ f ∈ fields, newerName? f.1 = none) (hk : (fields.map (·.1)).Nodup) :
    normalize fields = fields := by
  refine (congrArg Keyed.ofPairs ?_).trans (Keyed.ofPairs_self hk)
  refine (List.filterMap_congr (g := some) fun f hf => ?_).trans List.filterMap_some
  have hnone := hnew f hf
  obtain ⟨k, v⟩ := f
  dsimp only at hnone ⊢
  rw [hnone]

theorem readFields_eq_map (fields : List (String × Value)) :
    readFields fields = fields.map fun (k, v) => (k, ⟨v, readRule v, readRules v⟩) := by
  induction fields with
  | nil => rfl
  | cons f fields ih =>
    obtain ⟨k, v⟩ := f
    rw [readFields, ih, List.map_cons]

/-- An object whose fields are under their newer names. -/
theorem readRule_object {fields : List (String × Value)}
    (hnew : ∀ f ∈ fields, newerName? f.1 = none) (hk : (fields.map (·.1)).Nodup) (path : String) :
    readRule (.object fields) path =
      negateMark path fields >>= fun negate =>
        unmarked path (readFields fields) >>= fun p => .ok (markIf negate p) := by
  have hkeys : (readFields fields).map (·.1) = fields.map (·.1) := by
    rw [readFields_eq_map, List.map_map]
    rfl
  have hvalues : ((readFields fields).map fun f => (f.1, f.2.value)) = fields := by
    rw [readFields_eq_map, List.map_map]
    exact List.map_id' fields
  have hnormal : normalize (readFields fields) = readFields fields := by
    refine normalize_self (fun f hf => ?_) (by rw [hkeys]; exact hk)
    have hmem : f.1 ∈ fields.map (·.1) := by
      rw [← hkeys]
      exact List.mem_map_of_mem hf
    obtain ⟨g, hg, heq⟩ := List.mem_map.mp hmem
    rw [← heq]
    exact hnew g hg
  rw [readRule, hnormal, object_eq, hvalues]

/-- A single field that is no mark is the whole object. -/
theorem readRule_single {key : String} (hnew : newerName? key = none) (hmark : key ≠ "negate")
    (v : Value) (path : String) :
    readRule (.object [(key, v)]) path = unmarked path (readFields [(key, v)]) := by
  have hnegate : negateMark path [(key, v)] = .ok false := by
    have hnone : [(key, v)].lookup "negate" = none := by
      rw [List.lookup_cons, beq_eq_false_iff_ne.mpr hmark.symm]
      rfl
    unfold negateMark
    rw [hnone]
    exact ite_self _
  rw [readRule_object (by simpa using hnew) (by simp), hnegate]
  exact bind_pure (unmarked path (readFields [(key, v)]))

theorem readRule_not (v : Value) (path : String) : readRule (.object [("not", v)]) path =
    readRule v (path ++ "." ++ "not") >>= fun p => .ok p.not :=
  readRule_single rfl (by decide) v path

theorem readRule_list {op : Operator} (hop : op = .and ∨ op = .or) (vs : List Value)
    (path : String) : readRule (.object [(op.commonName, .array vs)]) path =
      readItems vs (path ++ "." ++ op.commonName) 0 >>= fun ps =>
        checked (path ++ "." ++ op.commonName) op (compose op ps).operands := by
  rcases hop with rfl | rfl
  · exact readRule_single rfl (by decide) (.array vs) path
  · exact readRule_single rfl (by decide) (.array vs) path

/-! ### Leaves -/

theorem leafProperty_of_lookup {path s : String} {fields : List (String × Value)}
    (h : fields.lookup "property" = some (.string s)) (hs : s ≠ "") :
    leafProperty path fields = .ok s := by
  unfold leafProperty
  rw [h]
  split
  · next heq => cases heq
  · next heq =>
    cases heq
    exact absurd rfl hs
  · next heq =>
    cases heq
    rfl
  · next _ hne heq =>
    cases heq
    exact (hne s rfl).elim

theorem leafOperator_of_lookup {path : String} {op : Operator} {fields : List (String × Value)}
    (h : fields.lookup "operator" = some (.string op.commonName)) :
    leafOperator path fields = .ok op := by
  unfold leafOperator
  rw [h]
  dsimp only
  rw [Operator.ofName?_commonName]

theorem leaf_eq_checked {path s : String} {op : Operator} {fields params : List (String × Value)}
    {xs : List (Operand Predicate)} (hproperty : leafProperty path fields = .ok s)
    (hop : leafOperator path fields = .ok op) (hparams : leafParams path fields = .ok params)
    (hxs : literalOperands path 1 params = .ok xs) : leaf path fields =
      checked path op (⟨0, some Predicate.propertyName, .property s⟩ :: xs) := by
  unfold leaf
  rw [hproperty, hop, hparams]
  show (literalOperands path 1 params >>= fun literals =>
    checked path op (⟨0, some Predicate.propertyName, .property s⟩ :: literals)) = _
  rw [hxs]
  rfl

/-- The fields of a leaf in written form, given what stands under `property` and `params`. -/
def writtenFields (op : Operator) (subject : Option String) (fields : List (String × Value)) :
    List (String × Value) :=
  (subject.toList.map fun path => ("property", .string path)) ++
    ("operator", .string op.commonName) ::
      if fields = [] then [] else [("params", .object fields)]

section

variable {op : Operator} {subject : Option String} {fields : List (String × Value)} {path : String}

theorem leafProperty_written {s : String} :
    leafProperty path (writtenFields op subject fields) = .ok s ↔ subject = some s ∧ s ≠ "" := by
  cases subject with
  | none =>
    have herror : leafProperty path (writtenFields op none fields) = .error (.noProperty path) := by
      cases fields <;> rfl
    simp [herror]
  | some t =>
    by_cases ht : t = ""
    · subst ht
      have herror : leafProperty path (writtenFields op (some "") fields) =
          .error (.propertyEmpty path) := rfl
      rw [herror]
      constructor
      · rintro ⟨⟩
      · rintro ⟨hs, hne⟩
        exact absurd (Option.some.inj hs).symm hne
    · rw [leafProperty_of_lookup rfl ht]
      simp only [Except.ok.injEq, Option.some.injEq, iff_self_and]
      rintro rfl
      exact ht

theorem leafOperator_written : leafOperator path (writtenFields op subject fields) = .ok op := by
  refine leafOperator_of_lookup ?_
  cases subject <;> rfl

theorem leafParams_written : leafParams path (writtenFields op subject fields) = .ok fields := by
  cases subject <;> cases fields <;> rfl

/-- The object of a leaf is read as a leaf. -/
theorem readRule_writtenFields : readRule (.object (writtenFields op subject fields)) path =
    leaf path (writtenFields op subject fields) := by
  have hnew : ∀ f ∈ writtenFields op subject fields, newerName? f.1 = none := by
    cases subject <;> cases fields <;> simp [writtenFields, newerName?]
  have hk : ((writtenFields op subject fields).map (·.1)).Nodup := by
    cases subject <;> cases fields <;> simp [writtenFields]
  have hnegate : negateMark path (writtenFields op subject fields) = .ok false := by
    cases subject <;> cases fields <;> rfl
  have hunmarked : unmarked path (readFields (writtenFields op subject fields)) =
      leaf path (writtenFields op subject fields) := by
    cases subject <;> cases fields <;> rfl
  rw [readRule_object hnew hk, hnegate, hunmarked]
  exact bind_pure (leaf path (writtenFields op subject fields))

/-- **What is read from a leaf in written form**: its subject, which has to have a path, and its
parameters, if they are fit for the operator. -/
theorem readRule_written {ps : List (String × List String)}
    (hread : List.Forall₂ ReadsAs fields ps) {p : Predicate} :
    readRule (.object (writtenFields op subject fields)) path = .ok p ↔
      ∃ s, subject = some s ∧ s ≠ "" ∧ checkOperands op (leafOperands s ps) = .ok () ∧
        p = .node op (leafOperands s ps) false := by
  rw [readRule_writtenFields]
  constructor
  · intro h
    obtain ⟨s, hs, h⟩ := bind_eq_ok.mp h
    obtain ⟨op', hop, h⟩ := bind_eq_ok.mp h
    obtain ⟨fields', hfields, h⟩ := bind_eq_ok.mp h
    obtain ⟨xs, hxs, h⟩ := bind_eq_ok.mp h
    rw [leafOperator_written] at hop
    rw [leafParams_written] at hfields
    cases hop
    cases hfields
    rw [literalOperands_readsAs hread] at hxs
    cases hxs
    obtain ⟨hsubject, hne⟩ := leafProperty_written.mp hs
    obtain ⟨hfit, hp⟩ := checked_ok.mp h
    exact ⟨s, hsubject, hne, hfit, hp.symm⟩
  · rintro ⟨s, hsubject, hne, hfit, rfl⟩
    rw [leaf_eq_checked (leafProperty_written.mpr ⟨hsubject, hne⟩) leafOperator_written
      leafParams_written (literalOperands_readsAs hread 1)]
    exact checked_ok.mpr ⟨hfit, rfl⟩

end

/-! ### Lists of predicates -/

/-- The operands of a list of predicates fit if there is one. -/
theorem checkOperands_list {op : Operator} (hop : op = .and ∨ op = .or) {ps : List Predicate}
    (hps : ps ≠ []) : checkOperands op (compose op ps).operands = .ok () := by
  have hne : (compose op ps).operands ≠ [] := by
    intro h
    have hl := congrArg List.length h
    simp only [compose, Predicate.operands, List.length_mapIdx, List.length_nil] at hl
    exact hps (List.eq_nil_of_length_eq_zero hl)
  have htypes : Predicate.checkTypes op .boolean (compose op ps).operands = .ok () := by
    refine Predicate.checkTypes_ok.mpr fun x hx => ?_
    obtain ⟨p, -, he⟩ := Predicate.mem_compose hx
    rw [he]
    rfl
  rcases hop with rfl | rfl
  · exact (if_neg hne).trans htypes
  · exact (if_neg hne).trans htypes

/-! ### Targeting -/

theorem toValue_object (p : Predicate) : ∃ fields, p.toValue = .object fields := by
  obtain ⟨op, xs, n⟩ := p
  cases n with
  | true => exact ⟨_, rfl⟩
  | false => cases op <;> exact ⟨_, rfl⟩

/-- The fields of the `on` block in canonical form. -/
def targetFields (types : List String) (conditions : Option Predicate) : List (String × Value) :=
  ("types", .ofStrings types) :: match conditions with
    | some p => [("conditions", p.toValue)]
    | none => []

/-- The condition that is read back. -/
def readCondition : Option Predicate → Except Fault (Option Predicate)
  | none => .ok none
  | some p => do .ok (some (← readRule p.toValue "on.conditions"))

theorem targetConditions_targetFields (types : List String) (conditions : Option Predicate) :
    targetConditions (targetFields types conditions) = readCondition conditions := by
  cases conditions with
  | none => rfl
  | some p =>
    obtain ⟨fields, hfields⟩ := toValue_object p
    have hlookup : (targetFields types (some p)).lookup "conditions" = some p.toValue := rfl
    rw [targetConditions, readCondition, hlookup, hfields]

theorem readTargeting_targetFields (types : List String) (conditions : Option Predicate) :
    readTargeting (.object (targetFields types conditions)) =
      readCondition conditions >>= fun conditions => .ok (Sorted.ofList types, conditions) := by
  have hnormal : normalize (targetFields types conditions) = targetFields types conditions := by
    refine normalize_self ?_ ?_
    · cases conditions <;> simp [targetFields, newerName?]
    · cases conditions <;> simp [targetFields]
  have htypes : targetTypes (targetFields types conditions) = .ok types :=
    scalarTexts_strings .typeNotText 0 types
  rw [readTargeting_eq, hnormal, htypes, targetConditions_targetFields]
  rfl

/-! ### Actions -/

theorem texts?_strings : ∀ ss : List String, texts? (ss.map .string) = some ss
  | [] => rfl
  | s :: ss => by
    rw [List.map_cons, texts?, texts?_strings ss]
    rfl

theorem actionValues_ofStrings (path name : String) (ss : List String) :
    actionValues path name (.ofStrings ss) = .ok ss := by
  unfold Value.ofStrings actionValues
  dsimp only
  rw [texts?_strings]

theorem actionParams_toValue (path : String) : ∀ done rest : Params,
    actionParams path done (rest.map fun p => (p.1, .ofStrings p.2)) =
      .ok (rest.foldl (fun m p => Sorted.put p.1 p.2 m) done)
  | _, [] => rfl
  | done, (name, vs) :: rest => by
    show (actionValues path name (.ofStrings vs) >>= fun values =>
      actionParams path (Sorted.put name values done)
        (rest.map fun p => (p.1, .ofStrings p.2))) = _
    rw [actionValues_ofStrings]
    exact actionParams_toValue path (Sorted.put name vs done) rest

theorem ofName?_name (kind : ActionKind) : ActionKind.ofName? kind.name = some kind := by
  cases kind <;> decide +kernel

/-- The action with its parameters in order. -/
def inOrder (a : Action) : Action := ⟨a.kind, Sorted.ofPairs a.params⟩

/-- The actions with their parameters in order. -/
def allInOrder (actions : Actions) : Actions :=
  ⟨actions.passing.map inOrder, actions.failing.map inOrder⟩

theorem ParamsInOrder.inOrder_eq {a : Action} (h : ParamsInOrder a) : inOrder a = a := by
  rw [inOrder, Sorted.ofPairs_self h]

theorem allInOrder_eq {actions : Actions}
    (h : ∀ a ∈ actions.passing ++ actions.failing, ParamsInOrder a) :
    allInOrder actions = actions := by
  have hself : ∀ as : List Action, (∀ a ∈ as, ParamsInOrder a) → as.map inOrder = as :=
    fun as has => (List.map_congr_left fun a ha => (has a ha).inOrder_eq).trans as.map_id
  rw [allInOrder, hself _ fun a ha => h a (List.mem_append_left _ ha),
    hself _ fun a ha => h a (List.mem_append_right _ ha)]

theorem readAction_toValue (a : Action) (path : String) :
    readAction path a.toValue = .ok (inOrder a) := by
  have hkind : actionKind path [("type", .string a.kind.name),
      ("params", .object (a.params.map fun p => (p.1, .ofStrings p.2)))] = .ok a.kind := by
    unfold actionKind
    rw [List.lookup_cons_self]
    dsimp only
    rw [ofName?_name]
  have hparams := actionParams_toValue path [] a.params
  rw [Action.toValue, readAction_eq, hkind]
  show (actionParams path [] (a.params.map fun p => (p.1, .ofStrings p.2)) >>= fun params =>
    Except.ok (Action.mk a.kind params)) = _
  rw [hparams]
  rfl

theorem readActionItems_toValue (path : String) : ∀ (i : Nat) (as : List Action),
    readActionItems path i (as.map Action.toValue) = .ok (as.map inOrder)
  | _, [] => rfl
  | i, a :: as => by
    rw [List.map_cons, readActionItems, readAction_toValue,
      readActionItems_toValue path (i + 1) as]
    rfl

theorem readActions_toValue (actions : Actions) :
    readActions (some (.object [("passing", .array (actions.passing.map Action.toValue)),
      ("failing", .array (actions.failing.map Action.toValue))])) = .ok (allInOrder actions) := by
  show (readActionItems "actions.passing" 0 (actions.passing.map Action.toValue) >>= fun passing =>
    readActionItems "actions.failing" 0 (actions.failing.map Action.toValue) >>= fun failing =>
      Except.ok (Actions.mk passing failing)) = _
  rw [readActionItems_toValue, readActionItems_toValue]
  rfl

/-! ### Definitions -/

/-- The nodes of the rules and of the conditions. -/
def nodes (d : Definition) : List Predicate :=
  d.rules.nodes ++ (d.conditions.map Predicate.nodes).getD []

theorem toValue_eq (d : Definition) : d.toValue = .object [
    ("on", .object (targetFields d.entityTypes d.conditions)), ("rules", d.rules.toValue),
    ("actions", .object [("passing", .array (d.actions.passing.map Action.toValue)),
      ("failing", .array (d.actions.failing.map Action.toValue))])] := rfl

/-- Of a canonical form, only the condition and the rules may fail to be read. -/
theorem ofValue_toValue_eq (id : String) (d : Definition) : ofValue id d.toValue =
    readCondition d.conditions >>= fun conditions =>
      readRule d.rules.toValue "rules" >>= fun rules =>
        .ok ⟨id, Sorted.ofList d.entityTypes, conditions, rules, allInOrder d.actions⟩ := by
  rw [toValue_eq, ofValue_eq]
  show (readTargeting (.object (targetFields d.entityTypes d.conditions)) >>= fun targeting =>
    readRule d.rules.toValue "rules" >>= fun rules =>
      readActions (some (.object [("passing", .array (d.actions.passing.map Action.toValue)),
        ("failing", .array (d.actions.failing.map Action.toValue))])) >>= fun actions =>
          Except.ok (Definition.mk id targeting.1 targeting.2 rules actions)) = _
  rw [readTargeting_targetFields, readActions_toValue, bind_assoc]
  rfl

end CatalogRules.Definition
