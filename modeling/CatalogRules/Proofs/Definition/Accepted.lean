import CatalogRules.Failure
import CatalogRules.Proofs.Json.Distinct
import CatalogRules.Proofs.Predicate.Accepted

/-! # What the reader accepts

Every predicate that is read from a value is accepted (`accepted_readRule`); the names of the
parameters of a leaf are distinct because the keys of objects are. The names of the parameters of an
action are in order (`sorted_readActions`), and so are the entity types. So every definition that is
read is accepted (`Definition.Accepted`, `accepted_ofValue`, `accepted_read`).

Where the reader is written with nested `match`es, an equation takes it apart into steps first
(`object_eq`, `readTargeting_eq`, `readAction_eq`, `ofValue_eq`). -/

namespace CatalogRules.Definition

open Json (Value DistinctItems DistinctFields distinctFields_iff)
open Predicate (literals leafOperands)

/-! ### Leaves -/

/-- The parameters of a leaf become literal operands under their names. -/
theorem literalOperands_ok {path : String} : ∀ {i : Nat} {params : List (String × Value)}
    {xs : List (Operand Predicate)}, literalOperands path i params = .ok xs →
      ∃ named, xs = literals i named ∧ named.map (·.1) = params.map (·.1)
  | _, [], _, h => by
    cases h
    exact ⟨[], rfl, rfl⟩
  | i, (name, v) :: params, xs, h => by
    obtain ⟨vs, -, h⟩ := bind_eq_ok.mp h
    obtain ⟨ys, hys, h⟩ := bind_eq_ok.mp h
    obtain ⟨named, rfl, hnames⟩ := literalOperands_ok hys
    cases h
    exact ⟨(name, vs) :: named, rfl, by simp [hnames]⟩

theorem checked_ok [Pattern.Library] {path : String} {op : Operator} {xs : List (Operand Predicate)}
    {p : Predicate} : checked path op xs = .ok p ↔
      Predicate.checkOperands op xs = .ok () ∧ .node op xs false = p := by
  unfold checked
  cases Predicate.checkOperands op xs <;> simp

theorem nodup_leafParams {path : String} {fields params : List (String × Value)}
    (hk : (fields.map (·.1)).Nodup) (hd : DistinctFields fields)
    (h : leafParams path fields = .ok params) : (params.map (·.1)).Nodup := by
  unfold leafParams at h
  split at h
  · next ps hps =>
    cases h
    exact (distinctFields_iff.mp hd _ (mem_of_lookup hps)).1
  · cases h
  · cases h
    exact hk.sublist (List.filter_sublist.map _)

theorem leafProperty_ne {path s : String} {fields : List (String × Value)}
    (h : leafProperty path fields = .ok s) : s ≠ "" := by
  unfold leafProperty at h
  split at h
  · cases h
  · cases h
  · next t hne _ =>
    cases h
    exact hne
  · cases h

section
variable [Pattern.Library]

theorem accepted_leaf {path : String} {fields : List (String × Value)} {p : Predicate}
    (hk : (fields.map (·.1)).Nodup) (hd : DistinctFields fields)
    (h : leaf path fields = .ok p) : p.Accepted := by
  obtain ⟨property, hproperty, h⟩ := bind_eq_ok.mp h
  obtain ⟨op, -, h⟩ := bind_eq_ok.mp h
  obtain ⟨params, hparams, h⟩ := bind_eq_ok.mp h
  obtain ⟨xs, hxs, h⟩ := bind_eq_ok.mp h
  obtain ⟨named, rfl, hnames⟩ := literalOperands_ok hxs
  obtain ⟨hfit, rfl⟩ := checked_ok.mp h
  refine .leaf (leafProperty_ne hproperty) ?_ hfit
  rw [hnames]
  exact nodup_leafParams hk hd hparams

/-! ### Rule nodes -/

/-- What a field is taken as is accepted, and its value is one. -/
structure Field.Sound (f : Field) : Prop where
  value : f.value.Distinct
  rule : ∀ {path p}, f.rule path = .ok p → p.Accepted
  rules : ∀ {path ps}, f.rules path = .ok ps → ∀ p ∈ ps, p.Accepted

theorem accepted_not {p : Predicate} (h : p.Accepted) : p.not.Accepted :=
  @Predicate.Accepted.logical _ .not [p] false rfl (by simpa using h)

theorem accepted_checked {path : String} {op : Operator} {ps : List Predicate} {p : Predicate}
    (hps : ∀ q ∈ ps, q.Accepted)
    (h : checked path op (Predicate.compose op ps).operands = .ok p) : p.Accepted := by
  obtain ⟨hfit, rfl⟩ := checked_ok.mp h
  exact .logical hfit hps

omit [Pattern.Library] in
theorem mem_logicalPresent {β : Type} {fields : List (String × β)} {key : String} {op : Operator}
    {f : β} (h : (key, op, f) ∈ logicalPresent fields) : (key, f) ∈ fields := by
  obtain ⟨e, -, he⟩ := List.mem_filterMap.mp h
  obtain ⟨v, hv, heq⟩ := Option.map_eq_some_iff.mp he
  cases heq
  exact mem_of_lookup hv

/-- The predicate of an object without its mark. -/
def unmarked (path : String) (fields : List (String × Field)) : Except Fault Predicate :=
  match logicalPresent fields with
  | [] => leaf path (fields.map fun f => (f.1, f.2.value))
  | [(key, .not, f)] => do .ok (Predicate.not (← f.rule s!"{path}.{key}"))
  | [(key, op, f)] => do
    let ps ← f.rules s!"{path}.{key}"
    checked s!"{path}.{key}" op (Predicate.compose op ps).operands
  | _ => .error (.severalLogical path)

theorem object_eq (path : String) (fields : List (String × Field)) : object path fields =
    negateMark path (fields.map fun f => (f.1, f.2.value)) >>= fun negate =>
      unmarked path fields >>= fun p => .ok (markIf negate p) := by
  unfold object unmarked
  refine congrArg (_ >>= ·) (funext fun negate => ?_)
  rcases logicalPresent fields with _ | ⟨⟨key, op, f⟩, _ | _⟩
  · rfl
  · cases op <;> simp only [bind_assoc]
  · cases op <;> rfl

theorem accepted_unmarked {path : String} {fields : List (String × Field)} {p : Predicate}
    (hk : (fields.map (·.1)).Nodup) (hf : ∀ f ∈ fields, f.2.Sound)
    (h : unmarked path fields = .ok p) : p.Accepted := by
  unfold unmarked at h
  split at h
  · refine accepted_leaf (by simpa [Function.comp_def] using hk) ?_ h
    refine distinctFields_iff.mpr fun e he => ?_
    obtain ⟨f, hmem, rfl⟩ := List.mem_map.mp he
    exact (hf f hmem).value
  · next key f hone =>
    have hmem : (key, .not, f) ∈ logicalPresent fields := by rw [hone]; simp
    obtain ⟨q, hq, h⟩ := bind_eq_ok.mp h
    cases h
    exact accepted_not ((hf _ (mem_logicalPresent hmem)).rule hq)
  · next key op f _ hone =>
    have hmem : (key, op, f) ∈ logicalPresent fields := by rw [hone]; simp
    obtain ⟨ps, hps, h⟩ := bind_eq_ok.mp h
    exact accepted_checked ((hf _ (mem_logicalPresent hmem)).rules hps) h
  · cases h

theorem accepted_object {path : String} {fields : List (String × Field)} {p : Predicate}
    (hk : (fields.map (·.1)).Nodup) (hf : ∀ f ∈ fields, f.2.Sound)
    (h : object path fields = .ok p) : p.Accepted := by
  rw [object_eq] at h
  obtain ⟨negate, -, h⟩ := bind_eq_ok.mp h
  obtain ⟨q, hq, h⟩ := bind_eq_ok.mp h
  have hq' := accepted_unmarked hk hf hq
  cases h
  unfold markIf
  split_ifs
  · exact hq'.negate
  · exact hq'

omit [Pattern.Library] in
theorem mem_normalize {β : Type} {fields : List (String × β)} {e : String × β}
    (h : e ∈ normalize fields) : ∃ k, (k, e.2) ∈ fields := by
  obtain ⟨⟨k, v⟩, hmem, he⟩ := List.mem_filterMap.mp (Keyed.mem_ofPairs h)
  refine ⟨k, ?_⟩
  dsimp only at he
  split at he
  · split_ifs at he
    cases he
    exact hmem
  · cases he
    exact hmem

mutual

theorem accepted_readRule : ∀ {v : Value} {path : String} {p : Predicate}, v.Distinct →
    readRule v path = .ok p → p.Accepted
  | .array items, path, p, hv, h => by
    obtain ⟨ps, hps, h⟩ := bind_eq_ok.mp h
    exact accepted_checked (accepted_readItems hv hps) h
  | .object fields, path, p, hv, h => by
    refine accepted_object (Keyed.nodup_ofPairs _) (fun e he => ?_) h
    obtain ⟨k, hk⟩ := mem_normalize he
    exact sound_readFields hv.2 (k, e.2) hk
  | .null, _, _, _, h => by cases h
  | .bool _, _, _, _, h => by cases h
  | .number _, _, _, _, h => by cases h
  | .string _, _, _, _, h => by cases h

theorem accepted_readRules : ∀ {v : Value} {path : String} {ps : List Predicate}, v.Distinct →
    readRules v path = .ok ps → ∀ p ∈ ps, p.Accepted
  | .array items, path, ps, hv, h => accepted_readItems hv h
  | .object _, _, _, _, h => by cases h
  | .null, _, _, _, h => by cases h
  | .bool _, _, _, _, h => by cases h
  | .number _, _, _, _, h => by cases h
  | .string _, _, _, _, h => by cases h

theorem accepted_readItems : ∀ {vs : List Value} {path : String} {i : Nat} {ps : List Predicate},
    DistinctItems vs → readItems vs path i = .ok ps → ∀ p ∈ ps, p.Accepted
  | [], _, _, _, _, h => by
    cases h
    simp
  | v :: vs, path, i, ps, hv, h => by
    obtain ⟨p, hp, h⟩ := bind_eq_ok.mp h
    obtain ⟨qs, hqs, h⟩ := bind_eq_ok.mp h
    cases h
    exact List.forall_mem_cons.mpr ⟨accepted_readRule hv.1 hp, accepted_readItems hv.2 hqs⟩

theorem sound_readFields : ∀ {fs : List (String × Value)}, DistinctFields fs →
    ∀ f ∈ readFields fs, f.2.Sound
  | [], _ => by simp [readFields]
  | (k, v) :: fs, h =>
    List.forall_mem_cons.mpr ⟨⟨h.1, accepted_readRule h.1, accepted_readRules h.1⟩,
      sound_readFields h.2⟩

end

end

/-! ### Actions -/

/-- The names of the parameters are in order. -/
def ParamsInOrder (a : Action) : Prop := (a.params.map (·.1)).Pairwise (· < ·)

theorem sorted_actionParams {path : String} : ∀ {done params : Params}
    {entries : List (String × Value)}, (done.map (·.1)).Pairwise (· < ·) →
      actionParams path done entries = .ok params → (params.map (·.1)).Pairwise (· < ·)
  | _, _, [], hd, h => by
    cases h
    exact hd
  | _, _, (name, v) :: rest, hd, h => by
    obtain ⟨vs, -, h⟩ := bind_eq_ok.mp h
    exact sorted_actionParams (Sorted.pairwise_put name vs hd) h

/-- The kind of an action, given its fields. -/
def actionKind (path : String) (fields : List (String × Value)) : Except Fault ActionKind :=
  match fields.lookup "type" with
  | some (.string name) =>
    match ActionKind.ofName? name with
    | some kind => .ok kind
    | none => .error (.unknownAction path name)
  | _ => .error (.noActionType path)

/-- The parameters of an action as they stand in its fields. -/
def actionEntries (path : String) (fields : List (String × Value)) :
    Except Fault (List (String × Value)) :=
  match fields.lookup "params" with
  | some (.object params) => .ok params
  | some _ => .error (.paramsNotObject path)
  | none => .ok (fields.filter fun p => p.1 ≠ "type")

theorem readAction_eq (path : String) (fields : List (String × Value)) :
    readAction path (.object fields) = actionKind path fields >>= fun kind =>
      actionEntries path fields >>= fun entries =>
        actionParams path [] entries >>= fun params => .ok ⟨kind, params⟩ := by
  unfold readAction actionKind actionEntries
  dsimp only
  rcases fields.lookup "type" with _ | v
  · rfl
  · cases v with
    | string name =>
      dsimp only
      cases ActionKind.ofName? name with
      | none => rfl
      | some kind =>
        rcases fields.lookup "params" with _ | w
        · rfl
        · cases w <;> rfl
    | null | bool | number | array | object => rfl

theorem sorted_readAction {path : String} {v : Value} {a : Action}
    (h : readAction path v = .ok a) : ParamsInOrder a := by
  cases v with
  | object fields =>
    rw [readAction_eq] at h
    obtain ⟨kind, -, h⟩ := bind_eq_ok.mp h
    obtain ⟨entries, -, h⟩ := bind_eq_ok.mp h
    obtain ⟨params, hparams, h⟩ := bind_eq_ok.mp h
    cases h
    exact sorted_actionParams List.Pairwise.nil hparams
  | null | bool | number | string | array => cases h

theorem sorted_readActionItems {path : String} : ∀ {i : Nat} {vs : List Value}
    {as : List Action}, readActionItems path i vs = .ok as → ∀ a ∈ as, ParamsInOrder a
  | _, [], _, h => by
    cases h
    simp
  | i, v :: vs, _, h => by
    obtain ⟨a, ha, h⟩ := bind_eq_ok.mp h
    obtain ⟨as, has, h⟩ := bind_eq_ok.mp h
    cases h
    exact List.forall_mem_cons.mpr ⟨sorted_readAction ha, sorted_readActionItems has⟩

theorem sorted_readActionList {path : String} {v : Option Value} {as : List Action}
    (h : readActionList path v = .ok as) : ∀ a ∈ as, ParamsInOrder a := by
  unfold readActionList at h
  split at h
  · cases h
    simp
  · cases h
    simp
  · exact sorted_readActionItems h
  · cases h

theorem sorted_readActions {v : Option Value} {actions : Actions}
    (h : readActions v = .ok actions) :
    ∀ a ∈ actions.passing ++ actions.failing, ParamsInOrder a := by
  unfold readActions at h
  split at h
  · cases h
    simp
  · cases h
    simp
  · obtain ⟨passing, hpassing, h⟩ := bind_eq_ok.mp h
    obtain ⟨failing, hfailing, h⟩ := bind_eq_ok.mp h
    cases h
    intro a ha
    rcases List.mem_append.mp ha with ha | ha
    · exact sorted_readActionList hpassing a ha
    · exact sorted_readActionList hfailing a ha
  · cases h

/-! ### Definitions -/

variable [Pattern.Library]

/-- **What the reader sees to**: the predicates are accepted, and the entity types and the names of
parameters of actions are in order. -/
structure Accepted (d : Definition) : Prop where
  conditions : ∀ p, d.conditions = some p → p.Accepted
  rules : d.rules.Accepted
  types : d.entityTypes.Pairwise (· < ·)
  actions : ∀ a ∈ d.actions.passing ++ d.actions.failing, ParamsInOrder a

/-- The entity types of the `on` block, given its fields under their newer names. -/
def targetTypes (fields : List (String × Value)) : Except Fault (List String) :=
  match fields.lookup "types" with
  | some (.array items) => scalarTexts .typeNotText 0 items
  | _ => .error .noTypes

/-- The condition of the `on` block. -/
def targetConditions (fields : List (String × Value)) : Except Fault (Option Predicate) :=
  match fields.lookup "conditions" with
  | none => .ok none
  | some .null => .ok none
  | some v => do .ok (some (← readRule v "on.conditions"))

theorem readTargeting_eq (raw : List (String × Value)) : readTargeting (.object raw) =
    targetTypes (normalize raw) >>= fun types =>
      targetConditions (normalize raw) >>= fun conditions =>
        .ok (Sorted.ofList types, conditions) := by
  unfold readTargeting targetTypes targetConditions
  dsimp only
  rcases (normalize raw).lookup "conditions" with _ | v
  · rcases (normalize raw).lookup "types" with _ | w
    · rfl
    · cases w <;> rfl
  · rcases (normalize raw).lookup "types" with _ | w
    · rfl
    · cases w <;> cases v <;> simp only [bind_assoc]

theorem accepted_targetConditions {fields : List (String × Value)} (hf : ∀ f ∈ fields, f.2.Distinct)
    {conditions : Option Predicate} (h : targetConditions fields = .ok conditions) :
    ∀ p, conditions = some p → p.Accepted := by
  rintro p rfl
  unfold targetConditions at h
  split at h
  · cases h
  · cases h
  · next v hv =>
    obtain ⟨q, hq, h⟩ := bind_eq_ok.mp h
    cases h
    exact accepted_readRule (hf _ (mem_of_lookup hv)) hq

/-- The value of a field that has to be present. -/
def required (fault : Fault) : Option Value → Except Fault Value
  | some v => .ok v
  | none => .error fault

theorem ofValue_eq (id : String) (fields : List (String × Value)) : ofValue id (.object fields) =
    required (.noTargeting id) (fields.lookup "on") >>= fun on =>
      readTargeting on >>= fun targeting =>
        required (.noRules id) (fields.lookup "rules") >>= fun node =>
          readRule node "rules" >>= fun rules =>
            readActions (fields.lookup "actions") >>= fun actions =>
              .ok ⟨id, targeting.1, targeting.2, rules, actions⟩ := by
  unfold ofValue
  dsimp only
  cases fields.lookup "on" <;> cases fields.lookup "rules" <;> rfl

/-- **A definition that is read is accepted, and has the given id.** -/
theorem accepted_ofValue {id : String} {v : Value} {d : Definition} (hv : v.Distinct)
    (h : ofValue id v = .ok d) : d.id = id ∧ d.Accepted := by
  cases v with
  | object fields =>
    have hfield : ∀ {k : String} {fault : Fault} {w : Value},
        required fault (fields.lookup k) = .ok w → w.Distinct := by
      intro k fault w hw
      cases hk : fields.lookup k with
      | none =>
        rw [hk] at hw
        cases hw
      | some w' =>
        rw [hk] at hw
        cases hw
        exact distinctFields_iff.mp hv.2 _ (mem_of_lookup hk)
    rw [ofValue_eq] at h
    obtain ⟨on, hon, h⟩ := bind_eq_ok.mp h
    obtain ⟨⟨types, conditions⟩, htargeting, h⟩ := bind_eq_ok.mp h
    obtain ⟨node, hnode, h⟩ := bind_eq_ok.mp h
    obtain ⟨rules, hrules, h⟩ := bind_eq_ok.mp h
    obtain ⟨actions, hactions, h⟩ := bind_eq_ok.mp h
    cases h
    have hrules' := accepted_readRule (hfield hnode) hrules
    cases on with
    | object raw =>
      rw [readTargeting_eq] at htargeting
      obtain ⟨ts, -, htargeting⟩ := bind_eq_ok.mp htargeting
      obtain ⟨cs, hcs, htargeting⟩ := bind_eq_ok.mp htargeting
      cases htargeting
      refine ⟨rfl, ?_, hrules', Sorted.pairwise_ofList ts, sorted_readActions hactions⟩
      refine accepted_targetConditions (fun e he => ?_) hcs
      obtain ⟨k, hk⟩ := mem_normalize he
      exact distinctFields_iff.mp (hfield hon).2 (k, e.2) hk
    | null | bool | number | string | array => cases htargeting
  | null | bool | number | string | array => cases h

theorem read_eq_ok {id text : String} {d : Definition} : Definition.read id text = .ok d ↔
    ∃ v, Value.ofText? text = some v ∧ ofValue id v = .ok d := by
  unfold Definition.read ofText
  cases Value.ofText? text with
  | none => simp [Except.mapError]
  | some v => cases hd : ofValue id v <;> simp [hd, Except.mapError]

/-- The same for a definition that is read from a text. -/
theorem accepted_read {id text : String} {d : Definition} (h : Definition.read id text = .ok d) :
    d.id = id ∧ d.Accepted := by
  obtain ⟨v, hv, hd⟩ := read_eq_ok.mp h
  exact accepted_ofValue (Json.distinct_of_ofText? hv) hd

end CatalogRules.Definition
