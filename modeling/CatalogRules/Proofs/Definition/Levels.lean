import CatalogRules.Proofs.Definition.RoundTrip
import CatalogRules.Proofs.Json.Reading

/-! # Canonical text

The canonical form of a definition that was read has no numbers and distinct keys, so its text is read
back if it is not nested too deep (`Value.Textual.ofText?_text`). It is nested deeper than the text
that the definition was read from: a node in an array gets an object around the array, a mark an
object of its own, and a value next to the operator an object and an array. All in all it has at most
one level more than twice as many (`levels_toValue`). -/

namespace CatalogRules

open Json (Value levelsOfItems levelsOfFields levelsOfItems_le_iff levelsOfFields_le_iff)

namespace Predicate

open Definition (expressionValue writtenFields paramsForm_operandValues toValue_leaf toValue_logical)

/-! ### Written forms of predicates -/

theorem textual_marked {v : Value} (h : v.Textual) (n : Bool) : (marked n v).Textual := by
  cases n with
  | false => exact h
  | true => exact Value.textual_object (by simp) (by simpa using h)

theorem levels_marked_le (n : Bool) (v : Value) : (marked n v).levels ≤ v.levels + 1 := by
  cases n with
  | false => exact Nat.le_succ _
  | true => exact Value.levels_object_le (by simp)

theorem le_levels_marked (n : Bool) (v : Value) : v.levels ≤ (marked n v).levels := by
  cases n with
  | false => exact le_refl _
  | true =>
    have hle : levelsOfFields [("not", v)] ≤ _ := le_refl _
    have hv := levelsOfFields_le_iff.mp hle _ List.mem_cons_self
    exact hv.trans (Nat.le_succ _)

section Leaf
variable {op : Operator} {xs : List (Operand Predicate)}

/-- The parameters of a leaf are texts and lists of texts. -/
theorem textual_params (kind : op.isLogical = false) (fit : checkOperands op xs = .ok ()) :
    ∀ f ∈ paramsForm (operandValues xs), f.2.Textual ∧ f.2.levels ≤ 1 := by
  intro f hf
  rw [paramsForm_operandValues] at hf
  obtain ⟨x, hx, rfl⟩ := List.mem_map.mp (Keyed.mem_ofPairs hf)
  have htype := type_of_leaf kind fit x (List.mem_filter.mp hx).1
  obtain ⟨i, name, e⟩ := x
  cases e with
  | property path => exact ⟨Value.textual_string path, Nat.zero_le 1⟩
  | strings values => exact ⟨Value.textual_ofStrings values, Value.levels_ofStrings_le values⟩
  | nested p => cases htype

theorem nodup_writtenFields (op : Operator) (subject : Option String)
    (fields : List (String × Value)) : ((writtenFields op subject fields).map (·.1)).Nodup := by
  unfold writtenFields
  cases subject <;> split_ifs <;> simp

theorem textual_leaf (kind : op.isLogical = false) (fit : checkOperands op xs = .ok ()) :
    (node op xs false).toValue.Textual ∧ (node op xs false).toValue.levels ≤ 3 := by
  have hparams := textual_params kind fit
  have hkeys : ((paramsForm (operandValues xs)).map (·.1)).Nodup := by
    rw [paramsForm_operandValues]
    exact Keyed.nodup_ofPairs _
  have hfields : ∀ f ∈ writtenFields op (subjects xs).getLast? (paramsForm (operandValues xs)),
      f.2.Textual ∧ f.2.levels ≤ 2 := by
    intro f hf
    unfold writtenFields at hf
    rcases List.mem_append.mp hf with hf | hf
    · obtain ⟨path, -, rfl⟩ := List.mem_map.mp hf
      exact ⟨Value.textual_string path, Nat.zero_le 2⟩
    · rcases List.mem_cons.mp hf with rfl | hf
      · exact ⟨Value.textual_string _, Nat.zero_le 2⟩
      · split_ifs at hf with hnil
        · cases hf
        · rw [List.mem_singleton.mp hf]
          exact ⟨Value.textual_object hkeys fun f hf => (hparams f hf).1,
            Value.levels_object_le fun f hf => (hparams f hf).2⟩
  rw [toValue_leaf kind]
  exact ⟨Value.textual_object (nodup_writtenFields _ _ _) fun f hf => (hfields f hf).1,
    Value.levels_object_le fun f hf => (hfields f hf).2⟩

end Leaf

section Logical
variable {op : Operator} {xs : List (Operand Predicate)} {ps : List Predicate}

theorem textual_logical (kind : op.isLogical = true) (fit : checkOperands op xs = .ok ())
    (hps : xs.map (·.expression) = ps.map .nested) (h : ∀ p ∈ ps, p.toValue.Textual) :
    (node op xs false).toValue.Textual := by
  rcases toValue_logical kind fit hps with ⟨-, -, hform⟩ | ⟨-, p, rfl, hform⟩
  · have hitems : (Value.array (ps.map toValue)).Textual :=
      Value.textual_array (List.forall_mem_map.mpr h)
    rw [hform]
    exact Value.textual_object (by simp) (by simpa using hitems)
  · rw [hform]
    exact Value.textual_object (by simp) (by simpa using h)

/-- A logical node is written as an object, and as an array if it is about several predicates. -/
theorem levels_logical_le (kind : op.isLogical = true) (fit : checkOperands op xs = .ok ())
    (hps : xs.map (·.expression) = ps.map .nested) {n : Nat}
    (h : ∀ p ∈ ps, p.toValue.levels ≤ n) : (node op xs false).toValue.levels ≤ n + 2 := by
  rcases toValue_logical kind fit hps with ⟨-, -, hform⟩ | ⟨-, p, rfl, hform⟩
  · have hitems : (Value.array (ps.map toValue)).levels ≤ n + 1 :=
      Value.levels_array_le (List.forall_mem_map.mpr h)
    rw [hform]
    exact Value.levels_object_le (by simpa using hitems)
  · have hp : p.toValue.levels ≤ n + 1 := (h p List.mem_cons_self).trans (Nat.le_succ n)
    rw [hform]
    exact Value.levels_object_le (by simpa using hp)

end Logical

/-- **The written form of a checked predicate has no numbers and distinct keys.** -/
theorem Checked.textual_toValue {p : Predicate} (h : p.Checked) : p.toValue.Textual := by
  induction h with
  | leaf kind fit =>
    rw [toValue_node]
    exact textual_marked (textual_leaf kind fit).1 _
  | logical kind fit hps _ ih =>
    rw [toValue_node]
    exact textual_marked (textual_logical kind fit hps ih) _

theorem levels_negate_le (p : Predicate) : p.negate.toValue.levels ≤ p.toValue.levels + 1 := by
  obtain ⟨op, xs, n⟩ := p
  rw [negate, toValue_node op xs (!n), toValue_node op xs n]
  have hmarked := levels_marked_le (!n) (node op xs false).toValue
  have hplain := le_levels_marked n (node op xs false).toValue
  omega

end Predicate

namespace Definition

open Predicate (compose leafOperands literals checkOperands)

/-! ### Levels of what is read -/

theorem levels_leaf_le {path : String} {fields : List (String × Value)} {p : Predicate}
    (h : leaf path fields = .ok p) : p.toValue.levels ≤ 3 := by
  obtain ⟨property, -, h⟩ := bind_eq_ok.mp h
  obtain ⟨op, -, h⟩ := bind_eq_ok.mp h
  obtain ⟨params, -, h⟩ := bind_eq_ok.mp h
  obtain ⟨xs, hxs, h⟩ := bind_eq_ok.mp h
  obtain ⟨named, rfl, -⟩ := literalOperands_ok hxs
  obtain ⟨hfit, rfl⟩ := checked_ok.mp h
  have kind := Predicate.isLogical_of_leaf hfit
  exact (Predicate.textual_leaf kind hfit).2

theorem levels_checked_le {path : String} {op : Operator} {ps : List Predicate} {p : Predicate}
    {n : Nat} (hps : ∀ q ∈ ps, q.toValue.levels ≤ n)
    (h : checked path op (compose op ps).operands = .ok p) : p.toValue.levels ≤ n + 2 := by
  obtain ⟨hfit, rfl⟩ := checked_ok.mp h
  exact Predicate.levels_logical_le (Predicate.Accepted.isLogical_of_compose hfit) hfit
    (Predicate.map_expression_compose op ps) hps

theorem levels_not (p : Predicate) : p.not.toValue.levels = p.toValue.levels + 1 := by
  show max p.toValue.levels 0 + 1 = _
  rw [Nat.max_zero]

/-- What a field of `n` levels is taken as has at most twice as many, and two more if it is a rule
node. -/
structure Field.Within (n : Nat) (f : Field) : Prop where
  rule : ∀ {path p}, f.rule path = .ok p → p.toValue.levels ≤ 2 * n + 2
  rules : ∀ {path ps}, f.rules path = .ok ps → ∀ p ∈ ps, p.toValue.levels ≤ 2 * n

theorem levels_unmarked_le {path : String} {fields : List (String × Field)} {p : Predicate} {n : Nat}
    (hf : ∀ f ∈ fields, f.2.Within n) (h : unmarked path fields = .ok p) :
    p.toValue.levels ≤ 2 * n + 3 := by
  unfold unmarked at h
  split at h
  · have hleaf := levels_leaf_le h
    omega
  · next key f hone =>
    have hmem : (key, .not, f) ∈ logicalPresent fields := by rw [hone]; simp
    obtain ⟨q, hq, h⟩ := bind_eq_ok.mp h
    cases h
    have hrule := (hf _ (mem_logicalPresent hmem)).rule hq
    rw [levels_not]
    omega
  · next key op f _ hone =>
    have hmem : (key, op, f) ∈ logicalPresent fields := by rw [hone]; simp
    obtain ⟨ps, hps, h⟩ := bind_eq_ok.mp h
    have hchecked := levels_checked_le ((hf _ (mem_logicalPresent hmem)).rules hps) h
    omega
  · cases h

theorem levels_object_le {path : String} {fields : List (String × Field)} {p : Predicate} {n : Nat}
    (hf : ∀ f ∈ fields, f.2.Within n) (h : object path fields = .ok p) :
    p.toValue.levels ≤ 2 * (n + 1) + 2 := by
  rw [object_eq] at h
  obtain ⟨negate, -, h⟩ := bind_eq_ok.mp h
  obtain ⟨q, hq, h⟩ := bind_eq_ok.mp h
  cases h
  have hq' := levels_unmarked_le hf hq
  have hnegate := Predicate.levels_negate_le q
  unfold markIf
  split_ifs <;> omega

mutual

/-- **A predicate in written form has at most two levels more than twice as many as the rule node
that it was read from.** -/
theorem levels_readRule : ∀ {v : Value} {path : String} {p : Predicate},
    readRule v path = .ok p → p.toValue.levels ≤ 2 * v.levels + 2
  | .array items, path, p, h => by
    obtain ⟨ps, hps, h⟩ := bind_eq_ok.mp h
    have hchecked := levels_checked_le (levels_readItems hps) h
    rw [Value.levels]
    omega
  | .object fields, path, p, h => by
    refine levels_object_le (fun e he => ?_) h
    obtain ⟨k, hk⟩ := mem_normalize he
    exact within_readFields (levelsOfFields_le_iff.mp (le_refl _)) (k, e.2) hk
  | .null, _, _, h => by cases h
  | .bool _, _, _, h => by cases h
  | .number _, _, _, h => by cases h
  | .string _, _, _, h => by cases h

theorem levels_readRules : ∀ {v : Value} {path : String} {ps : List Predicate},
    readRules v path = .ok ps → ∀ p ∈ ps, p.toValue.levels ≤ 2 * v.levels
  | .array items, path, ps, h => levels_readItems h
  | .object _, _, _, h => by cases h
  | .null, _, _, h => by cases h
  | .bool _, _, _, h => by cases h
  | .number _, _, _, h => by cases h
  | .string _, _, _, h => by cases h

theorem levels_readItems : ∀ {vs : List Value} {path : String} {i : Nat} {ps : List Predicate},
    readItems vs path i = .ok ps → ∀ p ∈ ps, p.toValue.levels ≤ 2 * levelsOfItems vs + 2
  | [], _, _, _, h => by
    cases h
    simp
  | v :: vs, path, i, ps, h => by
    obtain ⟨p, hp, h⟩ := bind_eq_ok.mp h
    obtain ⟨qs, hqs, h⟩ := bind_eq_ok.mp h
    cases h
    have hfirst := levels_readRule hp
    rw [levelsOfItems]
    refine List.forall_mem_cons.mpr ⟨by omega, fun q hq => ?_⟩
    have hrest := levels_readItems hqs q hq
    omega

theorem within_readFields : ∀ {fs : List (String × Value)} {n : Nat},
    (∀ f ∈ fs, f.2.levels ≤ n) → ∀ f ∈ readFields fs, f.2.Within n
  | [], _, _ => by simp [readFields]
  | (k, v) :: fs, n, h => by
    obtain ⟨hv, hfs⟩ := List.forall_mem_cons.mp h
    refine List.forall_mem_cons.mpr ⟨⟨fun hp => ?_, fun hps p hp => ?_⟩, within_readFields hfs⟩
    · have hrule := levels_readRule hp
      dsimp only at hv
      omega
    · have hrules := levels_readRules hps p hp
      dsimp only at hv
      omega

end

/-! ### Definitions -/

theorem textual_action {a : Action} (h : ParamsInOrder a) :
    a.toValue.Textual ∧ a.toValue.levels ≤ 3 := by
  have hkeys : ((a.params.map fun p => (p.1, Value.ofStrings p.2)).map (·.1)).Nodup := by
    rw [List.map_map]
    exact Sorted.nodup_of_pairwise h
  have hparams : ∀ f ∈ a.params.map fun p => (p.1, Value.ofStrings p.2),
      f.2.Textual ∧ f.2.levels ≤ 1 := by
    intro f hf
    obtain ⟨p, -, rfl⟩ := List.mem_map.mp hf
    exact ⟨Value.textual_ofStrings p.2, Value.levels_ofStrings_le p.2⟩
  have hobject : (Value.object (a.params.map fun p => (p.1, .ofStrings p.2))).Textual :=
    Value.textual_object hkeys fun f hf => (hparams f hf).1
  have hlevels : (Value.object (a.params.map fun p => (p.1, .ofStrings p.2))).levels ≤ 2 :=
    Value.levels_object_le fun f hf => (hparams f hf).2
  refine ⟨Value.textual_object (by simp) ?_, Value.levels_object_le ?_⟩
  · simpa using ⟨Value.textual_string a.kind.name, hobject⟩
  · simpa using ⟨Nat.zero_le 2, hlevels⟩

variable {id text : String} {d : Definition} {v : Value}

theorem textual_actions {as : List Action} (h : ∀ a ∈ as, ParamsInOrder a) :
    (Value.array (as.map Action.toValue)).Textual ∧
      (Value.array (as.map Action.toValue)).levels ≤ 4 :=
  ⟨Value.textual_array (List.forall_mem_map.mpr fun a ha => (textual_action (h a ha)).1),
    Value.levels_array_le (List.forall_mem_map.mpr fun a ha => (textual_action (h a ha)).2)⟩

/-- The condition stands in an object, and the types in a list in it. -/
theorem textual_targetFields (types : List String) {conditions : Option Predicate}
    (h : ∀ p, conditions = some p → p.toValue.Textual) :
    (Value.object (targetFields types conditions)).Textual ∧
      ∀ n, 1 ≤ n → (∀ p, conditions = some p → p.toValue.levels ≤ n) →
        (Value.object (targetFields types conditions)).levels ≤ n + 1 := by
  have htypes := Value.textual_ofStrings types
  have htypes' := Value.levels_ofStrings_le types
  unfold targetFields
  cases conditions with
  | none =>
    refine ⟨Value.textual_object (by simp) (by simpa using htypes), fun n hn _ => ?_⟩
    exact Value.levels_object_le (by simpa using htypes'.trans hn)
  | some p =>
    have hp := h p rfl
    refine ⟨Value.textual_object (by simp) (by simpa using ⟨htypes, hp⟩), fun n hn hle => ?_⟩
    exact Value.levels_object_le (by simpa using ⟨htypes'.trans hn, hle p rfl⟩)

/-- The actions stand in lists in an object. -/
theorem textual_actionFields {as : Actions}
    (h : ∀ a ∈ as.passing ++ as.failing, ParamsInOrder a) :
    (Value.object [("passing", .array (as.passing.map Action.toValue)),
        ("failing", .array (as.failing.map Action.toValue))]).Textual ∧
      (Value.object [("passing", .array (as.passing.map Action.toValue)),
        ("failing", .array (as.failing.map Action.toValue))]).levels ≤ 5 := by
  have hpassing := textual_actions fun a ha => h a (List.mem_append_left _ ha)
  have hfailing := textual_actions fun a ha => h a (List.mem_append_right _ ha)
  refine ⟨Value.textual_object (by simp) ?_, Value.levels_object_le ?_⟩
  · simpa using ⟨hpassing.1, hfailing.1⟩
  · simpa using ⟨hpassing.2, hfailing.2⟩

/-- **The canonical form of an accepted definition has no numbers and distinct keys**, and one level
more than its rules, two more than its condition, or six for its actions. -/
theorem Accepted.textual_toValue (h : d.Accepted) : d.toValue.Textual ∧
    ∀ n, 5 ≤ n → d.rules.toValue.levels ≤ n →
      (∀ p, d.conditions = some p → p.toValue.levels + 1 ≤ n) → d.toValue.levels ≤ n + 1 := by
  have htargeting := textual_targetFields d.entityTypes fun p hp =>
    (h.conditions p hp).checked.textual_toValue
  have hactions := textual_actionFields h.actions
  have hrules := h.rules.checked.textual_toValue
  rw [toValue_eq]
  refine ⟨Value.textual_object (by simp) ?_, fun n hn hrules' hconditions => ?_⟩
  · simpa using ⟨htargeting.1, hrules, hactions.1⟩
  · have hon := htargeting.2 (n - 1) (by omega) fun p hp => by
      have hp' := hconditions p hp
      omega
    refine Value.levels_object_le ?_
    simpa using ⟨hon.trans (by omega), hrules', hactions.2.trans hn⟩

/-- The part of a text that says what a definition is about has two levels at least, for its types,
and bounds the condition. -/
theorem levels_readTargeting {on : Value} {types : List String} {conditions : Option Predicate}
    (h : readTargeting on = .ok (types, conditions)) : 2 ≤ on.levels ∧
      ∀ p, conditions = some p → p.toValue.levels ≤ 2 * on.levels := by
  cases on with
  | object raw =>
    rw [readTargeting_eq] at h
    obtain ⟨ts, hts, h⟩ := bind_eq_ok.mp h
    obtain ⟨cs, hcs, h⟩ := bind_eq_ok.mp h
    cases h
    have hraw : ∀ {k w}, (normalize raw).lookup k = some w →
        w.levels + 1 ≤ (Value.object raw).levels := by
      intro k w hw
      obtain ⟨j, hj⟩ := mem_normalize (mem_of_lookup hw)
      exact Nat.succ_le_succ (levelsOfFields_le_iff.mp (le_refl _) _ hj)
    constructor
    · -- the types stand in an array
      unfold targetTypes at hts
      split at hts
      · next items hitems =>
        have harray := hraw hitems
        rw [Value.levels] at harray
        omega
      · cases hts
    · rintro p rfl
      unfold targetConditions at hcs
      split at hcs
      · cases hcs
      · cases hcs
      · next w hw =>
        obtain ⟨q, hq, hcs⟩ := bind_eq_ok.mp hcs
        cases hcs
        have hrule := levels_readRule hq
        have hle := hraw hw
        omega
  | null | bool | number | string | array => cases h

theorem levels_le_of_required {fields : List (String × Value)} {k : String} {fault : Fault}
    {w : Value} (h : required fault (fields.lookup k) = .ok w) :
    w.levels ≤ levelsOfFields fields := by
  cases hk : fields.lookup k with
  | none =>
    rw [hk] at h
    cases h
  | some w' =>
    rw [hk] at h
    cases h
    exact levelsOfFields_le_iff.mp (le_refl _) _ (mem_of_lookup hk)

/-- **The canonical form of a definition has at most one level more than twice as many as the value
that the definition was read from.** -/
theorem levels_toValue (hv : v.Distinct) (h : ofValue id v = .ok d) :
    d.toValue.levels ≤ 2 * v.levels + 1 := by
  obtain ⟨-, hd⟩ := accepted_ofValue hv h
  cases v with
  | object fields =>
    rw [ofValue_eq] at h
    obtain ⟨on, hon, h⟩ := bind_eq_ok.mp h
    obtain ⟨⟨types, conditions⟩, htargeting, h⟩ := bind_eq_ok.mp h
    obtain ⟨node, hnode, h⟩ := bind_eq_ok.mp h
    obtain ⟨rules, hrules, h⟩ := bind_eq_ok.mp h
    obtain ⟨actions, -, h⟩ := bind_eq_ok.mp h
    cases h
    have hon' := levels_le_of_required hon
    have hnode' := levels_le_of_required hnode
    have hrules' := levels_readRule hrules
    obtain ⟨htwo, hconditions⟩ := levels_readTargeting htargeting
    rw [Value.levels]
    refine hd.textual_toValue.2 (2 * levelsOfFields fields + 2) (by omega) ?_ fun p hp => ?_
    · dsimp only
      omega
    · have hp' := hconditions p hp
      omega
  | null | bool | number | string | array => cases h

/-! ### Texts -/

theorem read_of_none (h : Value.ofText? text = none) :
    Definition.read id text = .error (.parse (.notJson id)) := by
  unfold Definition.read ofText
  rw [h]
  rfl

/-- The text of the canonical form of an accepted definition is read if it has no more levels than
the reader allows. -/
theorem Accepted.read_text (h : d.Accepted) : Definition.read d.id d.toValue.text =
    if d.toValue.levels ≤ Json.maxLevels then .ok d.unmark
    else .error (.parse (.notJson d.id)) := by
  have htext := h.textual_toValue.1.ofText?_text
  split_ifs at htext ⊢
  · exact read_eq_ok.mpr ⟨_, htext, h.read_toValue⟩
  · exact read_of_none htext

/-! ### Definitions that are nested deep -/

/-- A value in arrays. -/
def inArrays : Nat → Value → Value
  | 0, v => v
  | k + 1, v => .array [inArrays k v]

/-- A predicate in conjunctions. -/
def inAnds : Nat → Predicate → Predicate
  | 0, p => p
  | k + 1, p => .and [inAnds k p]

/-- Whatever is not named `a`. -/
def notNamed : Value :=
  .object [("property", .string "name"), ("operator", .string "equals"), ("value", .string "a"),
    ("negate", .bool true)]

/-- The rules stand in `k` arrays. -/
def deep (k : Nat) : Value :=
  .object [("on", .object [("types", .array [.string "thing"])]), ("rules", inArrays k notNamed)]

theorem levels_inArrays (v : Value) : ∀ k, (inArrays k v).levels = v.levels + k
  | 0 => rfl
  | k + 1 => by
    show max (inArrays k v).levels 0 + 1 = _
    rw [levels_inArrays v k, Nat.max_zero, Nat.add_assoc]

theorem textual_inArrays (h : v.Textual) : ∀ k, (inArrays k v).Textual
  | 0 => h
  | k + 1 => Value.textual_array (by simpa using textual_inArrays h k)

theorem levels_inAnds (p : Predicate) : ∀ k, (inAnds k p).toValue.levels = p.toValue.levels + 2 * k
  | 0 => rfl
  | k + 1 => by
    show max (max (inAnds k p).toValue.levels 0 + 1) 0 + 1 = _
    rw [levels_inAnds p k]
    omega

theorem readRule_inArrays {p : Predicate} (h : ∀ path, readRule v path = .ok p) :
    ∀ k path, readRule (inArrays k v) path = .ok (inAnds k p)
  | 0, path => h path
  | k + 1, path => by
    have hitem := readRule_inArrays h k (s!"{path}[{0}]")
    have hitems : readItems [inArrays k v] path 0 = .ok [inAnds k p] := by
      rw [readItems, hitem]
      rfl
    rw [inArrays, readRule, hitems]
    rfl

theorem readRule_notNamed (path : String) : readRule notNamed path =
    .ok (.node .anyEquals (leafOperands "name" [("value", ["a"])]) true) := rfl

theorem ofValue_deep (id : String) (k : Nat) : ofValue id (deep k) = .ok ⟨id, ["thing"], none,
    inAnds k (.node .anyEquals (leafOperands "name" [("value", ["a"])]) true), ⟨[], []⟩⟩ := by
  rw [deep, ofValue_eq]
  show readRule (inArrays k notNamed) "rules" >>= _ = _
  rw [readRule_inArrays readRule_notNamed]
  rfl

/-- **The bound on the levels is reached**: each array is written as two levels, and the rule inside
as three more than it has. -/
theorem exists_read_deep (id : String) {k : Nat} (hk : 1 ≤ k) (hle : k ≤ 125) : ∃ d,
    Definition.read id (deep k).text = .ok d ∧ Value.ofText? (deep k).text = some (deep k) ∧
    (deep k).levels = k + 2 ∧ d.toValue.levels = 2 * k + 5 := by
  have hrules := levels_inArrays notNamed k
  have hone : notNamed.levels = 1 := rfl
  have hlevels : (deep k).levels = k + 2 := by
    show max 2 (max (inArrays k notNamed).levels 0) + 1 = _
    omega
  have hnamed : notNamed.Textual := ⟨by simp [notNamed, Value.Distinct, Json.DistinctFields], by
    simp [notNamed, Value.Numberless, Json.NumberlessFields]⟩
  have htypes : (Value.object [("types", .array [.string "thing"])]).Textual :=
    Value.textual_object (by simp) (List.forall_mem_singleton.mpr (Value.textual_ofStrings ["thing"]))
  have htextual : (deep k).Textual :=
    Value.textual_object (by simp) (by simpa using ⟨htypes, textual_inArrays hnamed k⟩)
  have htext := htextual.ofText?_text
  have hfits : (deep k).levels ≤ Json.maxLevels := by
    show _ ≤ 127
    omega
  rw [if_pos hfits] at htext
  refine ⟨_, read_eq_ok.mpr ⟨_, htext, ofValue_deep id k⟩, htext, hlevels, ?_⟩
  have hands := levels_inAnds
    (.node .anyEquals (leafOperands "name" [("value", ["a"])]) true) k
  have hfour : (Predicate.node .anyEquals (leafOperands "name" [("value", ["a"])])
      true).toValue.levels = 4 := rfl
  show max 2 (max (inAnds k _).toValue.levels (max 2 0)) + 1 = _
  omega

/-! ### Reading canonical texts -/

/-- **The text of the canonical form is read as the definition with its marks spelled out if it has
no more levels than the reader allows**, and else it is not read at all. The former evaluates to the
same. If the text that the definition was read from has at most 63 levels, the text of the canonical
form is read. -/
theorem read_text_toValue (h : Definition.read id text = .ok d) :
    Definition.read id d.toValue.text = (if d.toValue.levels ≤ Json.maxLevels then .ok d.unmark
      else .error (.parse (.notJson id))) ∧
    (∀ values, d.unmark.rules.eval values = d.rules.eval values ∧
      d.unmark.conditions.map (·.eval values) = d.conditions.map (·.eval values)) ∧
    ∃ v, Value.ofText? text = some v ∧ d.toValue.levels ≤ 2 * v.levels + 1 ∧
      (v.levels ≤ 63 → Definition.read id d.toValue.text = .ok d.unmark) := by
  obtain ⟨v, hv, hd⟩ := read_eq_ok.mp h
  obtain ⟨rfl, haccepted⟩ := accepted_read h
  have hread := haccepted.read_text
  have hlevels := levels_toValue (Json.distinct_of_ofText? hv) hd
  refine ⟨hread, fun values => ⟨Predicate.eval_unmark values d.rules, ?_⟩, v, hv, hlevels,
    fun hle => ?_⟩
  · show (d.conditions.map Predicate.unmark).map _ = _
    rw [Option.map_map]
    exact congrArg (fun f => d.conditions.map f)
      (funext fun p => Predicate.eval_unmark values p)
  · have hfits : d.toValue.levels ≤ Json.maxLevels := by
      show _ ≤ 127
      omega
    rw [hread, if_pos hfits]

/-- Rules in 61 arrays make 63 levels, and their canonical form is read. -/
theorem read_text_deep : ∃ d, Definition.read "deep" (deep 61).text = .ok d ∧
    (deep 61).levels = 63 ∧ d.toValue.levels = 127 ∧
    Definition.read "deep" d.toValue.text = .ok d.unmark := by
  obtain ⟨d, hd, htext, hdeep, hlevels⟩ := exists_read_deep "deep" (k := 61) (by decide) (by decide)
  obtain ⟨-, -, v, hv, -, hread⟩ := read_text_toValue hd
  cases htext.symm.trans hv
  exact ⟨d, hd, hdeep, hlevels, hread (by omega)⟩

/-- Rules in one array more are read as well, but their canonical form is not. -/
theorem text_deeper_not_read : ∃ d, Definition.read "deep" (deep 62).text = .ok d ∧
    d.toValue.levels = 129 ∧ ∀ d', Definition.read "deep" d.toValue.text ≠ .ok d' := by
  obtain ⟨d, hd, -, -, hlevels⟩ := exists_read_deep "deep" (k := 62) (by decide) (by decide)
  obtain ⟨hid, haccepted⟩ := accepted_read hd
  have hread := haccepted.read_text
  have hexceeds : ¬ d.toValue.levels ≤ Json.maxLevels := by
    show ¬ _ ≤ 127
    omega
  rw [if_neg hexceeds, hid] at hread
  refine ⟨d, hd, hlevels, fun d' hd' => ?_⟩
  rw [hread] at hd'
  cases hd'

end Definition
end CatalogRules
