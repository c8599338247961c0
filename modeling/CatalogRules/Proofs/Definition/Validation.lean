import CatalogRules.Definition.Validate
import CatalogRules.Proofs.Action.Admission
import CatalogRules.Proofs.Definition.Accepted
import CatalogRules.Proofs.Resolution.Conforming
import CatalogRules.Proofs.Resolution.Pooled

/-! # Validation of definitions

Something is valid if there are no messages (`Validation.of`). The messages about a path are said
without the evaluators (`Path.complaints`): an empty segment is reported once, otherwise there is one
message for each entity type on which the path is not resolvable (`Path.validate_eq_complaints`).
With the refusals of the actions these are the messages about a definition
(`Definition.validateText_exact`), so that a definition is valid if it can be read, its paths are
resolvable and its actions are accepted. -/

namespace CatalogRules

/-! ### Validations with messages -/

namespace Validation

/-- Valid without messages. -/
def of (messages : List String) : Validation := ⟨messages.isEmpty, messages⟩

theorem valid_of_iff {messages : List String} : (of messages).valid = true ↔ messages = [] :=
  List.isEmpty_iff

theorem merge_of (ms ns : List String) : (of ms).merge (of ns) = of (ms ++ ns) := by
  cases ms <;> rfl

theorem foldl_merge_of {α : Type} (f : α → List String) : ∀ (xs : List α) (ms : List String),
    (xs.map fun x => of (f x)).foldl merge (of ms) = of (ms ++ xs.flatMap f)
  | [], ms => by simp
  | x :: xs, ms => by
    rw [List.map_cons, List.foldl_cons, merge_of, foldl_merge_of f xs, List.flatMap_cons,
      List.append_assoc]

/-- All messages, in order. -/
theorem all_of {α : Type} (f : α → List String) (xs : List α) :
    all (xs.map fun x => of (f x)) = of (xs.flatMap f) :=
  foldl_merge_of f xs []

end Validation

/-! ### Paths -/

namespace Path

variable {r : Registry} {t : String} {p : Path}

/-- Whether a path is resolvable is found out along its plans. -/
def isResolvable (r : Registry) (t : String) (p : Path) : Bool :=
  match IdentityField.ofPath? p, _hp : Plan.of? r t p with
  | some _, _ => true
  | none, none => r.has t && (SystemField.ofPath? p).isSome
  | none, some (.local _ _) => true
  | none, some (.hop _ _ ts rest) => ts.any fun t' => isResolvable r t' rest
termination_by p.length
decreasing_by
  have := (Plan.length_rest _hp).2
  omega

theorem isResolvable_iff {r : Registry} {t : String} {p : Path} :
    isResolvable r t p = true ↔ Resolvable r t p := by
  rw [isResolvable, resolvable_iff]
  cases hi : IdentityField.ofPath? p with
  | some f => simp
  | none =>
    split
    · simp_all
    · next hp => simp [hp]
    · next hp => simp [hp]
    · next ts rest hp =>
      have hlength := (Plan.length_rest hp).2
      simp only [hp, List.any_eq_true]
      exact exists_congr fun t' => and_congr_right fun _ => isResolvable_iff
termination_by p.length

instance (r : Registry) (t : String) (p : Path) : Decidable (Resolvable r t p) :=
  decidable_of_iff (isResolvable r t p = true) isResolvable_iff

/-- The message about a path that is not resolvable on an entity type: a hop names the types that its
rest fails on. -/
def complaint (r : Registry) (p : Path) (t : String) : String :=
  match Plan.of? r t p with
  | some (.hop _ _ targets rest) => "属性路径 '" ++ p.text ++ "' 的剩余部分 '" ++ rest.text ++
      "' 无法在引用目标 [" ++ String.intercalate ", " targets ++ "] 上解析"
  | _ => s!"实体类型 '{t}' 无法解析属性路径 '" ++ p.text ++ "'"

/-- **The messages about a path**: an empty segment, or the entity types on which the path is not
resolvable. -/
def complaints (r : Registry) (types : List String) (p : Path) : List String :=
  if "" ∈ p then ["属性路径 '" ++ p.text ++ "' 含有空段"]
  else (types.filter fun t => ¬ Resolvable r t p).map (complaint r p)

theorem complaints_eq_nil {types : List String} :
    complaints r types p = [] ↔ "" ∉ p ∧ ∀ t ∈ types, Resolvable r t p := by
  unfold complaints
  split_ifs with hp <;> simp [hp]

/-- On one entity type: the first evaluator for the path, or none, has a message if the path is not
resolvable. -/
theorem validateOn_eq {validate : Path → String → Validation}
    (hrest : ∀ {a fs ts rest}, Plan.of? r t p = some (.hop a fs ts rest) →
      ∀ t', (validate rest t').valid = true ↔ Resolvable r t' rest) :
    (match Evaluator.firstEligible r t p Evaluator.standard with
      | some e => validateBy r validate t p e
      | none => .problem (s!"实体类型 '{t}' 无法解析属性路径 '" ++ p.text ++ "'")) =
    Validation.of (if Resolvable r t p then [] else [complaint r p t]) := by
  rw [Evaluator.firstEligible_standard]
  have hiff := resolvable_iff (r := r) (t := t) (p := p)
  cases hi : IdentityField.ofPath? p with
  | some f =>
    have h : Resolvable r t p := .name hi
    rw [if_pos h]
    rfl
  | none =>
    rw [hi] at hiff
    cases hplan : Plan.of? r t p with
    | none =>
      rw [hplan] at hiff
      simp only [complaint, hplan, hiff]
      cases r.has t <;> cases SystemField.ofPath? p <;> rfl
    | some plan =>
      cases plan with
      | «local» a fs =>
        have h : Resolvable r t p := .here hi hplan
        simp only [Option.isSome_none, Option.isSome_some, Bool.false_eq_true, if_false, if_true,
          validateBy, validatePlan, hplan, h]
        rfl
      | hop a fs ts rest =>
        rw [hplan] at hiff
        have hany : (ts.any fun t' => (validate rest t').valid) = true ↔ Resolvable r t p := by
          rw [hiff, List.any_eq_true]
          exact exists_congr fun t' => and_congr_right fun _ => hrest hplan t'
        simp only [Option.isSome_none, Option.isSome_some, Bool.false_eq_true, if_false, if_true,
          validateBy, validatePlan, hplan, complaint, hany]
        split_ifs <;> rfl

/-- **A path is validated by what is said about it.** -/
theorem validate_eq_complaints (r : Registry) (types : List String) (p : Path) :
    p.validate Evaluator.standard r types = Validation.of (complaints r types p) := by
  unfold validate complaints
  rw [validateWithin]
  by_cases hp : "" ∈ p
  · rw [if_pos (List.contains_iff_mem.mpr hp), if_pos hp]
    rfl
  rw [if_neg (mt List.contains_iff_mem.mp hp), if_neg hp]
  have hmap : (types.filter fun t => ¬ Resolvable r t p).map (complaint r p) =
      types.flatMap fun t => if Resolvable r t p then [] else [complaint r p t] := by
    induction types with
    | nil => rfl
    | cons t ts ih => by_cases h : Resolvable r t p <;> simpa [h] using ih
  rw [hmap, ← Validation.all_of]
  congr 1
  refine List.map_congr_left fun t _ => validateOn_eq fun {a fs ts rest} hplan t' => ?_
  obtain ⟨-, -, hcut⟩ := Plan.of?_hop hplan
  refine validateWithin_iff ?_ fun he => hp ?_
  · have := (Plan.length_rest hplan).2
    omega
  · rw [hcut]
    exact List.mem_cons_of_mem _ (List.mem_append_right _ he)

end Path

/-! ### Definitions -/

namespace Definition

open Json (Value)

variable {r : Registry} {check : ActionCheck} {id text : String} {d : Definition}

theorem mem_references {path : String} : path ∈ d.references ↔
    path ∈ d.rules.paths ∨ ∃ p, d.conditions = some p ∧ path ∈ p.paths := by
  rw [references, Sorted.mem_ofList, List.mem_append]
  cases d.conditions <;> simp

/-- A definition that is read under one id is read under any other. -/
theorem read_with_id (h : Definition.read id text = .ok d) (id' : String) :
    Definition.read id' text = .ok { d with id := id' } := by
  have hvalue : ∀ v, ofValue id v = .ok d → ofValue id' v = .ok { d with id := id' } := by
    intro v hv
    cases v with
    | object fields =>
      rw [ofValue_eq] at hv ⊢
      obtain ⟨on, hon, hv⟩ := bind_eq_ok.mp hv
      obtain ⟨targeting, htargeting, hv⟩ := bind_eq_ok.mp hv
      obtain ⟨node, hnode, hv⟩ := bind_eq_ok.mp hv
      obtain ⟨rules, hrules, hv⟩ := bind_eq_ok.mp hv
      obtain ⟨actions, hactions, hv⟩ := bind_eq_ok.mp hv
      cases hv
      -- only the faults of missing fields name the id
      have hother : ∀ {fault fault' : Fault} {o : Option Value} {w : Value},
          required fault o = .ok w → required fault' o = .ok w := by
        rintro fault fault' (- | w') w hw <;> cases hw
        rfl
      exact bind_eq_ok.mpr ⟨on, hother hon, bind_eq_ok.mpr ⟨targeting, htargeting,
        bind_eq_ok.mpr ⟨node, hother hnode, bind_eq_ok.mpr ⟨rules, hrules,
          bind_eq_ok.mpr ⟨actions, hactions, rfl⟩⟩⟩⟩⟩
    | null | bool | number | string | array => cases hv
  obtain ⟨v, hv, hd⟩ := read_eq_ok.mp h
  exact read_eq_ok.mpr ⟨v, hv, hvalue v hd⟩

/-- The message about an action that is refused. -/
def refusals (check : ActionCheck) (a : Action) : List String :=
  match check a.kind a.params with
  | .ok () => []
  | .error e => [e.message]

theorem refusals_eq_nil {a : Action} : refusals check a = [] ↔ check a.kind a.params = .ok () := by
  unfold refusals
  split
  · next h => simp [h]
  · next h => simp [h]

theorem validateAction_eq (check : ActionCheck) (a : Action) :
    validateAction check a = Validation.of (refusals check a) := by
  unfold validateAction refusals
  cases check a.kind a.params <;> rfl

/-- **The messages about a definition**: those about its paths, in their order, and then those about
its actions. -/
def problems (r : Registry) (check : ActionCheck) (d : Definition) : List String :=
  (d.references.flatMap fun path => (Path.ofText path).complaints r d.entityTypes) ++
    (d.actions.passing ++ d.actions.failing).flatMap (refusals check)

theorem problems_eq_nil : problems r check d = [] ↔
    (∀ path ∈ d.references, "" ∉ Path.ofText path ∧
      ∀ t ∈ d.entityTypes, (Path.ofText path).Resolvable r t) ∧
    ∀ a ∈ d.actions.passing ++ d.actions.failing, check a.kind a.params = .ok () := by
  simp only [problems, List.append_eq_nil_iff, List.flatMap_eq_nil_iff, Path.complaints_eq_nil,
    refusals_eq_nil]

theorem all_validations : Validation.all (d.validations Evaluator.standard r check) =
    Validation.of (problems r check d) := by
  have hactions : validateAction check = fun a => Validation.of (refusals check a) :=
    funext (validateAction_eq check)
  unfold validations
  simp only [Path.validate_eq_complaints, hactions]
  show ((_ ++ _ : List Validation).foldl Validation.merge (.of [])) = _
  rw [List.foldl_append, Validation.foldl_merge_of, List.nil_append, Validation.foldl_merge_of]
  rfl

theorem validateText_of_ok (h : Definition.read placeholderId text = .ok d) :
    validateText Evaluator.standard r check text = Validation.of (problems r check d) := by
  rw [validateText, h]
  exact all_validations

theorem validateText_of_error {e : Failure} (h : Definition.read placeholderId text = .error e) :
    validateText Evaluator.standard r check text = Validation.of [e.message] := by
  rw [validateText, h]
  rfl

/-- What is valid was read and has no problems. -/
theorem valid_iff : (validateText Evaluator.standard r check text).valid = true ↔
    ∃ d, Definition.read placeholderId text = .ok d ∧ problems r check d = [] := by
  cases h : Definition.read placeholderId text with
  | error e => simp [validateText_of_error h, Validation.valid_of_iff]
  | ok d => simp [validateText_of_ok h, Validation.valid_of_iff]

end Definition

/-- An action that is accepted is applied on a platform without outages. -/
theorem Run.applyAction_of_ok {a : Action} {p : Platform}
    (ha : p.handlers.validate a.kind a.params = .ok ()) (ho : p.outages = []) (us : List Urn) :
    ∃ q, (Run.applyAction a us).run p = (.ok (), q) := by
  have hnone : p.outage? (.applyAction a.kind us a.params) = none := by
    by_contra h
    obtain ⟨message, hm⟩ := Option.ne_none_iff_exists'.mp h
    exact Run.outages_ne_nil hm ho
  obtain ⟨args, -, happly⟩ := Handlers.apply_of_ok ha
  unfold Run.applyAction
  rw [Run.run_bind, Run.run_call, hnone]
  dsimp only
  rw [Run.run_get_bind]
  dsimp only
  rw [happly]
  exact ⟨_, rfl⟩

namespace Definition

/-- **Validation is exact.** The text of a definition is valid if there are no messages, and these
are, in order: the failure to read the text; or, for each path in rules and conditions, an empty
segment or the entity types on which it is not resolvable; and then the refusals of the actions. If
the actions are checked by the handlers that they are applied by, the actions of a valid definition
never fail, whatever the store, the entities and the id of the definition are. -/
theorem validateText_exact (r : Registry) (check : ActionCheck) (text : String) :
    let v := validateText Evaluator.standard r check text
    (v.valid = true ↔ v.messages = []) ∧
    (v.valid = true ↔ ∃ d, Definition.read placeholderId text = .ok d ∧
      (∀ path ∈ d.references, "" ∉ Path.ofText path ∧
        ∀ t ∈ d.entityTypes, (Path.ofText path).Resolvable r t) ∧
      ∀ a ∈ d.actions.passing ++ d.actions.failing, check a.kind a.params = .ok ()) ∧
    (∀ e, Definition.read placeholderId text = .error e → v.messages = [e.message]) ∧
    (∀ d, Definition.read placeholderId text = .ok d →
      d.references.Pairwise (· < ·) ∧ d.entityTypes.Pairwise (· < ·) ∧
      (∀ path, path ∈ d.references ↔
        path ∈ d.rules.paths ∨ ∃ p, d.conditions = some p ∧ path ∈ p.paths) ∧
      v.messages =
        (d.references.flatMap fun path => (Path.ofText path).complaints r d.entityTypes) ++
          (d.actions.passing ++ d.actions.failing).flatMap (refusals check)) ∧
    ∀ h : Handlers, check = h.validate → v.valid = true →
      ∀ id d, Definition.read id text = .ok d →
        ∀ a ∈ d.actions.passing ++ d.actions.failing, ∀ us,
          (∀ now s, ∃ s', h.apply now a.kind a.params us s = .ok s') ∧
          ∀ p : Platform, p.handlers = h → p.outages = [] →
            ∃ q, (Run.applyAction a us).run p = (.ok (), q) := by
  dsimp only
  refine ⟨?_, ?_, fun e he => ?_, fun d hd => ⟨Sorted.pairwise_ofList _, (accepted_read hd).2.types,
    fun path => mem_references, ?_⟩, ?_⟩
  · cases hd : Definition.read placeholderId text with
    | error e => rw [validateText_of_error hd, Validation.valid_of_iff, Validation.of]
    | ok d => rw [validateText_of_ok hd, Validation.valid_of_iff, Validation.of]
  · simp only [valid_iff, problems_eq_nil]
  · rw [validateText_of_error he, Validation.of]
  · rw [validateText_of_ok hd]
    rfl
  · rintro h rfl hvalid id d hd a ha us
    obtain ⟨d', hd', hproblems⟩ := valid_iff.mp hvalid
    rw [read_with_id hd placeholderId] at hd'
    cases hd'
    have haccepted := (problems_eq_nil.mp hproblems).2 a ha
    refine ⟨fun now s => ?_, fun p hp ho => Run.applyAction_of_ok (hp ▸ haccepted) ho us⟩
    obtain ⟨args, -, happly⟩ := Handlers.apply_of_ok haccepted
    exact ⟨_, happly now us s⟩

/-- Things with a named owner may be tagged. An empty segment, a path that persons do not have and an
action without a handler are reported, in the order of the paths. -/
theorem validate_tagging :
    let tagging := "\x7b\"on\":\x7b\"types\":[\"thing\"]\x7d,
      \"rules\":\x7b\"property\":\"owner.by.urn\",\"operator\":\"exists\"\x7d,
      \"actions\":\x7b\"passing\":[\x7b\"type\":\"ADD_TAGS\",\"values\":\"urn:li:tag:new\"\x7d]\x7d\x7d"
    let astray := "\x7b\"on\":\x7b\"types\":[\"thing\",\"person\"]\x7d,
      \"rules\":[\x7b\"property\":\"owner.by\",\"operator\":\"exists\"\x7d,
        \x7b\"property\":\"owner..by\",\"operator\":\"exists\"\x7d],
      \"actions\":\x7b\"failing\":[\x7b\"type\":\"SET_DOMAIN\"\x7d]\x7d\x7d"
    let h : Handlers := [.addTags]
    let v := validateText Evaluator.standard Registry.ofOwners h.validate
    v tagging = ⟨true, []⟩ ∧
    (∃ d, Definition.read "tagging" tagging = .ok d ∧ d.actions.passing.length = 1 ∧
      ∀ a ∈ d.actions.passing, ∀ us now s, ∃ s', h.apply now a.kind a.params us s = .ok s') ∧
    v astray = ⟨false, ["属性路径 'owner..by' 含有空段", "实体类型 'person' 无法解析属性路径 'owner.by'",
      "动作执行失败 [SET_DOMAIN]: 未注册该动作类型的处理器"]⟩ ∧
    v "\x7b" = ⟨false, ["规则定义解析失败: 测试 'dummy' 不是合法的 JSON"]⟩ := by
  intro tagging astray h v
  have hvalid : v tagging = ⟨true, []⟩ := by decide +kernel
  have hread : (Definition.read "tagging" tagging).toOption.map (·.actions.passing.length) =
      some 1 := by decide +kernel
  obtain ⟨-, -, -, -, hactions⟩ := validateText_exact Registry.ofOwners h.validate tagging
  refine ⟨hvalid, ?_, by decide +kernel, by decide +kernel⟩
  cases hd : Definition.read "tagging" tagging with
  | error e =>
    rw [hd] at hread
    cases hread
  | ok d =>
    rw [hd] at hread
    refine ⟨d, rfl, Option.some.inj hread, fun a ha us => ?_⟩
    have happly := hactions h rfl (congrArg Validation.valid hvalid) "tagging" d hd a
      (List.mem_append_left _ ha) us
    exact happly.1

end Definition
end CatalogRules
