import CatalogRules.Proofs.Definition.PlainRules

/-! # Definitions in plain form

A document is a definition exactly if its plain form is, and the two mean the same
(`ofValue_desugar`). They are the same definition if no mark counts, since a document without such
marks is read as predicates without marks (`readsPlainly`). -/

namespace CatalogRules.Definition

open Json (Value DistinctItems DistinctFields distinctFields_iff)
open Predicate (compose)

/-! ### Marks that count -/

mutual

/-- Some rule node in a rule node is marked as negated and has no `not`. -/
def Negates : Value → Prop
  | .array items => NegatesItems items
  | .object fields =>
    (fields.lookup "not" = none ∧ fields.lookup "negate" = some (.bool true)) ∨
      NegatesFields fields
  | _ => False

/-- The same for a list of rule nodes. -/
def NegatesItems : List Value → Prop
  | [] => False
  | v :: vs => Negates v ∨ NegatesItems vs

/-- The same for the rule nodes among the fields of an object. -/
def NegatesFields : List (String × Value) → Prop
  | [] => False
  | (k, v) :: rest => ((k = "not" ∨ k = "or" ∨ k = "and") ∧ Negates v) ∨ NegatesFields rest

end

/-- Some rule node in a document is marked as negated and has no `not`. -/
def Marked (v : Value) : Prop :=
  (∃ node, v.field? "rules" = some node ∧ Negates node) ∨
    ∃ fields node, v.field? "on" = some (.object fields) ∧
      (renamed fields).lookup "conditions" = some node ∧ Negates node

/-! ### Predicates without marks -/

variable {path : String} {fields : List (String × Value)}

theorem names_logicalFields : ∀ e ∈ logicalFields, (e.1 = "not" ∨ e.1 = "or" ∨ e.1 = "and") ∧
    newerName? e.1 = none ∧ e.1 ∉ ["operator", "property", "conditions"] := by
  decide

theorem negatesFields_of_mem {key : String} {v : Value}
    (hkey : key = "not" ∨ key = "or" ∨ key = "and") (hv : Negates v) :
    ∀ {fields : List (String × Value)}, (key, v) ∈ fields → NegatesFields fields
  | (_, _) :: _, h => by
    rcases List.mem_cons.mp h with heq | h
    · cases heq
      exact .inl ⟨hkey, hv⟩
    · exact .inr (negatesFields_of_mem hkey hv h)

/-- A rule node in which nothing is negated by a mark is read as predicates without marks. -/
structure ReadsPlainly (v : Value) : Prop where
  rule : ∀ {path p}, readRule v path = .ok p → ¬ Negates v → p.unmark = p
  rules : ∀ {path ps}, readRules v path = .ok ps → ¬ Negates v → ps.map Predicate.unmark = ps

theorem unmark_of_checked {op : Operator} {ps : List Predicate} {p : Predicate}
    (hps : ps.map Predicate.unmark = ps) (h : checked path op (compose op ps).operands = .ok p) :
    p.unmark = p := by
  obtain ⟨-, rfl⟩ := checked_ok.mp h
  rw [Predicate.unmark, if_neg Bool.false_ne_true, Predicate.unmarkOperands_compose, hps]

theorem unmark_of_unmarked {p : Predicate} (h : unmarked path (readFields fields) = .ok p)
    (hplain : ∀ f ∈ fields, ReadsPlainly f.2)
    (hn : ∀ e ∈ logicalFields, ∀ v, (e.1, v) ∈ fields → ¬ Negates v) : p.unmark = p := by
  have hbelow : ∀ {key op v}, (key, op, v) ∈ logicalPresent fields → ReadsPlainly v ∧ ¬ Negates v :=
    fun hmem => ⟨hplain _ (mem_logicalPresent hmem),
      hn _ (mem_logicalFields hmem) _ (mem_logicalPresent hmem)⟩
  rw [unmarked_readFields] at h
  split at h
  · exact unmark_leaf h
  · next key v hl =>
    obtain ⟨hv, hnv⟩ := hbelow (hl ▸ List.mem_cons_self)
    obtain ⟨q, hq, h⟩ := bind_eq_ok.mp h
    cases h
    exact congrArg Predicate.not (hv.rule hq hnv)
  · next key op v _ hl =>
    obtain ⟨hv, hnv⟩ := hbelow (hl ▸ List.mem_cons_self)
    obtain ⟨ps, hps, h⟩ := bind_eq_ok.mp h
    exact unmark_of_checked (hv.rules hps hnv) h
  · cases h

theorem of_negateMark_true (h : negateMark path fields = .ok true) :
    fields.lookup "not" = none ∧ fields.lookup "negate" = some (.bool true) := by
  unfold negateMark at h
  split at h
  · cases h
  · next hnot =>
    refine ⟨Option.not_isSome_iff_eq_none.mp hnot, ?_⟩
    split at h
    · cases h
    · cases h
    · next hmark =>
      cases h
      exact hmark
    · cases h

mutual

theorem readsPlainly : ∀ {v : Value}, v.Distinct → ReadsPlainly v
  | .array items, hv => by
    refine ⟨fun h hn => ?_, fun h hn => map_unmark_of_readItems hv h hn⟩
    obtain ⟨ps, hps, h⟩ := bind_eq_ok.mp h
    exact unmark_of_checked (map_unmark_of_readItems hv hps hn) h
  | .object fields, hv => by
    refine ⟨fun {path p} h hn => ?_, fun h _ => by cases h⟩
    have hnewer := newer_renamed hv.1
    rw [readRule_renamed hv.1, readRule_object hnewer.names hnewer.nodup] at h
    obtain ⟨negate, hnegate, h⟩ := bind_eq_ok.mp h
    obtain ⟨q, hq, h⟩ := bind_eq_ok.mp h
    obtain ⟨hmark, hfields⟩ := not_or.mp hn
    have hq' : q.unmark = q := by
      refine unmark_of_unmarked hq (fun f hf => ?_) fun e he v hmem hv' => ?_
      · obtain ⟨k, hk⟩ := mem_of_mem_renamed hf
        exact readsPlainly_fields hv.2 (k, f.2) hk
      · obtain ⟨hkey, hold, hnew⟩ := names_logicalFields e he
        exact hfields (negatesFields_of_mem hkey hv'
          ((mem_renamed_iff hold (newerName?_ne hnew)).mp hmem))
    cases h
    cases negate with
    | false => exact hq'
    | true =>
      obtain ⟨hnot, hnegate⟩ := of_negateMark_true hnegate
      rw [lookup_renamed hv.1 rfl (newerName?_ne (by decide))] at hnot hnegate
      exact absurd ⟨hnot, hnegate⟩ hmark
  | .null, _ | .bool _, _ | .number _, _ | .string _, _ =>
    ⟨fun h _ => (by cases h), fun h _ => (by cases h)⟩

theorem map_unmark_of_readItems : ∀ {vs : List Value}, DistinctItems vs → ∀ {path i ps},
    readItems vs path i = .ok ps → ¬ NegatesItems vs → ps.map Predicate.unmark = ps
  | [], _, _, _, _, h, _ => by
    cases h
    rfl
  | v :: vs, hv, path, i, _, h, hn => by
    obtain ⟨p, hp, h⟩ := bind_eq_ok.mp h
    obtain ⟨ps, hps, h⟩ := bind_eq_ok.mp h
    cases h
    obtain ⟨hn, hns⟩ := not_or.mp hn
    rw [List.map_cons, (readsPlainly hv.1).rule hp hn, map_unmark_of_readItems hv.2 hps hns]

theorem readsPlainly_fields : ∀ {fs : List (String × Value)}, DistinctFields fs →
    ∀ f ∈ fs, ReadsPlainly f.2
  | [], _ => by simp
  | (_, _) :: _, h => List.forall_mem_cons.mpr ⟨readsPlainly h.1, readsPlainly_fields h.2⟩

end

/-! ### Documents -/

variable {id : String} {d d' : Definition} {v : Value}

theorem plainObject_eq (fields : List (String × Value)) :
    ∃ fs, plainObject fields = .object fs := by
  unfold plainObject
  split_ifs
  · exact ⟨_, rfl⟩
  · split <;> exact ⟨_, rfl⟩

/-- A condition that is there is a rule node. -/
theorem targetConditions_of_lookup (h : fields.lookup "conditions" = some v) (hv : v ≠ .null) :
    targetConditions fields = readRule v "on.conditions" >>= fun p => .ok (some p) := by
  unfold targetConditions
  rw [h]
  cases v with
  | null => exact absurd rfl hv
  | bool | number | string | array | object => rfl

theorem desugarRule_ne_null (hv : v ≠ .null) : desugarRule v ≠ .null := by
  cases v with
  | null => exact hv
  | bool | number | string => exact hv
  | array items => exact fun h => by cases h
  | object fields =>
    obtain ⟨fs, hfs⟩ := plainObject_eq (renamed (desugarFields fields))
    rw [desugarRule, hfs]
    exact fun h => by cases h

/-- The entity types and the condition with its marks spelled out. -/
def unmarkTargeting (t : List String × Option Predicate) : List String × Option Predicate :=
  (t.1, t.2.map Predicate.unmark)

theorem toOption_targetConditions (hf : ∀ f ∈ fields, f.2.Distinct) :
    (targetConditions (fields.map fun p => (p.1, desugarTarget p.1 p.2))).toOption =
      (targetConditions fields).toOption.map (Option.map Predicate.unmark) := by
  have hlookup : (fields.map fun p => (p.1, desugarTarget p.1 p.2)).lookup "conditions" =
      (fields.lookup "conditions").map desugarRule :=
    lookup_map_values desugarTarget fields "conditions"
  by_cases hnode : ∃ v, fields.lookup "conditions" = some v ∧ v ≠ .null
  · obtain ⟨v, hv, hne⟩ := hnode
    rw [hv] at hlookup
    rw [targetConditions_of_lookup hv hne,
      targetConditions_of_lookup hlookup (desugarRule_ne_null hne)]
    exact toOption_bind_map ((readsAlike (hf _ (mem_of_lookup hv))).rule _ _) fun p => rfl
  · unfold targetConditions
    rw [hlookup]
    rcases hv : fields.lookup "conditions" with _ | v
    · rfl
    · have hnull : v = .null := by
        by_contra hne
        exact hnode ⟨v, hv, hne⟩
      rw [hnull]
      rfl

theorem toOption_readTargeting (hv : v.Distinct) :
    (readTargeting (desugarTargeting v)).toOption =
      (readTargeting v).toOption.map unmarkTargeting := by
  cases v with
  | object raw =>
    have hplain := (newer_renamed hv.1).map desugarTarget
    have hf : ∀ f ∈ renamed raw, f.2.Distinct := fun f hf => by
      obtain ⟨k, hk⟩ := mem_of_mem_renamed hf
      exact distinctFields_iff.mp hv.2 (k, f.2) hk
    have htypes : targetTypes ((renamed raw).map fun p => (p.1, desugarTarget p.1 p.2)) =
        targetTypes (renamed raw) := by
      unfold targetTypes
      rw [lookup_map_values desugarTarget, show Option.map (desugarTarget "types") _ = _ from
        Option.map_id']
    rw [desugarTargeting, readTargeting_eq, readTargeting_eq, normalize_eq_renamed hv.1,
      normalize_self hplain.names hplain.nodup, htypes]
    have hkept : (targetTypes (renamed raw)).toOption =
      (targetTypes (renamed raw)).toOption.map fun types => types := Option.map_id'.symm
    exact toOption_bind_map hkept fun types =>
      toOption_bind_map (toOption_targetConditions hf) fun conditions => rfl
  | null | bool | number | string | array => rfl

/-- **The plain form is read as the same definition with its marks spelled out.** -/
theorem toOption_ofValue (hv : v.Distinct) (id : String) :
    (ofValue id (desugar v)).toOption = (ofValue id v).toOption.map unmark := by
  cases v with
  | object fields =>
    have hlookup := lookup_map_values desugarPart fields
    have hf : ∀ {key v}, fields.lookup key = some v → v.Distinct := fun h =>
      distinctFields_iff.mp hv.2 _ (mem_of_lookup h)
    rw [desugar, ofValue_eq, ofValue_eq, hlookup, hlookup, hlookup]
    cases hon : fields.lookup "on" with
    | none => rfl
    | some on =>
      show (readTargeting (desugarTargeting on) >>= _).toOption =
        (readTargeting on >>= _).toOption.map unmark
      refine toOption_bind_map (toOption_readTargeting (hf hon)) fun targeting => ?_
      cases hrules : fields.lookup "rules" with
      | none => rfl
      | some node =>
        show (readRule (desugarRule node) "rules" >>= _).toOption =
          (readRule node "rules" >>= _).toOption.map unmark
        refine toOption_bind_map ((readsAlike (hf hrules)).rule _ _) fun rules => ?_
        have hactions : (fields.lookup "actions").map (desugarPart "actions") =
          fields.lookup "actions" := Option.map_id'
        rw [hactions]
        cases readActions (fields.lookup "actions") <;> rfl
  | null | bool | number | string | array => rfl

theorem required_ok {fault : Fault} {o : Option Value} :
    required fault o = .ok v ↔ o = some v := by
  cases o <;> simp [required]

theorem unmark_of_targetConditions {conditions : Option Predicate}
    (hf : ∀ v, fields.lookup "conditions" = some v → v.Distinct ∧ ¬ Negates v)
    (h : targetConditions fields = .ok conditions) :
    conditions.map Predicate.unmark = conditions := by
  unfold targetConditions at h
  split at h
  · cases h
    rfl
  · cases h
    rfl
  · next v _ hv =>
    obtain ⟨p, hp, h⟩ := bind_eq_ok.mp h
    cases h
    obtain ⟨hdistinct, hn⟩ := hf v hv
    exact congrArg some ((readsPlainly hdistinct).rule hp hn)

/-- A document in which no mark counts is read as a definition without marks. -/
theorem unmark_of_not_marked (hv : v.Distinct) (h : ofValue id v = .ok d) (hm : ¬ Marked v) :
    d.unmark = d := by
  obtain ⟨hnode, hconditions⟩ := not_or.mp hm
  cases v with
  | object fields =>
    have hf : ∀ {key v}, fields.lookup key = some v → v.Distinct := fun h =>
      distinctFields_iff.mp hv.2 _ (mem_of_lookup h)
    rw [ofValue_eq] at h
    obtain ⟨on, hon, h⟩ := bind_eq_ok.mp h
    obtain ⟨⟨types, conditions⟩, htargeting, h⟩ := bind_eq_ok.mp h
    obtain ⟨node, hrules, h⟩ := bind_eq_ok.mp h
    obtain ⟨rules, hread, h⟩ := bind_eq_ok.mp h
    obtain ⟨actions, -, h⟩ := bind_eq_ok.mp h
    cases h
    rw [required_ok] at hon hrules
    have hrules' : rules.unmark = rules :=
      (readsPlainly (hf hrules)).rule hread fun hn => hnode ⟨node, hrules, hn⟩
    cases on with
    | object raw =>
      have hraw := hf hon
      rw [readTargeting_eq, normalize_eq_renamed hraw.1] at htargeting
      obtain ⟨ts, -, htargeting⟩ := bind_eq_ok.mp htargeting
      obtain ⟨cs, hcs, htargeting⟩ := bind_eq_ok.mp htargeting
      cases htargeting
      have hconditions' : conditions.map Predicate.unmark = conditions := by
        refine unmark_of_targetConditions (fun w hw => ⟨?_, fun hn => ?_⟩) hcs
        · obtain ⟨k, hk⟩ := mem_of_mem_renamed (mem_of_lookup hw)
          exact distinctFields_iff.mp hraw.2 (k, w) hk
        · exact hconditions ⟨raw, w, hon, hw, hn⟩
      rw [unmark, hrules', hconditions']
    | null | bool | number | string | array => cases htargeting
  | null | bool | number | string | array => cases h

/-- **A document is a definition exactly if its plain form is**, with the same entity types and
actions, and with rules and conditions that evaluate alike; the definition is the same if no mark
counts. The keys of the objects in a document are distinct. -/
theorem ofValue_desugar (hv : v.Distinct) (id : String) :
    ((∃ d, ofValue id v = .ok d) ↔ ∃ d', ofValue id (desugar v) = .ok d') ∧
    ∀ d d', ofValue id v = .ok d → ofValue id (desugar v) = .ok d' →
      d'.id = d.id ∧ d'.entityTypes = d.entityTypes ∧ d'.actions = d.actions ∧
      (∀ values, d'.rules.eval values = d.rules.eval values ∧
        d'.conditions.map (·.eval values) = d.conditions.map (·.eval values)) ∧
      (¬ Marked v → d' = d) := by
  have hread := toOption_ofValue hv id
  cases hd : ofValue id v with
  | error fault =>
    rw [hd] at hread
    refine ⟨⟨fun ⟨d, h⟩ => (by cases h), fun ⟨d', hd'⟩ => ?_⟩, fun d d' h => (by cases h)⟩
    rw [hd'] at hread
    cases hread
  | ok d =>
    rw [hd] at hread
    have hplain : ofValue id (desugar v) = .ok d.unmark := toOption_eq_some.mp hread
    refine ⟨⟨fun _ => ⟨_, hplain⟩, fun _ => ⟨d, rfl⟩⟩, ?_⟩
    rintro d₁ d' h hd'
    rw [hplain] at hd'
    cases h
    cases hd'
    refine ⟨rfl, rfl, rfl, fun values => ⟨Predicate.eval_unmark values d.rules, ?_⟩,
      fun hm => unmark_of_not_marked hv hd hm⟩
    show (d.conditions.map Predicate.unmark).map _ = _
    rw [Option.map_map]
    exact congrArg (d.conditions.map ·) (funext fun p => Predicate.eval_unmark values p)

/-- A definition in older names and short forms. -/
def terse : Value := .object [
  ("on", .object [("types", .array [.string "thing"]),
    ("match", .object [("query", .string "twin.urn"), ("operation", .string "exists")])]),
  ("rules", .array [.object [("negate", .bool false), ("not", .object [
    ("query", .string "passed over"), ("property", .string "names.first"),
    ("operator", .string "starts_with"), ("match", .string "tmp")])]])]

/-- The same definition in plain form. -/
def plain : Value := .object [
  ("on", .object [("types", .array [.string "thing"]),
    ("conditions", .object [("property", .string "twin.urn"), ("operator", .string "exists"),
      ("params", .object [])])]),
  ("rules", .object [("and", .array [.object [("not", .object [
    ("property", .string "names.first"), ("operator", .string "starts_with"),
    ("params", .object [("conditions", .array [.string "tmp"])])])]])])]

theorem ofValue_plain : desugar terse = plain ∧ terse.Distinct ∧ ¬ Marked terse ∧
    ∃ d, ofValue "terse" terse = .ok d ∧ ofValue "terse" plain = .ok d := by
  have hplain : desugar terse = plain := by rfl
  have hv : terse.Distinct := by
    simp [terse, Value.Distinct, Json.DistinctFields, Json.DistinctItems]
  have hm : ¬ Marked terse := by
    rintro (⟨node, hnode, hn⟩ | ⟨fields, node, hon, hnode, hn⟩)
    · obtain rfl := Option.some.inj hnode
      simp [Negates, NegatesItems, NegatesFields, List.lookup_cons] at hn
    · obtain rfl := Value.object.inj (Option.some.inj hon)
      obtain rfl := Option.some.inj hnode
      simp [Negates, NegatesFields, List.lookup_cons] at hn
  obtain ⟨hiff, hsame⟩ := ofValue_desugar hv "terse"
  rw [hplain] at hiff hsame
  have hread : (ofValue "terse" terse).toOption.isSome = true := by decide +kernel
  refine ⟨hplain, hv, hm, ?_⟩
  cases hd : ofValue "terse" terse with
  | error fault =>
    rw [hd] at hread
    cases hread
  | ok d =>
    obtain ⟨d', hd'⟩ := hiff.mp ⟨d, hd⟩
    obtain ⟨-, -, -, -, heq⟩ := hsame d d' hd hd'
    exact ⟨d, rfl, heq hm ▸ hd'⟩

end CatalogRules.Definition
