import CatalogRules.Proofs.Definition.PlainForm

/-! # Rule nodes in plain form

The plain form of a rule node is read as the same predicate with its marks spelled out
(`readsAlike`), up to the paths in its faults. -/

namespace CatalogRules.Definition

open Json (Value DistinctItems DistinctFields)
open Predicate (compose)

variable {path path' : String} {fields fields' : List (String × Value)}

/-- The predicate of an object without its mark depends on the one logical field, or it is a leaf. -/
theorem unmarked_readFields (path : String) (fields : List (String × Value)) :
    unmarked path (readFields fields) = match logicalPresent fields with
      | [] => leaf path fields
      | [(key, .not, v)] => readRule v s!"{path}.{key}" >>= fun p => .ok (Predicate.not p)
      | [(key, op, v)] => readRules v s!"{path}.{key}" >>= fun ps =>
          checked s!"{path}.{key}" op (compose op ps).operands
      | _ => .error (.severalLogical path) := by
  have hvalues : ((readFields fields).map fun f => (f.1, f.2.value)) = fields := by
    rw [readFields_eq_map, List.map_map]
    exact List.map_id' fields
  unfold unmarked
  rw [hvalues, readFields_eq_map,
    logicalPresent_map (fun _ v => (⟨v, readRule v, readRules v⟩ : Field)) fields]
  rcases logicalPresent fields with _ | ⟨⟨key, op, v⟩, _ | _⟩
  · rfl
  · cases op <;> rfl
  · cases op <;> rfl

/-! ### Rule nodes -/

/-- The plain form of a field of an object. -/
def desugarField (k : String) (v : Value) : Value :=
  if k = "not" then desugarRule v else if k = "or" ∨ k = "and" then desugarRules v else v

theorem desugarFields_eq_map (fields : List (String × Value)) :
    desugarFields fields = fields.map fun p => (p.1, desugarField p.1 p.2) := by
  induction fields with
  | nil => rfl
  | cons f fields ih =>
    rw [desugarFields, ih]
    rfl

theorem desugarField_of_newerName? {k newer : String} (h : newerName? k = some newer) :
    desugarField newer = desugarField k := by
  unfold newerName? at h
  split_ifs at h with h1 h2 h3
  · cases h
    subst h1
    rfl
  · cases h
    subst h2
    rfl
  · cases h
    subst h3
    rfl

/-- The plain form is read as the same predicates with their marks spelled out, at any path. -/
structure ReadsAlike (v : Value) : Prop where
  rule : ∀ path path', (readRule (desugarRule v) path').toOption =
    (readRule v path).toOption.map Predicate.unmark
  rules : ∀ path path', (readRules (desugarRules v) path').toOption =
    (readRules v path).toOption.map (List.map Predicate.unmark)

/-- Nothing is lost if the nodes below a conjunction or a disjunction are spelled out. -/
theorem toOption_checked_unmark {op : Operator} (hop : op = .and ∨ op = .or) (ps : List Predicate) :
    (checked path' op (compose op (ps.map Predicate.unmark)).operands).toOption =
      (checked path op (compose op ps).operands).toOption.map Predicate.unmark := by
  by_cases hps : ps = []
  · subst hps
    rcases hop with rfl | rfl <;> rfl
  · have hmap : ps.map Predicate.unmark ≠ [] := by simpa using hps
    rw [checked_ok.mpr ⟨checkOperands_list hop hmap, rfl⟩,
      checked_ok.mpr ⟨checkOperands_list hop hps, rfl⟩]
    show some _ = some (Predicate.unmark _)
    rw [Predicate.unmark, if_neg Bool.false_ne_true, Predicate.unmarkOperands_compose]

/-- Spelling marks out does not change a leaf. -/
theorem unmark_leaf {p : Predicate} (h : leaf path fields = .ok p) : p.unmark = p := by
  obtain ⟨s, -, h⟩ := bind_eq_ok.mp h
  obtain ⟨op, -, h⟩ := bind_eq_ok.mp h
  obtain ⟨params, -, h⟩ := bind_eq_ok.mp h
  obtain ⟨xs, hxs, h⟩ := bind_eq_ok.mp h
  obtain ⟨named, rfl, -⟩ := literalOperands_ok hxs
  obtain ⟨-, rfl⟩ := checked_ok.mp h
  rw [Predicate.unmark, if_neg Bool.false_ne_true]
  exact congrArg (Predicate.node op · false) (Predicate.unmarkOperands_leafOperands s named)

theorem toOption_leaf_unmark : (leaf path fields).toOption.map Predicate.unmark =
    (leaf path fields).toOption := by
  cases h : leaf path fields with
  | error e => rfl
  | ok p => exact congrArg some (unmark_leaf h)

/-- The fields of the plain form of an object without its mark. -/
def plainFields (fields : List (String × Value)) : List (String × Value) :=
  gathered (markless (fields.map fun p => (p.1, desugarField p.1 p.2)))

theorem logicalPresent_plainFields (fields : List (String × Value)) :
    logicalPresent (plainFields fields) =
      (logicalPresent fields).map fun e => (e.1, e.2.1, desugarField e.1 e.2.2) := by
  rw [plainFields, logicalPresent_gathered, logicalPresent_markless, logicalPresent_map]

theorem mem_logicalFields {β : Type} {fields : List (String × β)} {key : String} {op : Operator}
    {v : β} (h : (key, op, v) ∈ logicalPresent fields) : (key, op) ∈ logicalFields := by
  obtain ⟨e, he, heq⟩ := List.mem_filterMap.mp h
  obtain ⟨w, -, heq⟩ := Option.map_eq_some_iff.mp heq
  cases heq
  exact he

/-- A leaf has no rule nodes among its fields. -/
theorem desugarField_of_leaf (h : logicalPresent fields = []) :
    (fields.map fun p => (p.1, desugarField p.1 p.2)) = fields := by
  have hkey : ∀ e ∈ fields, ∀ l ∈ logicalFields, e.1 ≠ l.1 := fun e he l hl heq =>
    lookup_eq_none.mp (lookup_of_logicalPresent_eq_nil h hl) (heq ▸ List.mem_map_of_mem he)
  refine (List.map_congr_left fun e he => ?_).trans (List.map_id' fields)
  have hnot : e.1 ≠ "not" := hkey e he ("not", .not) (by decide)
  have hor : e.1 ≠ "or" := hkey e he ("or", .or) (by decide)
  have hand : e.1 ≠ "and" := hkey e he ("and", .and) (by decide)
  rw [desugarField, if_neg hnot, if_neg (not_or.mpr ⟨hor, hand⟩)]

/-- **The plain form of an object without its mark is read as the same predicate.** -/
theorem toOption_plainFields (h : ∀ f ∈ fields, ReadsAlike f.2) :
    (unmarked path' (readFields (plainFields fields))).toOption =
      (unmarked path (readFields fields)).toOption.map Predicate.unmark := by
  rw [unmarked_readFields, unmarked_readFields, logicalPresent_plainFields]
  rcases hl : logicalPresent fields with _ | ⟨⟨key, op, v⟩, _ | _⟩
  · show (leaf path' (plainFields fields)).toOption = (leaf path fields).toOption.map _
    rw [plainFields, desugarField_of_leaf hl, toOption_leaf_gathered, toOption_leaf_markless,
      toOption_leaf_unmark]
    rw [logicalPresent_markless, hl]
  · have hmem : (key, op, v) ∈ logicalPresent fields := by rw [hl]; exact List.mem_cons_self
    have halike := h _ (mem_logicalPresent hmem)
    have hkey := mem_logicalFields hmem
    simp only [logicalFields, List.mem_cons, Prod.mk.injEq, List.not_mem_nil, or_false] at hkey
    rcases hkey with ⟨rfl, rfl⟩ | ⟨rfl, rfl⟩ | ⟨rfl, rfl⟩
    · exact toOption_bind_map (halike.rule _ _) fun p => rfl
    · exact toOption_bind_map (halike.rules _ _) (toOption_checked_unmark (.inr rfl))
    · exact toOption_bind_map (halike.rules _ _) (toOption_checked_unmark (.inl rfl))
  · cases op <;> rfl

theorem negateMark_of_lookup (h : fields.lookup "negate" = none) :
    negateMark path fields = .ok false := by
  unfold negateMark
  rw [h]
  exact ite_self _

theorem negateMark_gathered (fields : List (String × Value)) :
    negateMark path (gathered fields) = negateMark path fields := by
  have hnot : (gathered fields).lookup "not" = fields.lookup "not" :=
    lookup_logical_gathered (e := ("not", .not)) (by decide) fields
  unfold negateMark
  rw [hnot, lookup_gathered (.inl (by decide)) (by decide)]

theorem readRule_plainFields (h : Newer fields) (path : String) :
    readRule (.object (plainFields fields)) path =
      unmarked path (readFields (plainFields fields)) := by
  refine readRule_unmarked ((h.map desugarField).filter _).gathered (negateMark_of_lookup ?_)
  refine (lookup_gathered (.inl (by decide)) (by decide)).trans ?_
  exact lookup_filter_keys (fun k => decide (k ≠ "negate")) _ "negate"

theorem negated_of_unmarked {fields : List (String × Field)} {p : Predicate}
    (h : unmarked path fields = .ok p) : p.negated = false := by
  unfold unmarked at h
  split at h
  · rw [leaf_eq] at h
    obtain ⟨_, -, h⟩ := bind_eq_ok.mp h
    obtain ⟨_, -, h⟩ := bind_eq_ok.mp h
    obtain ⟨_, -, h⟩ := bind_eq_ok.mp h
    obtain ⟨-, rfl⟩ := checked_ok.mp h
    rfl
  · obtain ⟨_, -, h⟩ := bind_eq_ok.mp h
    cases h
    rfl
  · obtain ⟨_, -, h⟩ := bind_eq_ok.mp h
    obtain ⟨-, rfl⟩ := checked_ok.mp h
    rfl
  · cases h

theorem unmark_negate {p : Predicate} (h : p.negated = false) : p.negate.unmark = p.unmark.not := by
  obtain ⟨op, xs, n⟩ := p
  cases h
  rfl

/-- **The plain form of an object is read as the same predicate with its mark spelled out.** -/
theorem toOption_plainObject (hn : Newer fields) (h : ∀ f ∈ fields, ReadsAlike f.2) :
    (readRule (plainObject (fields.map fun p => (p.1, desugarField p.1 p.2))) path').toOption =
      (readRule (.object fields) path).toOption.map Predicate.unmark := by
  have hlookup : ∀ key, (fields.map fun p => (p.1, desugarField p.1 p.2)).lookup key =
      (fields.lookup key).map (desugarField key) := lookup_map_values desugarField fields
  have hnegate : (fields.map fun p => (p.1, desugarField p.1 p.2)).lookup "negate" =
      fields.lookup "negate" := (hlookup "negate").trans Option.map_id'
  have hplain : ∀ path', (readRule (.object (plainFields fields)) path').toOption =
      (unmarked path (readFields fields)).toOption.map Predicate.unmark := fun path' => by
    rw [readRule_plainFields hn, toOption_plainFields h]
  -- without a mark, or beside a `not`, nothing is spelled out
  have hunmarked : (readRule (.object (plainFields fields)) path').toOption =
      ((Except.ok false >>= fun negate => unmarked path (readFields fields) >>= fun p =>
        .ok (markIf negate p)).toOption.map Predicate.unmark : Option Predicate) :=
    (hplain path').trans (congrArg (fun x : Except Fault Predicate => x.toOption.map _)
      (bind_pure (unmarked path (readFields fields))).symm)
  rw [readRule_object hn.names hn.nodup]
  unfold plainObject negateMark
  rw [hnegate, hlookup, Option.isSome_map]
  cases hnot : fields.lookup "not" with
  | some v => exact hunmarked
  | none =>
    rcases hmark : fields.lookup "negate" with _ | v
    · exact hunmarked
    · cases v with
      | null => exact hunmarked
      | bool b =>
        cases b with
        | false => exact hunmarked
        | true =>
          show (readRule (.object [("not", .object (plainFields fields))]) path').toOption =
            (unmarked path (readFields fields) >>= fun p => .ok p.negate).toOption.map _
          rw [readRule_not, toOption_bind, toOption_bind, hplain]
          cases hp : unmarked path (readFields fields) with
          | error e => rfl
          | ok p => exact congrArg some (unmark_negate (negated_of_unmarked hp)).symm
      | number | string | array | object =>
        have hfault : negateMark path' (fields.map fun p => (p.1, desugarField p.1 p.2)) =
            .error (.negateNotBoolean path') := by
          unfold negateMark
          rw [hnegate, hlookup, hnot, hmark]
          rfl
        have hnewer := (hn.map desugarField).gathered
        have hread := readRule_object hnewer.names hnewer.nodup path'
        rw [negateMark_gathered, hfault] at hread
        exact congrArg Except.toOption hread

mutual

/-- **The plain form of a rule node is read as the same predicate with its marks spelled out.** -/
theorem readsAlike : ∀ {v : Value}, v.Distinct → ReadsAlike v
  | .array items, hv =>
    ⟨fun path path' => (congrArg _ (readRule_list (.inl rfl) (desugarItems items) path')).trans
      (toOption_bind_map (toOption_items hv _ _ 0 0) (toOption_checked_unmark (.inl rfl))),
      fun path path' => toOption_items hv path path' 0 0⟩
  | .object fields, hv => by
    refine ⟨fun path path' => ?_, fun _ _ => rfl⟩
    have hrenamed := renamed_map desugarField (fun _ _ => desugarField_of_newerName?) fields
    rw [desugarRule, desugarFields_eq_map, hrenamed, readRule_renamed hv.1]
    refine toOption_plainObject (newer_renamed hv.1) fun f hf => ?_
    obtain ⟨k, hk⟩ := mem_of_mem_renamed hf
    exact readsAlike_fields hv.2 (k, f.2) hk
  | .null, _ | .bool _, _ | .number _, _ | .string _, _ => ⟨fun _ _ => rfl, fun _ _ => rfl⟩

theorem toOption_items : ∀ {vs : List Value}, DistinctItems vs → ∀ path path' i i',
    (readItems (desugarItems vs) path' i').toOption =
      (readItems vs path i).toOption.map (List.map Predicate.unmark)
  | [], _, _, _, _, _ => rfl
  | v :: vs, hv, path, path', i, i' => by
    rw [desugarItems, readItems, readItems]
    exact toOption_bind_map ((readsAlike hv.1).rule _ _) fun p =>
      toOption_bind_map (toOption_items hv.2 _ _ _ _) fun ps => rfl

theorem readsAlike_fields : ∀ {fs : List (String × Value)}, DistinctFields fs →
    ∀ f ∈ fs, ReadsAlike f.2
  | [], _ => by simp
  | (_, _) :: _, h => List.forall_mem_cons.mpr ⟨readsAlike h.1, readsAlike_fields h.2⟩

end

end CatalogRules.Definition
