import CatalogRules.Proofs.Definition.Reread

/-! # Reading the canonical form

The canonical form of a definition that was read is read as the same definition with its marks
spelled out (`ofValue_toValue`): this is what the written form of an accepted predicate says
(`Accepted.reread_eq`), and each of its leaves is legible (`allLegible_of_accepted`). -/

namespace CatalogRules

namespace Predicate

/-! ### What accepted predicates say in written form -/

theorem isSubject_literals {x : Operand Predicate} {i : Nat} {ps : List (String × List String)}
    (h : x ∈ literals i ps) : isSubject x = false := by
  obtain ⟨values, hvalues⟩ := mem_literals h
  obtain ⟨j, name, e⟩ := x
  cases hvalues
  rfl

theorem subjects_leafOperands (path : String) (ps : List (String × List String)) :
    subjects (leafOperands path ps) = [path] := by
  have hnone : (literals 1 ps).filter isSubject = [] :=
    List.filter_eq_nil_iff.mpr fun x hx => by simp [isSubject_literals hx]
  rw [leafOperands, subjects_cons rfl rfl, subjects, hnone]
  rfl

theorem params_leafOperands (path : String) {ps : List (String × List String)}
    (h : (ps.map (·.1)).Nodup) : params (leafOperands path ps) = ps := by
  have hrest : rest (leafOperands path ps) = literals 1 ps := by
    rw [leafOperands, rest_cons rfl]
    exact List.filter_eq_self.mpr fun x hx => by simp [isSubject_literals hx]
  have hnamed : ∀ (i : Nat) (ps : List (String × List String)),
      (literals i ps).map (fun x => (paramName x, x.expression.texts)) = ps := by
    intro i ps
    induction ps generalizing i with
    | nil => rfl
    | cons p ps ih => rw [literals, List.map_cons, ih]; rfl
  rw [params, hrest, hnamed, Keyed.ofPairs_self h]

namespace Accepted

theorem isLogical_of_compose {op : Operator} {ps : List Predicate}
    (h : checkOperands op (compose op ps).operands = .ok ()) : op.isLogical = true := by
  rcases logical_of_compose h with ⟨rfl | rfl, -⟩ | ⟨rfl, -⟩ <;> rfl

theorem checked {p : Predicate} (h : p.Accepted) : p.Checked := by
  induction h with
  | leaf _ _ fit => exact .leaf (isLogical_of_leaf fit) fit
  | logical fit _ ih =>
    exact .logical (isLogical_of_compose fit) fit (map_expression_compose _ _) ih

/-- **An accepted predicate says the same in written form**, with its marks spelled out. -/
theorem reread_eq {p : Predicate} (h : p.Accepted) : p.reread = p.unmark := by
  induction h with
  | @leaf op path ps n _ distinct fit =>
    rw [reread, isLogical_of_leaf fit, subjects_leafOperands, params_leafOperands path distinct,
      unmark, unmarkOperands_leafOperands]
    rfl
  | @logical op ps n fit _ ih =>
    rw [reread, isLogical_of_compose fit, rereadOperands_nested (map_expression_compose op ps),
      List.map_congr_left ih, unmark, unmarkOperands_compose]
    rfl

end Accepted
end Predicate

namespace Definition

open Json (Value)
open Predicate (unmark)

theorem allLegible_of_accepted {p : Predicate} (h : p.Accepted) : AllLegible p := by
  induction h with
  | @leaf op path ps n nonempty distinct fit =>
    have kind := Predicate.isLogical_of_leaf fit
    refine (allLegible_leaf kind fit).mpr ((Predicate.legible_iff kind fit).mpr
      ⟨path, ?_, nonempty, ?_⟩)
    · rw [Predicate.subjects_leafOperands]
      rfl
    · rw [Predicate.params_leafOperands path distinct]
      exact fit
  | @logical op ps n fit _ ih =>
    exact (allLegible_logical (Predicate.Accepted.isLogical_of_compose fit)
      (Predicate.map_expression_compose op ps)).mpr ih

/-- **The written form of an accepted predicate is read as the predicate with its marks spelled
out.** -/
theorem readRule_toValue {p : Predicate} (h : p.Accepted) (path : String) :
    readRule p.toValue path = .ok p.unmark :=
  (readRule_reread h.checked path _).mpr ⟨allLegible_of_accepted h, h.reread_eq.symm⟩

/-! ### Definitions -/

/-- The definition with its marks spelled out. -/
def unmark (d : Definition) : Definition :=
  { d with conditions := d.conditions.map Predicate.unmark, rules := d.rules.unmark }

variable {id : String} {d : Definition}

/-- The canonical form of an accepted definition is read back. -/
theorem Accepted.read_toValue (h : d.Accepted) : ofValue d.id d.toValue = .ok d.unmark := by
  have hconditions : readCondition d.conditions = .ok (d.conditions.map Predicate.unmark) := by
    cases hc : d.conditions with
    | none => rfl
    | some p =>
      rw [readCondition, readRule_toValue (h.conditions p hc)]
      rfl
  rw [ofValue_toValue_eq, hconditions, readRule_toValue h.rules, Sorted.ofList_self h.types,
    allInOrder_eq h.actions]
  rfl

theorem Accepted.toValue_unmark (h : d.Accepted) : d.unmark.toValue = d.toValue := by
  have hconditions : targetFields d.entityTypes (d.conditions.map Predicate.unmark) =
      targetFields d.entityTypes d.conditions := by
    cases hc : d.conditions with
    | none => rfl
    | some p =>
      show targetFields d.entityTypes (some p.unmark) = targetFields d.entityTypes (some p)
      rw [targetFields, targetFields, (h.conditions p hc).toValue_unmark]
  rw [toValue_eq, toValue_eq]
  show Value.object [("on", .object (targetFields d.entityTypes (d.conditions.map _))),
    ("rules", d.rules.unmark.toValue), _] = _
  rw [hconditions, h.rules.toValue_unmark]
  rfl

theorem unmark_eq_self_iff : d.unmark = d ↔ ∀ q ∈ d.nodes, q.negated = false := by
  have hrules := Predicate.unmark_eq_self_iff d.rules
  obtain ⟨id, types, conditions, rules, actions⟩ := d
  simp only [unmark, nodes, Definition.mk.injEq, true_and, and_true, List.mem_append, or_imp,
    forall_and, hrules]
  cases conditions with
  | none => simp
  | some p => simp [Predicate.unmark_eq_self_iff p, and_comm]

/-- **Reading the canonical form gives the definition with its marks spelled out**: it evaluates to
the same, it is the definition itself if and only if there are no marks, and it has the same
canonical form. The keys of the objects in a document are distinct. -/
theorem ofValue_toValue {v : Value} (hv : v.Distinct) (h : ofValue id v = .ok d) :
    ofValue id d.toValue = .ok d.unmark ∧
    (∀ values, d.unmark.rules.eval values = d.rules.eval values ∧
      d.unmark.conditions.map (·.eval values) = d.conditions.map (·.eval values)) ∧
    (d.unmark = d ↔ ∀ q ∈ d.nodes, q.negated = false) ∧
    d.unmark.toValue = d.toValue := by
  obtain ⟨hid, hd⟩ := accepted_ofValue hv h
  refine ⟨?_, fun values => ⟨Predicate.eval_unmark values d.rules, ?_⟩, unmark_eq_self_iff,
    hd.toValue_unmark⟩
  · rw [← hid]
    exact hd.read_toValue
  · show (d.conditions.map Predicate.unmark).map _ = _
    rw [Option.map_map]
    exact congrArg (fun f => d.conditions.map f)
      (funext fun p => Predicate.eval_unmark values p)

/-- A definition with two marks, for the things without a name that are twins of a given thing. -/
def sample : Value :=
  .object [("on", .object [("types", .array [.string "thing"])]),
    ("rules", .object [("negate", .bool true), ("or", .array [
      .object [("property", .string "names.first"), ("operator", .string "exists")],
      .object [("query", .string "twin.urn"), ("operation", .string "EQUALS"),
        ("others", .array [.string "urn:li:thing:1"]), ("negate", .bool true)]])])]

theorem ofValue_toValue_sample : sample.Distinct ∧ ∃ d, ofValue "twins" sample = .ok d ∧
    ofValue "twins" d.toValue = .ok d.unmark ∧ d.unmark ≠ d ∧ d.unmark.toValue = d.toValue := by
  have hv : sample.Distinct := by
    simp [sample, Value.Distinct, Json.DistinctFields, Json.DistinctItems]
  have hmarks : (ofValue "twins" sample).toOption.any (·.nodes.any (·.negated)) = true := by
    decide +kernel
  cases h : ofValue "twins" sample with
  | error e =>
    rw [h] at hmarks
    cases hmarks
  | ok d =>
    obtain ⟨hback, -, hself, hform⟩ := ofValue_toValue hv h
    refine ⟨hv, d, rfl, hback, fun heq => ?_, hform⟩
    rw [h] at hmarks
    obtain ⟨q, hq, hmark⟩ := List.any_eq_true.mp hmarks
    rw [hself.mp heq q hq] at hmark
    cases hmark

end Definition
end CatalogRules
