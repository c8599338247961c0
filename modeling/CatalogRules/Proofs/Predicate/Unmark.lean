import CatalogRules.Definition.Canonical
import CatalogRules.Proofs.Collections
import CatalogRules.Proofs.Predicate.Accepted

/-! # Marks spelled out

`Predicate.unmark` puts a negation of its own in the place of each mark, at every depth. It does not
change the truth value of a predicate (`eval_unmark`) and leaves exactly the predicates without
marks as they are (`unmark_eq_self_iff`). The written form of an accepted predicate does not tell
marks from negations (`toValue_unmark`). -/

namespace CatalogRules.Predicate

open Json (Value)

mutual

/-- The predicate with a negation in place of each mark. -/
def unmark : Predicate → Predicate
  | .node op xs negated =>
    if negated then not (.node op (unmarkOperands xs) false)
    else .node op (unmarkOperands xs) false

/-- The operands with a negation in place of each mark. -/
def unmarkOperands : List (Operand Predicate) → List (Operand Predicate)
  | [] => []
  | ⟨i, name, .property path⟩ :: xs => ⟨i, name, .property path⟩ :: unmarkOperands xs
  | ⟨i, name, .strings vs⟩ :: xs => ⟨i, name, .strings vs⟩ :: unmarkOperands xs
  | ⟨i, name, .nested p⟩ :: xs => ⟨i, name, .nested (unmark p)⟩ :: unmarkOperands xs

end

/-! ### Truth values -/

section
variable [Pattern.Library]

theorem eval_not (p : Predicate) (v : Valuation) :
    p.not.eval v = p.eval v >>= fun b => .ok (!b) := by
  have h : p.not.eval v = evalOperands v [⟨0, none, .nested p⟩] >>= fun args =>
      applyOperator Operator.not args >>= fun b => .ok (b != false) := rfl
  rw [h, evalOperands]
  cases p.eval v with
  | error e => rfl
  | ok b => cases b <;> rfl

mutual

/-- **Spelling marks out does not change the truth value.** -/
theorem eval_unmark (v : Valuation) : ∀ p : Predicate, p.unmark.eval v = p.eval v
  | .node op xs negated => by
    have hxs := evalOperands_unmark v xs
    cases negated with
    | false =>
      rw [unmark, if_neg Bool.false_ne_true, eval, eval, hxs]
    | true =>
      rw [unmark, if_pos rfl, eval_not, eval, eval, hxs]
      cases evalOperands v xs with
      | error e => rfl
      | ok args =>
        simp only [bind, Except.bind]
        cases applyOperator op args with
        | error e => rfl
        | ok b => cases b <;> rfl

theorem evalOperands_unmark (v : Valuation) : ∀ xs : List (Operand Predicate),
    evalOperands v (unmarkOperands xs) = evalOperands v xs
  | [] => rfl
  | ⟨_, _, .property path⟩ :: xs => by
    rw [unmarkOperands, evalOperands, evalOperands, evalOperands_unmark v xs]
  | ⟨_, _, .strings vs⟩ :: xs => by
    rw [unmarkOperands, evalOperands, evalOperands, evalOperands_unmark v xs]
  | ⟨_, _, .nested p⟩ :: xs => by
    rw [unmarkOperands, evalOperands, evalOperands, eval_unmark v p, evalOperands_unmark v xs]

end

end

/-! ### Predicates without marks -/

mutual

/-- **Exactly the predicates without marks stay as they are.** -/
theorem unmark_eq_self_iff : ∀ p : Predicate, p.unmark = p ↔ ∀ q ∈ p.nodes, q.negated = false
  | .node op xs n => by
    have hxs := unmarkOperands_eq_self_iff xs
    cases n with
    | false =>
      rw [unmark, if_neg Bool.false_ne_true, nodes, List.forall_mem_cons, node.injEq]
      simpa [negated] using hxs
    | true =>
      have hne : (Predicate.node op (unmarkOperands xs) false).not ≠ .node op xs true := by
        intro h
        exact Bool.false_ne_true (congrArg negated h)
      rw [unmark, if_pos rfl, nodes, List.forall_mem_cons]
      simp [hne, negated]

theorem unmarkOperands_eq_self_iff : ∀ xs : List (Operand Predicate),
    unmarkOperands xs = xs ↔ ∀ q ∈ operandNodes xs, q.negated = false
  | [] => by simp [unmarkOperands, operandNodes]
  | ⟨_, _, .property path⟩ :: xs => by
    simp [unmarkOperands, operandNodes, unmarkOperands_eq_self_iff xs]
  | ⟨_, _, .strings vs⟩ :: xs => by
    simp [unmarkOperands, operandNodes, unmarkOperands_eq_self_iff xs]
  | ⟨_, _, .nested p⟩ :: xs => by
    simp [unmarkOperands, operandNodes, unmark_eq_self_iff p, unmarkOperands_eq_self_iff xs,
      or_imp, forall_and]

end

theorem unmarkOperands_literals : ∀ (i : Nat) (params : List (String × List String)),
    unmarkOperands (literals i params) = literals i params
  | _, [] => rfl
  | i, (name, vs) :: params => by
    rw [literals, unmarkOperands, unmarkOperands_literals (i + 1) params]

theorem unmarkOperands_leafOperands (path : String) (params : List (String × List String)) :
    unmarkOperands (leafOperands path params) = leafOperands path params := by
  rw [leafOperands, unmarkOperands, unmarkOperands_literals]

theorem unmarkOperands_compose (op : Operator) (ps : List Predicate) :
    unmarkOperands (compose op ps).operands = (compose op (ps.map unmark)).operands := by
  have h : ∀ (ps : List Predicate) (f : Nat → Nat),
      unmarkOperands (ps.mapIdx fun i p => ⟨f i, none, .nested p⟩) =
        (ps.map unmark).mapIdx fun i p => ⟨f i, none, .nested p⟩ := by
    intro ps
    induction ps with
    | nil => intro f; rfl
    | cons p ps ih =>
      intro f
      rw [List.mapIdx_cons, unmarkOperands, ih fun i => f (i + 1), List.map_cons, List.mapIdx_cons]
  exact h ps id

/-! ### Written forms -/

/-- The written form of a node, given the written form that it has without its mark. -/
def marked (negated : Bool) (v : Value) : Value := if negated then .object [("not", v)] else v

theorem toValue_node (op : Operator) (xs : List (Operand Predicate)) (n : Bool) :
    (Predicate.node op xs n).toValue = marked n (Predicate.node op xs false).toValue := by
  cases n <;> rfl

theorem toValue_unmark_node (op : Operator) (xs : List (Operand Predicate)) (n : Bool) :
    (Predicate.node op xs n).unmark.toValue =
      marked n (Predicate.node op (unmarkOperands xs) false).toValue := by
  cases n <;> rfl

/-- The operand is the property that a leaf is about. -/
def isSubject (x : Operand Predicate) : Bool :=
  match x.expression with
  | .property _ => x.index == 0
  | _ => false

/-- The parameters of a leaf in written form, given its operands. -/
def paramsForm (xs : List (Operand Predicate × Value)) : List (String × Value) :=
  xs.foldl (fun m e => if isSubject e.1 then m else Keyed.put (paramName e.1) e.2 m) []

theorem leafForm_eq (op : Operator) (xs : List (Operand Predicate × Value)) :
    leafForm op xs = .object (Keyed.put "operator" (.string op.commonName)
      (xs.foldl (fun m e => if isSubject e.1 then Keyed.put "property" e.2 m else m) []) ++
        if paramsForm xs = [] then [] else [("params", .object (paramsForm xs))]) := rfl

theorem map_operandValues_compose (op : Operator) (ps : List Predicate) :
    (operandValues (compose op ps).operands).map (·.2) = ps.map toValue := by
  have h : ∀ (ps : List Predicate) (f : Nat → Nat),
      (operandValues (ps.mapIdx fun i p => ⟨f i, none, .nested p⟩)).map (·.2) =
        ps.map toValue := by
    intro ps
    induction ps with
    | nil => intro f; rfl
    | cons p ps ih =>
      intro f
      rw [List.mapIdx_cons, operandValues, List.map_cons, List.map_cons, ih fun i => f (i + 1)]
  exact h ps id

theorem toValue_list {op : Operator} (hop : op = .and ∨ op = .or) (ps : List Predicate) :
    (Predicate.node op (compose op ps).operands false).toValue =
      .object [(op.commonName, .array (ps.map toValue))] := by
  rcases hop with rfl | rfl
  all_goals
    rw [← map_operandValues_compose]
    rfl

theorem toValue_not (p : Predicate) :
    (Predicate.node .not (compose .not [p]).operands false).toValue =
      .object [("not", p.toValue)] := rfl

/-! ### Accepted predicates -/

theorem types_compose (op : Operator) (ps : List Predicate) :
    (compose op ps).operands.map (·.expression.type) = List.replicate ps.length .boolean := by
  refine List.eq_replicate_iff.mpr ⟨by simp [compose, operands], fun t ht => ?_⟩
  obtain ⟨x, hx, rfl⟩ := List.mem_map.mp ht
  obtain ⟨p, -, he⟩ := mem_compose hx
  rw [he]
  rfl

variable [Pattern.Library]

/-- The operator of a leaf is not logical. -/
theorem isLogical_of_leaf {op : Operator} {path : String} {params : List (String × List String)}
    (h : checkOperands op (leafOperands path params) = .ok ()) : op.isLogical = false := by
  have haccepts := accepts_of_checkOperands h
  cases op with
  | and | or =>
    have := haccepts.2 .strings List.mem_cons_self
    cases this
  | not =>
    have := (List.cons.inj haccepts).1
    cases this
  | _ => rfl

/-- A logical node is a conjunction, a disjunction, or the negation of a single predicate. -/
theorem logical_of_compose {op : Operator} {ps : List Predicate}
    (h : checkOperands op (compose op ps).operands = .ok ()) :
    (op = .and ∨ op = .or) ∧ ps ≠ [] ∨ op = .not ∧ ∃ p, ps = [p] := by
  have haccepts := accepts_of_checkOperands h
  rw [types_compose] at haccepts
  cases ha : op.arity with
  | variadic =>
    rw [ha] at haccepts
    refine Or.inl ⟨by cases op <;> simp [Operator.arity] at ha ⊢, ?_⟩
    rintro rfl
    exact haccepts.1 rfl
  | unary t =>
    rw [ha] at haccepts
    have hl : ps.length = 1 := by simpa using congrArg List.length haccepts
    obtain ⟨p, rfl⟩ := List.length_eq_one_iff.mp hl
    have ht := (List.cons.inj haccepts).1
    refine Or.inr ⟨?_, p, rfl⟩
    cases op <;> simp [Operator.arity] at ha ⊢ <;> (rw [← ha] at ht; cases ht)
  | binary =>
    rw [ha] at haccepts
    have hl : ps.length = 2 := by simpa using congrArg List.length haccepts
    obtain ⟨p, q, rfl⟩ := List.length_eq_two.mp hl
    have ht := (List.cons.inj haccepts).1
    cases ht

/-- **The written form does not tell marks from negations.** -/
theorem Accepted.toValue_unmark {p : Predicate} (h : p.Accepted) :
    p.unmark.toValue = p.toValue := by
  induction h with
  | @leaf op path params n _ _ _ =>
    rw [toValue_unmark_node, toValue_node op (leafOperands path params) n,
      unmarkOperands_leafOperands]
  | @logical op ps n fit below ih =>
    rw [toValue_unmark_node, toValue_node op (compose op ps).operands n, unmarkOperands_compose]
    refine congrArg (marked n) ?_
    have hps : (ps.map unmark).map toValue = ps.map toValue := by
      rw [List.map_map]
      exact List.map_congr_left ih
    rcases logical_of_compose fit with ⟨hop, -⟩ | ⟨rfl, p, rfl⟩
    · rw [toValue_list hop, toValue_list hop, hps]
    · rw [List.map_singleton, toValue_not, toValue_not, ih p List.mem_cons_self]

end CatalogRules.Predicate
