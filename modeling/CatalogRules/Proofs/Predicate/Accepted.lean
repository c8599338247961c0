import CatalogRules.Predicate.Check
import CatalogRules.Predicate.Eval
import Mathlib.Data.List.Basic
import Mathlib.Tactic.SplitIfs

/-! # Accepted predicates

An accepted predicate (`Predicate.Accepted`) is a leaf about a property with named lists of strings,
or a logical operator over accepted predicates; its operands are numbered from zero on and fit for
their operator. The truth value of a predicate depends on the values of its own paths only
(`eval_congr`), and an accepted predicate has one whatever these values are (`Accepted.eval_ok`):
the arguments of a checked node are of the types that its operator takes
(`accepts_of_checkOperands`, `evalOperands_ok`), and on such arguments no operator fails
(`applyOperator_ok`). -/

namespace CatalogRules

/-- The types of the operands of an operator. -/
def Arity.Accepts : Arity → List ValueType → Prop
  | .variadic, ts => ts ≠ [] ∧ ∀ t ∈ ts, t = .boolean
  | .unary type, ts => ts = [type]
  | .binary, ts => ts = [.strings, .strings]

/-- A result of two steps is a result of the second after one of the first. -/
theorem bind_eq_ok {ε α β : Type} {x : Except ε α} {f : α → Except ε β} {b : β} :
    x >>= f = .ok b ↔ ∃ a, x = .ok a ∧ f a = .ok b := by
  cases x <;> simp [bind, Except.bind]

theorem toOption_eq_some {ε α : Type} {x : Except ε α} {a : α} :
    x.toOption = some a ↔ x = .ok a := by
  cases x <;> simp [Except.toOption]

theorem toOption_bind {ε α β : Type} (x : Except ε α) (f : α → Except ε β) :
    (x >>= f).toOption = x.toOption.bind fun a => (f a).toOption := by
  cases x <;> rfl

namespace Predicate

/-! ### Checked operands -/

theorem checkCount_ok {P : Type} {op : Operator} {n : Nat} {xs : List (Operand P)} :
    checkCount op n xs = .ok () ↔ xs.length = n := by
  unfold checkCount
  split_ifs with h <;> simp [h]

theorem checkTypes_ok {P : Type} {op : Operator} {t : ValueType} {xs : List (Operand P)} :
    checkTypes op t xs = .ok () ↔ ∀ x ∈ xs, x.expression.type = t := by
  induction xs with
  | nil => simp [checkTypes]
  | cons x xs ih =>
    unfold checkTypes
    split_ifs with h <;> simp [h, ih]

variable [Pattern.Library]

/-- The operands of a checked node are of the types that its operator takes. -/
theorem accepts_of_checkOperands {P : Type} {op : Operator} {xs : List (Operand P)}
    (h : checkOperands op xs = .ok ()) : op.arity.Accepts (xs.map (·.expression.type)) := by
  unfold checkOperands at h
  cases ha : op.arity with
  | variadic =>
    rw [ha] at h
    dsimp only at h
    split_ifs at h with hne
    simpa [Arity.Accepts, hne] using checkTypes_ok.mp h
  | unary t =>
    rw [ha] at h
    obtain ⟨_, hl, ht⟩ := bind_eq_ok.mp h
    obtain ⟨x, rfl⟩ := List.length_eq_one_iff.mp (checkCount_ok.mp hl)
    simpa [Arity.Accepts] using checkTypes_ok.mp ht
  | binary =>
    rw [ha] at h
    obtain ⟨_, hl, h⟩ := bind_eq_ok.mp h
    obtain ⟨_, ht, -⟩ := bind_eq_ok.mp h
    obtain ⟨x, y, rfl⟩ := List.length_eq_two.mp (checkCount_ok.mp hl)
    simpa [Arity.Accepts] using checkTypes_ok.mp ht

/-! ### Evaluation -/

/-- The type of an argument. -/
def Argument.type : Argument → ValueType
  | .values _ => .strings
  | .truth _ => .boolean

omit [Pattern.Library] in
theorem truths_ok {op : Operator} {args : List Argument} (h : ∀ a ∈ args, a.type = .boolean) :
    ∃ bs, truths op args = .ok bs ∧ bs.length = args.length := by
  induction args with
  | nil => exact ⟨[], rfl, rfl⟩
  | cons a args ih =>
    obtain ⟨bs, hbs, hl⟩ := ih fun x hx => h x (List.mem_cons_of_mem _ hx)
    cases a with
    | values vs => exact absurd (h _ List.mem_cons_self) (by simp [Argument.type])
    | truth b => exact ⟨b :: bs, by simp [truths, hbs, bind, Except.bind], by simp [hl]⟩

omit [Pattern.Library] in
theorem unary_ok {op : Operator} {args : List Argument}
    (h : args.map Argument.type = [.strings]) : ∃ vs, unary op args = .ok vs := by
  match args, h with
  | [.values vs], _ => exact ⟨vs, rfl⟩

omit [Pattern.Library] in
theorem binary_ok {op : Operator} {args : List Argument}
    (h : args.map Argument.type = [.strings, .strings]) : ∃ lr, binary op args = .ok lr := by
  match args, h with
  | [.values l, .values r], _ => exact ⟨(l, r), rfl⟩

/-- On arguments of the types that it takes no operator fails. -/
theorem applyOperator_ok {op : Operator} {args : List Argument}
    (h : op.arity.Accepts (args.map Argument.type)) : ∃ b, applyOperator op args = .ok b := by
  have hvariadic : op.arity = .variadic → ∃ bs, truths op args = .ok bs := by
    intro ha
    rw [ha] at h
    obtain ⟨bs, hbs, -⟩ := @truths_ok op args (by simpa using h.2)
    exact ⟨bs, hbs⟩
  have hunary : op.arity = .unary .strings → ∃ vs, unary op args = .ok vs := by
    intro ha
    rw [ha] at h
    exact unary_ok h
  have hbinary : op.arity = .binary → ∃ lr, binary op args = .ok lr := by
    intro ha
    rw [ha] at h
    exact binary_ok h
  cases op with
  | and | or =>
    obtain ⟨bs, hbs⟩ := hvariadic rfl
    exact ⟨_, by rw [applyOperator, hbs]; rfl⟩
  | not =>
    match args, h with
    | [.truth b], _ => exact ⟨!b, rfl⟩
  | «exists» | isTrue | isFalse =>
    obtain ⟨vs, hvs⟩ := hunary rfl
    exact ⟨_, by rw [applyOperator, hvs]; rfl⟩
  | anyEquals | containsAny | containsStr | startsWith | regexMatch | greaterThan | lessThan =>
    obtain ⟨lr, hlr⟩ := hbinary rfl
    exact ⟨_, by rw [applyOperator, hlr]; rfl⟩

/-- The arguments have the types of the operands. -/
theorem evalOperands_ok {v : Valuation} {xs : List (Operand Predicate)}
    (h : ∀ x ∈ xs, ∀ q, x.expression = .nested q → ∃ b, q.eval v = .ok b) :
    ∃ args, evalOperands v xs = .ok args ∧
      args.map Argument.type = xs.map (·.expression.type) := by
  induction xs with
  | nil => exact ⟨[], rfl, rfl⟩
  | cons x xs ih =>
    obtain ⟨args, hargs, ht⟩ := ih fun y hy => h y (List.mem_cons_of_mem _ hy)
    obtain ⟨i, name, e⟩ := x
    cases e with
    | property path =>
      exact ⟨.values (v path) :: args, by simp [evalOperands, hargs, bind, Except.bind],
        by simp [ht, Argument.type, Expression.type]⟩
    | strings vs =>
      exact ⟨.values vs :: args, by simp [evalOperands, hargs, bind, Except.bind],
        by simp [ht, Argument.type, Expression.type]⟩
    | nested q =>
      obtain ⟨b, hb⟩ := h _ List.mem_cons_self q rfl
      exact ⟨.truth b :: args, by simp [evalOperands, hargs, hb, bind, Except.bind],
        by simp [ht, Argument.type, Expression.type]⟩

/-- A checked node has a truth value if the predicates below it have. -/
theorem eval_ok_of_checkOperands {v : Valuation} {op : Operator} {xs : List (Operand Predicate)}
    {n : Bool} (hc : checkOperands op xs = .ok ())
    (h : ∀ x ∈ xs, ∀ q, x.expression = .nested q → ∃ b, q.eval v = .ok b) :
    ∃ b, (Predicate.node op xs n).eval v = .ok b := by
  obtain ⟨args, hargs, ht⟩ := evalOperands_ok h
  obtain ⟨b, hb⟩ := applyOperator_ok (by rw [ht]; exact accepts_of_checkOperands hc)
  exact ⟨b != n, by simp [eval, hargs, hb, bind, Except.bind]⟩

mutual

/-- The truth value of a predicate depends on the values of its paths only. -/
theorem eval_congr {v w : Valuation} : ∀ (p : Predicate), (∀ path ∈ p.paths, v path = w path) →
    p.eval v = p.eval w
  | .node op xs n, h => by
    rw [eval, eval, evalOperands_congr xs h]

theorem evalOperands_congr {v w : Valuation} : ∀ (xs : List (Operand Predicate)),
    (∀ path ∈ operandPaths xs, v path = w path) → evalOperands v xs = evalOperands w xs
  | [], _ => rfl
  | ⟨_, _, .property path⟩ :: xs, h => by
    simp only [operandPaths, List.mem_cons, forall_eq_or_imp] at h
    simp only [evalOperands, h.1, evalOperands_congr xs h.2]
  | ⟨_, _, .strings vs⟩ :: xs, h => by
    simp only [evalOperands, evalOperands_congr xs h]
  | ⟨_, _, .nested p⟩ :: xs, h => by
    simp only [operandPaths, List.mem_append] at h
    simp only [evalOperands, eval_congr p fun path hp => h path (Or.inl hp),
      evalOperands_congr xs fun path hp => h path (Or.inr hp)]

end

/-! ### Accepted predicates -/

/-- Operands with literal values, with indices from `i` on. -/
def literals (i : Nat) : List (String × List String) → List (Operand Predicate)
  | [] => []
  | (name, vs) :: params => ⟨i, some name, .strings vs⟩ :: literals (i + 1) params

/-- The operands of a leaf: its property and its parameters. -/
def leafOperands (path : String) (params : List (String × List String)) :
    List (Operand Predicate) :=
  ⟨0, some propertyName, .property path⟩ :: literals 1 params

/-- **A leaf about a property, or a logical operator over accepted predicates.** -/
inductive Accepted : Predicate → Prop
  | leaf {op : Operator} {path : String} {params : List (String × List String)} {n : Bool}
    (nonempty : path ≠ "") (distinct : (params.map (·.1)).Nodup)
    (fit : checkOperands op (leafOperands path params) = .ok ()) :
    Accepted (.node op (leafOperands path params) n)
  | logical {op : Operator} {ps : List Predicate} {n : Bool}
    (fit : checkOperands op (compose op ps).operands = .ok ())
    (below : ∀ p ∈ ps, Accepted p) : Accepted (.node op (compose op ps).operands n)

omit [Pattern.Library] in
theorem mem_literals {x : Operand Predicate} : ∀ {i : Nat} {params : List (String × List String)},
    x ∈ literals i params → ∃ vs, x.expression = .strings vs
  | _, [], h => by simp [literals] at h
  | i, (name, vs) :: params, h => by
    rcases List.mem_cons.mp h with rfl | h
    · exact ⟨vs, rfl⟩
    · exact mem_literals h

omit [Pattern.Library] in
theorem mem_compose {op : Operator} {ps : List Predicate} {x : Operand Predicate}
    (h : x ∈ (compose op ps).operands) : ∃ p ∈ ps, x.expression = .nested p := by
  obtain ⟨i, hi, rfl⟩ := List.mem_mapIdx.mp h
  exact ⟨ps[i], List.getElem_mem hi, rfl⟩

namespace Accepted

/-- **An accepted predicate has a truth value, whatever the values of its paths are.** -/
theorem eval_ok {p : Predicate} (h : Accepted p) (v : Valuation) : ∃ b, p.eval v = .ok b := by
  induction h with
  | leaf nonempty distinct fit =>
    refine eval_ok_of_checkOperands fit fun x hx q hq => ?_
    rcases List.mem_cons.mp hx with rfl | hx
    · cases hq
    · obtain ⟨vs, hvs⟩ := mem_literals hx
      rw [hvs] at hq
      cases hq
  | logical fit below ih =>
    refine eval_ok_of_checkOperands fit fun x hx q hq => ?_
    obtain ⟨p, hp, he⟩ := mem_compose hx
    rw [he] at hq
    cases hq
    exact ih _ hp

/-- A mark does not matter for acceptance. -/
theorem negate {p : Predicate} (h : Accepted p) : Accepted p.negate := by
  cases h with
  | leaf nonempty distinct fit => exact .leaf nonempty distinct fit
  | logical fit below => exact .logical fit below

end Accepted
end Predicate
end CatalogRules
