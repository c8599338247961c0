import CatalogRules.Proofs.Predicate.Meaning

/-! # What the written form of a predicate says

A predicate that was not read may have operands in any place, with any indices and names. Its
written form says less: a leaf is about the property with index zero, and everything else becomes a
parameter with literal values, a second property by its path. `Predicate.reread` is the predicate
that the written form says. It is there to be read if every leaf is legible (`Predicate.Legible`),
and it has the truth value of the predicate if every leaf is also faithful (`Predicate.Faithful`,
`Checked.eval_reread`): it compares its property with literals only, and the property comes first
unless the operator is symmetric.

Predicates whose nodes are fit for their operators are gone through by `Predicate.Checked`. -/

namespace CatalogRules

open Json (Value)

/-- The texts that stand for an operand of a leaf in written form. -/
def Expression.texts {P : Type} : Expression P → List String
  | .property path => [path]
  | .strings values => values
  | .nested _ => []

/-- An operator for which the order of two operands does not matter. -/
def Operator.Symmetric (op : Operator) : Prop := op = .anyEquals ∨ op = .containsAny

namespace Predicate

/-! ### Checked predicates -/

/-- Every node is fit for its operator: a leaf over values, a logical operator over predicates. -/
inductive Checked : Predicate → Prop
  | leaf {op : Operator} {xs : List (Operand Predicate)} {n : Bool}
    (kind : op.isLogical = false) (fit : checkOperands op xs = .ok ()) :
    Checked (.node op xs n)
  | logical {op : Operator} {xs : List (Operand Predicate)} {ps : List Predicate} {n : Bool}
    (kind : op.isLogical = true) (fit : checkOperands op xs = .ok ())
    (operands : xs.map (·.expression) = ps.map .nested) (below : ∀ p ∈ ps, Checked p) :
    Checked (.node op xs n)

/-- The operands of a logical operator are predicates. -/
theorem exists_nested {op : Operator} {xs : List (Operand Predicate)} (kind : op.isLogical = true)
    (fit : checkOperands op xs = .ok ()) :
    ∃ ps : List Predicate, xs.map (·.expression) = ps.map .nested := by
  have htypes : ∀ x ∈ xs, x.expression.type = .boolean := by
    have haccepts := accepts_of_checkOperands fit
    intro x hx
    cases op with
    | and | or => exact haccepts.2 _ (List.mem_map_of_mem hx)
    | not =>
      have hmem : x.expression.type ∈ [ValueType.boolean] := haccepts ▸ List.mem_map_of_mem hx
      simpa using hmem
    | _ => cases kind
  clear fit
  induction xs with
  | nil => exact ⟨[], rfl⟩
  | cons x xs ih =>
    obtain ⟨ps, hps⟩ := ih fun y hy => htypes y (List.mem_cons_of_mem _ hy)
    have hx := htypes x List.mem_cons_self
    obtain ⟨i, name, e⟩ := x
    cases e with
    | property _ => cases hx
    | strings _ => cases hx
    | nested p => exact ⟨p :: ps, congrArg (_ :: ·) hps⟩

mutual

theorem Checked.of_nodes : ∀ p : Predicate, (∀ q ∈ p.nodes, q.check = .ok ()) → p.Checked
  | .node op xs n, h => by
    have fit : checkOperands op xs = .ok () := h _ List.mem_cons_self
    cases kind : op.isLogical with
    | false => exact .leaf kind fit
    | true =>
      obtain ⟨ps, hps⟩ := exists_nested kind fit
      refine .logical kind fit hps fun p hp => ?_
      have hmem : Expression.nested p ∈ xs.map (·.expression) := hps ▸ List.mem_map_of_mem hp
      exact Checked.of_operandNodes xs (fun q hq => h q (List.mem_cons_of_mem _ hq)) p hmem

theorem Checked.of_operandNodes : ∀ xs : List (Operand Predicate),
    (∀ q ∈ operandNodes xs, q.check = .ok ()) →
      ∀ p, Expression.nested p ∈ xs.map (·.expression) → p.Checked
  | [], _, _, hp => by cases hp
  | ⟨_, _, .property _⟩ :: xs, h, p, hp => by
    rcases List.mem_cons.mp hp with hp | hp
    · cases hp
    · exact Checked.of_operandNodes xs h p hp
  | ⟨_, _, .strings _⟩ :: xs, h, p, hp => by
    rcases List.mem_cons.mp hp with hp | hp
    · cases hp
    · exact Checked.of_operandNodes xs h p hp
  | ⟨_, _, .nested q⟩ :: xs, h, p, hp => by
    rcases List.mem_cons.mp hp with hp | hp
    · cases hp
      exact Checked.of_nodes q fun r hr => h r (List.mem_append_left _ hr)
    · exact Checked.of_operandNodes xs (fun r hr => h r (List.mem_append_right _ hr)) p hp

end

/-- The nodes below a logical operator. -/
theorem operandNodes_nested : ∀ {xs : List (Operand Predicate)} {ps : List Predicate},
    xs.map (·.expression) = ps.map .nested → operandNodes xs = ps.flatMap nodes
  | [], [], _ => rfl
  | ⟨_, _, .nested q⟩ :: xs, p :: ps, h => by
    obtain ⟨hq, hxs⟩ := List.cons.inj h
    cases hq
    rw [operandNodes, operandNodes_nested hxs, List.flatMap_cons]
  | ⟨_, _, .property _⟩ :: _, _ :: _, h => by cases (List.cons.inj h).1
  | ⟨_, _, .strings _⟩ :: _, _ :: _, h => by cases (List.cons.inj h).1

/-- There are no nodes among values. -/
theorem operandNodes_values : ∀ {xs : List (Operand Predicate)},
    (∀ x ∈ xs, x.expression.type = .strings) → operandNodes xs = []
  | [], _ => rfl
  | ⟨_, _, .property _⟩ :: xs, h => by
    rw [operandNodes]
    exact operandNodes_values (List.forall_mem_cons.mp h).2
  | ⟨_, _, .strings _⟩ :: xs, h => by
    rw [operandNodes]
    exact operandNodes_values (List.forall_mem_cons.mp h).2
  | ⟨_, _, .nested _⟩ :: _, h => by cases (List.forall_mem_cons.mp h).1

/-! ### Leaves in written form -/

/-- The paths of the properties with index zero. -/
def subjects (xs : List (Operand Predicate)) : List String :=
  (xs.filter isSubject).flatMap (·.expression.texts)

/-- The operands that become parameters. -/
def rest (xs : List (Operand Predicate)) : List (Operand Predicate) :=
  xs.filter fun x => !isSubject x

/-- The parameters of a leaf: the names and texts of all operands but the properties with index
zero. -/
def params (xs : List (Operand Predicate)) : List (String × List String) :=
  Keyed.ofPairs ((rest xs).map fun x => (paramName x, x.expression.texts))

mutual

/-- The predicate that the written form says. -/
def reread : Predicate → Predicate
  | .node op xs negated =>
    let p := if op.isLogical then compose op (rereadOperands xs)
      else .node op (leafOperands ((subjects xs).getLastD "") (params xs)) false
    if negated then p.not else p

/-- The predicates that the written forms of some operands say. -/
def rereadOperands : List (Operand Predicate) → List Predicate
  | [] => []
  | ⟨_, _, .nested p⟩ :: xs => reread p :: rereadOperands xs
  | ⟨_, _, .property _⟩ :: xs => rereadOperands xs
  | ⟨_, _, .strings _⟩ :: xs => rereadOperands xs

end

/-- A leaf is about a single property with index zero, which has a path, and as patterns its other
operand can be read. -/
structure Legible (p : Predicate) : Prop where
  about : ∃ path, path ≠ "" ∧ subjects p.operands = [path]
  patterns : p.operator = .regexMatch → ∀ e ∈ params p.operands, checkPatterns e.2 = .ok ()

/-- A leaf compares a single property with index zero, which has a path, with literals; the property
comes first unless the order does not matter. -/
structure Faithful (p : Predicate) : Prop where
  about : ∃ path, path ≠ "" ∧ subjects p.operands = [path]
  literal : ∀ x ∈ rest p.operands, ∃ values, x.expression = .strings values
  first : p.operator.Symmetric ∨ ∃ x xs, p.operands = x :: xs ∧ isSubject x = true

/-- A leaf is over values. -/
theorem type_of_leaf {op : Operator} {xs : List (Operand Predicate)} (kind : op.isLogical = false)
    (fit : checkOperands op xs = .ok ()) : ∀ x ∈ xs, x.expression.type = .strings := by
  have haccepts := accepts_of_checkOperands fit
  intro x hx
  have hmem : x.expression.type ∈ xs.map (·.expression.type) := List.mem_map_of_mem hx
  cases op with
  | and | or | not => cases kind
  | _ =>
    rw [show xs.map (·.expression.type) = _ from haccepts] at hmem
    simpa using hmem

theorem exists_of_isSubject {x : Operand Predicate} (h : isSubject x = true) :
    ∃ path, x.expression = .property path ∧ x.index = 0 := by
  obtain ⟨i, name, e⟩ := x
  cases e with
  | property path => exact ⟨path, rfl, by simpa [isSubject] using h⟩
  | strings _ => cases h
  | nested _ => cases h

section

variable {x : Operand Predicate} {path : String}

theorem subjects_cons (h : isSubject x = true) (hpath : x.expression = .property path)
    (xs : List (Operand Predicate)) : subjects (x :: xs) = path :: subjects xs := by
  rw [subjects, List.filter_cons_of_pos h, List.flatMap_cons, hpath]
  rfl

theorem subjects_cons_of_not (h : isSubject x = false) (xs : List (Operand Predicate)) :
    subjects (x :: xs) = subjects xs := by
  rw [subjects, List.filter_cons_of_neg (by rw [h]; decide), subjects]

theorem rest_cons (h : isSubject x = true) (xs : List (Operand Predicate)) :
    rest (x :: xs) = rest xs :=
  List.filter_cons_of_neg (by rw [h]; decide)

theorem rest_cons_of_not (h : isSubject x = false) (xs : List (Operand Predicate)) :
    rest (x :: xs) = x :: rest xs :=
  List.filter_cons_of_pos (by rw [h]; rfl)

end

/-- Every operand is among the subjects or among the rest. -/
theorem length_subjects_add_rest (xs : List (Operand Predicate)) :
    (subjects xs).length + (rest xs).length = xs.length := by
  induction xs with
  | nil => rfl
  | cons x xs ih =>
    cases hx : isSubject x with
    | true =>
      obtain ⟨path, hpath, -⟩ := exists_of_isSubject hx
      rw [subjects_cons hx hpath, rest_cons hx, List.length_cons, List.length_cons, ← ih]
      omega
    | false =>
      rw [subjects_cons_of_not hx, rest_cons_of_not hx, List.length_cons, List.length_cons, ← ih]
      rfl

/-- A check before another step. -/
theorem check_bind_ok {ε α : Type} {x : Except ε Unit} {f : Unit → Except ε α} {a : α} :
    x >>= f = .ok a ↔ x = .ok () ∧ f () = .ok a := by
  rw [bind_eq_ok]
  exact ⟨fun ⟨_, hx, hf⟩ => ⟨hx, hf⟩, fun ⟨hx, hf⟩ => ⟨(), hx, hf⟩⟩

/-- When operands with values are fit for the operator of a leaf. -/
theorem checkOperands_values {op : Operator} {xs : List (Operand Predicate)}
    (kind : op.isLogical = false) (htypes : ∀ x ∈ xs, x.expression.type = .strings) :
    checkOperands op xs = .ok () ↔
      (op.arity = .unary .strings ∧ xs.length = 1 ∨ op.arity = .binary ∧ xs.length = 2) ∧
        (op = .regexMatch → checkPatterns (patternsOf xs) = .ok ()) := by
  have hstrings : checkTypes op .strings xs = .ok () := checkTypes_ok.mpr htypes
  unfold checkOperands
  cases op with
  | and | or | not => cases kind
  | regexMatch =>
    simp only [Operator.arity, check_bind_ok, checkCount_ok, hstrings]
    simp
  | _ =>
    simp only [Operator.arity, check_bind_ok, checkCount_ok, hstrings]
    simp

theorem length_literals : ∀ (i : Nat) (ps : List (String × List String)),
    (literals i ps).length = ps.length
  | _, [] => rfl
  | i, (_, _) :: ps => congrArg (· + 1) (length_literals (i + 1) ps)

/-- When a property and some parameters are fit for the operator of a leaf. -/
theorem checkOperands_leafOperands {op : Operator} (kind : op.isLogical = false) (path : String)
    (ps : List (String × List String)) : checkOperands op (leafOperands path ps) = .ok () ↔
      (op.arity = .unary .strings ∧ ps = [] ∨ op.arity = .binary ∧ ∃ e, ps = [e]) ∧
        (op = .regexMatch → ∀ e ∈ ps, checkPatterns e.2 = .ok ()) := by
  have htypes : ∀ x ∈ leafOperands path ps, x.expression.type = .strings := by
    refine List.forall_mem_cons.mpr ⟨rfl, fun x hx => ?_⟩
    obtain ⟨values, hvalues⟩ := mem_literals hx
    rw [hvalues]
    rfl
  have hlength : (leafOperands path ps).length = ps.length + 1 :=
    congrArg (· + 1) (length_literals 1 ps)
  rw [checkOperands_values kind htypes, hlength]
  rcases ps with _ | ⟨e, _ | ⟨e', ps⟩⟩
  · simp [patternsOf, leafOperands, literals, checkPatterns]
  · simp [patternsOf, leafOperands, literals]
  · simp

/-- A leaf of an operator is legible exactly if its written form, a property and parameters, is fit
for the operator. -/
theorem legible_iff {op : Operator} {xs : List (Operand Predicate)} {n : Bool}
    (kind : op.isLogical = false) (fit : checkOperands op xs = .ok ()) :
    (Predicate.node op xs n).Legible ↔ ∃ path, (subjects xs).getLast? = some path ∧ path ≠ "" ∧
      checkOperands op (leafOperands path (params xs)) = .ok () := by
  have hcount := ((checkOperands_values kind (type_of_leaf kind fit)).mp fit).1
  have hsplit := length_subjects_add_rest xs
  constructor
  · rintro ⟨⟨path, hpath, hsubjects⟩, hpatterns⟩
    have hsubjects : subjects xs = [path] := hsubjects
    rw [hsubjects, List.length_singleton] at hsplit
    refine ⟨path, by rw [hsubjects]; rfl, hpath,
      (checkOperands_leafOperands kind path _).mpr ⟨?_, hpatterns⟩⟩
    rcases hcount with ⟨harity, hone⟩ | ⟨harity, htwo⟩
    · have hrest : rest xs = [] := List.eq_nil_of_length_eq_zero (by omega)
      exact Or.inl ⟨harity, by rw [params, hrest]; rfl⟩
    · obtain ⟨x, hrest⟩ := List.length_eq_one_iff.mp (show (rest xs).length = 1 by omega)
      exact Or.inr ⟨harity, _, by rw [params, hrest]; rfl⟩
  · rintro ⟨path, hlast, hpath, hfit⟩
    obtain ⟨hparams, hpatterns⟩ := (checkOperands_leafOperands kind path _).mp hfit
    have hsome : 0 < (subjects xs).length := List.length_pos_of_mem (List.mem_of_getLast? hlast)
    -- next to a parameter there is no second subject
    have hone : (subjects xs).length = 1 := by
      rcases hcount with ⟨harity, hone⟩ | ⟨harity, htwo⟩
      · omega
      · rcases hparams with ⟨hunary, -⟩ | ⟨-, e, he⟩
        · rw [harity] at hunary
          cases hunary
        · have hrest : 0 < (rest xs).length := by
            refine List.length_pos_iff.mpr fun hnil => ?_
            rw [params, hnil] at he
            cases he
          omega
    obtain ⟨s, hs⟩ := List.length_eq_one_iff.mp hone
    rw [hs] at hlast
    cases hlast
    exact ⟨⟨s, hpath, hs⟩, hpatterns⟩

/-! ### Truth values -/

/-- The order of two lists of values does not matter to a symmetric operator. -/
theorem applyOperator_swap {op : Operator} (h : op.Symmetric) (left right : List String) :
    applyOperator op [.values left, .values right] =
      applyOperator op [.values right, .values left] := by
  have harity : op.arity = .binary := by rcases h with rfl | rfl <;> rfl
  obtain ⟨b, hb, hiff⟩ := applyOperator_binary harity left right
  obtain ⟨b', hb', hiff'⟩ := applyOperator_binary harity right left
  have hswap : (∃ s ∈ nonempties left, ∃ t ∈ nonempties right, op.Relates s t) ↔
      ∃ s ∈ nonempties right, ∃ t ∈ nonempties left, op.Relates s t := by
    rcases h with rfl | rfl
    all_goals
      constructor
      all_goals
        rintro ⟨s, hs, t, ht, rfl⟩
        exact ⟨s, ht, s, hs, rfl⟩
  rw [hb, hb', Bool.eq_iff_iff.mpr (hiff.trans (hswap.trans hiff'.symm))]

/-- Indices and names do not matter to the truth value. -/
theorem evalOperands_expressions {v : Valuation} : ∀ {xs ys : List (Operand Predicate)},
    xs.map (·.expression) = ys.map (·.expression) → evalOperands v xs = evalOperands v ys
  | [], [], _ => rfl
  | ⟨_, _, e⟩ :: xs, ⟨_, _, e'⟩ :: ys, h => by
    obtain ⟨he, hxs⟩ := List.cons.inj h
    cases he
    cases e with
    | property _ | strings _ | nested _ =>
      rw [evalOperands, evalOperands, evalOperands_expressions hxs]

/-- The single subject stands between the other operands. -/
theorem exists_of_subjects {path : String} : ∀ {xs : List (Operand Predicate)},
    subjects xs = [path] → ∃ ys x zs, xs = ys ++ x :: zs ∧ rest xs = ys ++ zs ∧
      isSubject x = true ∧ x.expression = .property path
  | [], h => by cases h
  | x :: xs, h => by
    cases hx : isSubject x with
    | true =>
      obtain ⟨s, hs, -⟩ := exists_of_isSubject hx
      rw [subjects_cons hx hs] at h
      obtain ⟨rfl, hnone⟩ := List.cons.inj h
      have hsplit := length_subjects_add_rest xs
      rw [hnone, List.length_nil, Nat.zero_add] at hsplit
      refine ⟨[], x, xs, rfl, ?_, hx, hs⟩
      rw [rest_cons hx]
      exact List.filter_sublist.eq_of_length hsplit
    | false =>
      rw [subjects_cons_of_not hx] at h
      obtain ⟨ys, z, zs, rfl, hrest, hz, hpath⟩ := exists_of_subjects h
      exact ⟨x :: ys, z, zs, rfl, by rw [rest_cons_of_not hx, hrest]; rfl, hz, hpath⟩

/-- A faithful leaf stands over its property alone, or over the property and a literal. -/
theorem Faithful.leaf_cases {op : Operator} {xs : List (Operand Predicate)} {n : Bool}
    (h : (Predicate.node op xs n).Faithful) (kind : op.isLogical = false)
    (fit : checkOperands op xs = .ok ()) : ∃ path, path ≠ "" ∧ subjects xs = [path] ∧
      (xs.map (·.expression) = [.property path] ∧ params xs = [] ∨
      ∃ name values, params xs = [(name, values)] ∧
        (xs.map (·.expression) = [.property path, .strings values] ∧ patternsOf xs = values ∨
        xs.map (·.expression) = [.strings values, .property path] ∧ op.Symmetric)) := by
  obtain ⟨path, hne, hsubjects⟩ := h.about
  have hsubjects : subjects xs = [path] := hsubjects
  have hliteral : ∀ x ∈ rest xs, ∃ values, x.expression = .strings values := h.literal
  have hfirst : op.Symmetric ∨ ∃ x ys, xs = x :: ys ∧ isSubject x = true := h.first
  obtain ⟨ys, x, zs, hxs, hrest, hx, hpath⟩ := exists_of_subjects hsubjects
  have hlength : xs.length = (ys ++ zs).length + 1 := by
    rw [hxs, List.length_append, List.length_append, List.length_cons, Nat.add_assoc]
  refine ⟨path, hne, hsubjects, ?_⟩
  rcases ((checkOperands_values kind (type_of_leaf kind fit)).mp fit).1 with
    ⟨-, hone⟩ | ⟨-, htwo⟩
  · have hnil : ys ++ zs = [] := List.eq_nil_of_length_eq_zero (by omega)
    obtain ⟨rfl, rfl⟩ := List.append_eq_nil_iff.mp hnil
    refine Or.inl ⟨by rw [hxs]; exact congrArg ([·]) hpath, by rw [params, hrest]; rfl⟩
  · obtain ⟨y, hy⟩ := List.length_eq_one_iff.mp (show (ys ++ zs).length = 1 by omega)
    obtain ⟨values, hvalues⟩ := hliteral y (by rw [hrest, hy]; exact List.mem_singleton_self y)
    have hparams : params xs = [(paramName y, values)] := by
      rw [params, hrest, hy, List.map_singleton, hvalues]
      rfl
    refine Or.inr ⟨paramName y, values, hparams, ?_⟩
    rcases List.append_eq_singleton_iff.mp hy with ⟨rfl, rfl⟩ | ⟨rfl, rfl⟩
    · subst hxs
      refine Or.inl ⟨by simp [hpath, hvalues], ?_⟩
      obtain ⟨j, name, e⟩ := y
      cases hvalues
      rfl
    · subst hxs
      refine Or.inr ⟨by simp [hpath, hvalues], hfirst.resolve_right ?_⟩
      rintro ⟨z, zs, hz, hsubject⟩
      obtain ⟨rfl, -⟩ := List.cons.inj hz
      obtain ⟨s, hs, -⟩ := exists_of_isSubject hsubject
      rw [hvalues] at hs
      cases hs

/-- A faithful leaf that is fit for its operator is legible. -/
theorem Faithful.legible {op : Operator} {xs : List (Operand Predicate)} {n : Bool}
    (h : (Predicate.node op xs n).Faithful) (kind : op.isLogical = false)
    (fit : checkOperands op xs = .ok ()) : (Predicate.node op xs n).Legible := by
  refine ⟨h.about, ?_⟩
  rintro rfl e he
  have he : e ∈ params xs := he
  obtain ⟨path, -, -, ⟨-, hnone⟩ | ⟨name, values, hone, ⟨-, hpatterns⟩ | ⟨-, hsymmetric⟩⟩⟩ :=
    h.leaf_cases kind fit
  · rw [hnone] at he
    cases he
  · rw [hone] at he
    cases List.mem_singleton.mp he
    rw [← hpatterns]
    exact ((checkOperands_values kind (type_of_leaf kind fit)).mp fit).2 rfl
  · rcases hsymmetric with hop | hop <;> cases hop

/-- A faithful leaf has the truth value of its written form. -/
theorem Faithful.eval_leaf {op : Operator} {xs : List (Operand Predicate)} {n : Bool}
    (h : (Predicate.node op xs n).Faithful) (kind : op.isLogical = false)
    (fit : checkOperands op xs = .ok ()) (v : Valuation) :
    (evalOperands v (leafOperands ((subjects xs).getLastD "") (params xs)) >>=
      applyOperator op) = evalOperands v xs >>= applyOperator op := by
  obtain ⟨path, -, hsubjects, ⟨hxs, hnone⟩ | ⟨name, values, hone, ⟨hxs, -⟩ | ⟨hxs, hsymmetric⟩⟩⟩ :=
    h.leaf_cases kind fit
  · rw [hsubjects, hnone]
    exact congrArg (· >>= _) (evalOperands_expressions hxs.symm)
  · rw [hsubjects, hone]
    exact congrArg (· >>= _) (evalOperands_expressions hxs.symm)
  · have hargs : evalOperands v xs = .ok [.values values, .values (v path)] :=
      @evalOperands_expressions v xs [⟨0, none, .strings values⟩, ⟨1, none, .property path⟩] hxs
    rw [hsubjects, hone, hargs]
    exact applyOperator_swap hsymmetric (v path) values

theorem rereadOperands_nested : ∀ {xs : List (Operand Predicate)} {ps : List Predicate},
    xs.map (·.expression) = ps.map .nested → rereadOperands xs = ps.map reread
  | [], [], _ => rfl
  | ⟨_, _, .nested q⟩ :: xs, p :: ps, h => by
    obtain ⟨hq, hxs⟩ := List.cons.inj h
    cases hq
    rw [rereadOperands, rereadOperands_nested hxs, List.map_cons]
  | ⟨_, _, .property _⟩ :: _, _ :: _, h => by cases (List.cons.inj h).1
  | ⟨_, _, .strings _⟩ :: _, _ :: _, h => by cases (List.cons.inj h).1

/-- Predicates with the same truth values may stand for each other. -/
theorem evalOperands_nested {v : Valuation} {f : Predicate → Predicate} :
    ∀ {ps : List Predicate} {xs ys : List (Operand Predicate)},
      xs.map (·.expression) = ps.map .nested → ys.map (·.expression) = (ps.map f).map .nested →
        (∀ p ∈ ps, (f p).eval v = p.eval v) → evalOperands v ys = evalOperands v xs
  | [], [], [], _, _, _ => rfl
  | p :: ps, ⟨_, _, e⟩ :: xs, ⟨_, _, e'⟩ :: ys, hx, hy, h => by
    obtain ⟨he, hxs⟩ := List.cons.inj hx
    obtain ⟨he', hys⟩ := List.cons.inj hy
    cases he
    cases he'
    rw [evalOperands, evalOperands, h p List.mem_cons_self,
      evalOperands_nested hxs hys fun q hq => h q (List.mem_cons_of_mem _ hq)]

theorem map_expression_compose (op : Operator) (ps : List Predicate) :
    (compose op ps).operands.map (·.expression) = ps.map .nested := by
  refine List.ext_getElem (by simp [compose, operands]) fun i _ _ => ?_
  simp [compose, operands]

theorem eval_node (op : Operator) (xs : List (Operand Predicate)) (n : Bool) (v : Valuation) :
    (Predicate.node op xs n).eval v =
      (evalOperands v xs >>= applyOperator op) >>= fun b => .ok (b != n) := by
  rw [eval, bind_assoc]

/-- A mark may be spelled out. -/
theorem eval_spelled (op : Operator) (xs : List (Operand Predicate)) (n : Bool) (v : Valuation) :
    (if n then (Predicate.node op xs false).not else .node op xs false).eval v =
      (evalOperands v xs >>= applyOperator op) >>= fun b => .ok (b != n) := by
  cases n with
  | false => exact eval_node op xs false v
  | true =>
    rw [if_pos rfl, eval_not, eval_node, bind_assoc]
    refine congrArg (_ >>= ·) (funext fun b => ?_)
    cases b <;> rfl

/-- **What the written form says has the truth value of the predicate** if every leaf is
faithful. -/
theorem Checked.eval_reread {p : Predicate} (h : p.Checked)
    (hleaf : ∀ q ∈ p.nodes, q.operator.isLogical = false → q.Faithful) (v : Valuation) :
    p.reread.eval v = p.eval v := by
  induction h with
  | @leaf op xs n kind fit =>
    have hfaithful := hleaf _ List.mem_cons_self kind
    rw [reread, kind, if_neg Bool.false_ne_true, eval_spelled, hfaithful.eval_leaf kind fit,
      eval_node]
  | @logical op xs ps n kind fit hps below ih =>
    have hargs : evalOperands v (compose op (rereadOperands xs)).operands = evalOperands v xs := by
      rw [rereadOperands_nested hps]
      refine evalOperands_nested hps (map_expression_compose op _) fun p hp => ?_
      refine ih p hp fun q hq => hleaf q (List.mem_cons_of_mem _ ?_)
      rw [operandNodes_nested hps]
      exact List.mem_flatMap.mpr ⟨p, hp, hq⟩
    rw [reread, kind, if_pos rfl, eval_node, ← hargs]
    exact eval_spelled op (compose op (rereadOperands xs)).operands n v

end Predicate
end CatalogRules
