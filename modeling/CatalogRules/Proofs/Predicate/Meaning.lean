import CatalogRules.Pattern.Reader
import CatalogRules.Proofs.Predicate.Shape
import Mathlib.Data.List.Forall2
import Mathlib.Data.Set.Basic

/-! # The meaning of predicates

What a predicate says (`Predicate.Holds`) is defined by recursion on the tree, over the sets of the
values of the paths that are not empty: a logical operator is read as in logic, any other operator
asks for a value on the left and a value on the right that are related (`Operator.Relates`), and a
mark turns a node into its opposite.

A predicate whose nodes are all fit for their operators is true exactly if it holds
(`eval_iff_holds`). Nothing but the sets of its references matters (`holds_congr`). -/

namespace CatalogRules

open Predicate (Argument Valuation present)

/-- The set of the values that are not empty. -/
def nonempties (vs : List String) : Set String := {s | s ∈ vs ∧ s ≠ ""}

/-- The set of the values of each path that are not empty. -/
def Predicate.Valuation.sets (v : Valuation) (path : String) : Set String := nonempties (v path)

/-- What an operand means: a set of values, or whether something holds. -/
inductive Meaning where
  | values (S : Set String)
  | truth (P : Prop)

namespace Operator
variable [Pattern.Library]

/-- What an operator on strings asks of a value on the left and a value on the right. -/
def Relates : Operator → String → String → Prop
  | .anyEquals, s, t | .containsAny, s, t => s = t
  | .containsStr, s, t => t.toList <:+: s.toList
  | .startsWith, s, t => t.toList <+: s.toList
  | .regexMatch, s, t =>
    ∃ re, Pattern.readAnchored t = .ok re ∧ Pattern.Library.occursIn re s = true
  | .greaterThan, s, t => ∃ x y, Numeral.ofText? s = some x ∧ Numeral.ofText? t = some y ∧ y < x
  | .lessThan, s, t => ∃ x y, Numeral.ofText? s = some x ∧ Numeral.ofText? t = some y ∧ x < y
  | _, _, _ => False

/-- What an operator says about its operands. -/
def Says : Operator → List Meaning → Prop
  | .and, ms => ∀ P, .truth P ∈ ms → P
  | .or, ms => ∃ P, .truth P ∈ ms ∧ P
  | .not, [.truth P] => ¬ P
  | .exists, [.values S] => S.Nonempty
  | .isTrue, [.values S] => ∃ s ∈ S, Text.sameIgnoringCase "true" s = true
  | .isFalse, [.values S] => S = ∅ ∨ ∃ s ∈ S, Text.sameIgnoringCase "false" s = true
  | op, [.values S, .values R] => ∃ s ∈ S, ∃ t ∈ R, op.Relates s t
  | _, _ => False

end Operator

namespace Predicate

section
variable [Pattern.Library]

mutual

/-- A predicate holds for the sets of values of the paths. -/
def Holds (S : String → Set String) : Predicate → Prop
  | .node op xs negated => if negated then ¬ op.Says (meanings S xs) else op.Says (meanings S xs)

/-- What some operands mean. -/
def meanings (S : String → Set String) : List (Operand Predicate) → List Meaning
  | [] => []
  | ⟨_, _, .property path⟩ :: xs => .values (S path) :: meanings S xs
  | ⟨_, _, .strings vs⟩ :: xs => .values (nonempties vs) :: meanings S xs
  | ⟨_, _, .nested p⟩ :: xs => .truth (Holds S p) :: meanings S xs

end

end

/-! ### Values on two sides -/

theorem mem_present {vs : List String} {s : String} : s ∈ present vs ↔ s ∈ nonempties vs := by
  simp [present, nonempties]

theorem isEmpty_present {vs : List String} :
    (present vs).isEmpty = true ↔ nonempties vs = ∅ := by
  rw [List.isEmpty_iff, List.eq_nil_iff_forall_not_mem, Set.eq_empty_iff_forall_notMem]
  exact forall_congr' fun s => not_congr mem_present

theorem contains_iff {whole part : List Char} :
    Text.contains whole part = true ↔ part <:+: whole := by
  induction whole with
  | nil => simp [Text.contains, List.infix_nil]
  | cons c whole ih =>
    rw [Text.contains, Bool.or_eq_true, List.isPrefixOf_iff_prefix, ih, List.infix_cons_iff]

theorem anyPair_iff {r : String → String → Bool} {left right : List String} :
    anyPair r left right = true ↔
      ∃ s ∈ nonempties left, ∃ t ∈ nonempties right, r s t = true := by
  simp only [anyPair, List.any_eq_true, mem_present]

theorem anyNumbers_iff {r : Double → Double → Bool} {left right : List String} :
    anyNumbers r left right = true ↔ ∃ s ∈ nonempties left, ∃ t ∈ nonempties right,
      ∃ x y, Numeral.ofText? s = some x ∧ Numeral.ofText? t = some y ∧ r x y = true := by
  simp only [anyNumbers, List.any_eq_true, List.mem_filterMap, mem_present]
  constructor
  · rintro ⟨x, ⟨s, hs, hx⟩, y, ⟨t, ht, hy⟩, hr⟩
    exact ⟨s, hs, t, ht, x, y, hx, hy, hr⟩
  · rintro ⟨s, hs, t, ht, x, y, hx, hy, hr⟩
    exact ⟨x, ⟨s, hs, hx⟩, y, ⟨t, ht, hy⟩, hr⟩

theorem anyMatch_iff [Pattern.Library] {values patterns : List String} :
    anyMatch values patterns = true ↔ ∃ s ∈ nonempties values, ∃ t ∈ nonempties patterns,
      Operator.regexMatch.Relates s t := by
  simp only [anyMatch, List.any_eq_true, List.mem_filterMap, mem_present, Operator.Relates,
    toOption_eq_some]
  constructor
  · rintro ⟨s, hs, re, ⟨t, ht, hre⟩, hoccurs⟩
    exact ⟨s, hs, t, ht, re, hre, hoccurs⟩
  · rintro ⟨s, hs, t, ht, re, hre, hoccurs⟩
    exact ⟨s, hs, re, ⟨t, ht, hre⟩, hoccurs⟩

/-- An operator on two lists of values asks for related values. -/
theorem applyOperator_binary [Pattern.Library] {op : Operator} (h : op.arity = .binary)
    (left right : List String) :
    ∃ b, applyOperator op [.values left, .values right] = .ok b ∧
      (b = true ↔ ∃ s ∈ nonempties left, ∃ t ∈ nonempties right, op.Relates s t) := by
  cases op with
  | anyEquals | containsAny =>
    exact ⟨_, rfl, anyPair_iff.trans (by simp only [beq_iff_eq, Operator.Relates])⟩
  | containsStr =>
    exact ⟨_, rfl, anyPair_iff.trans (by simp only [contains_iff, Operator.Relates])⟩
  | startsWith =>
    exact ⟨_, rfl, anyPair_iff.trans (by simp only [List.isPrefixOf_iff_prefix, Operator.Relates])⟩
  | regexMatch => exact ⟨_, rfl, anyMatch_iff⟩
  | greaterThan | lessThan =>
    exact ⟨_, rfl, anyNumbers_iff.trans (by simp only [decide_eq_true_eq, Operator.Relates])⟩
  | and | or | not | «exists» | isTrue | isFalse => cases h

/-! ### Arguments -/

/-- An argument is what the operand means. -/
def Argument.Means : Argument → Meaning → Prop
  | .values vs, .values S => S = nonempties vs
  | .truth b, .truth P => b = true ↔ P
  | _, _ => False

theorem Argument.Means.values {a : Argument} {m : Meaning} (h : a.Means m)
    (ht : a.type = .strings) : ∃ vs, a = .values vs ∧ m = .values (nonempties vs) := by
  cases a with
  | truth b => cases ht
  | values vs =>
    cases m with
    | truth P => exact h.elim
    | values S => exact ⟨vs, rfl, congrArg _ h⟩

theorem Argument.Means.truth {a : Argument} {m : Meaning} (h : a.Means m)
    (ht : a.type = .boolean) : ∃ b P, a = .truth b ∧ m = .truth P ∧ (b = true ↔ P) := by
  cases a with
  | values vs => cases ht
  | truth b =>
    cases m with
    | values S => exact h.elim
    | truth P => exact ⟨b, P, rfl, rfl, h⟩

/-- Arguments that are truth values tell which of the things that they mean hold. -/
theorem truths_iff (op : Operator) {args : List Argument} {ms : List Meaning}
    (h : List.Forall₂ Argument.Means args ms) (ht : ∀ a ∈ args, a.type = .boolean) :
    ∃ bs, truths op args = .ok bs ∧ (bs.all id = true ↔ ∀ P, .truth P ∈ ms → P) ∧
      (bs.any id = true ↔ ∃ P, .truth P ∈ ms ∧ P) := by
  induction h with
  | nil => exact ⟨[], rfl, by simp, by simp⟩
  | cons hm _ ih =>
    obtain ⟨bs, hbs, hall, hany⟩ := ih fun x hx => ht x (List.mem_cons_of_mem _ hx)
    obtain ⟨b, P, rfl, rfl, hb⟩ := hm.truth (ht _ List.mem_cons_self)
    refine ⟨b :: bs, by simp [truths, hbs, bind, Except.bind], ?_, ?_⟩
    · simp only [List.all_cons, Bool.and_eq_true, id_eq, hall, hb, List.mem_cons,
        Meaning.truth.injEq, forall_eq_or_imp]
    · simp only [List.any_cons, Bool.or_eq_true, id_eq, hany, hb, List.mem_cons,
        Meaning.truth.injEq, or_and_right, exists_or, exists_eq_left]

/-- The value of an operator on arguments of its types is what the operator says. -/
theorem applyOperator_iff [Pattern.Library] {op : Operator} {args : List Argument}
    {ms : List Meaning} (h : List.Forall₂ Argument.Means args ms)
    (ht : op.arity.Accepts (args.map Argument.type)) :
    ∃ b, applyOperator op args = .ok b ∧ (b = true ↔ op.Says ms) := by
  cases harity : op.arity with
  | variadic =>
    rw [harity] at ht
    obtain ⟨bs, hbs, hall, hany⟩ := truths_iff op h (by simpa using ht.2)
    cases op with
    | and => exact ⟨_, by rw [applyOperator, hbs]; rfl, hall⟩
    | or => exact ⟨_, by rw [applyOperator, hbs]; rfl, hany⟩
    | _ => cases harity
  | unary type =>
    rw [harity] at ht
    obtain ⟨a, rfl, ha⟩ := List.map_eq_singleton_iff.mp ht
    obtain ⟨m, _, hm, ⟨⟩, rfl⟩ := List.forall₂_cons_left_iff.mp h
    cases op with
    | not =>
      cases harity
      obtain ⟨b, P, rfl, rfl, hb⟩ := hm.truth ha
      exact ⟨!b, rfl, by rw [Operator.Says, ← hb, Bool.not_eq_true', Bool.not_eq_true]⟩
    | «exists» =>
      cases harity
      obtain ⟨vs, rfl, rfl⟩ := hm.values ha
      exact ⟨_, rfl, by rw [Bool.not_eq_true', ← Bool.not_eq_true, isEmpty_present, Operator.Says,
        Set.nonempty_iff_ne_empty]⟩
    | isTrue =>
      cases harity
      obtain ⟨vs, rfl, rfl⟩ := hm.values ha
      exact ⟨_, rfl, by simp only [List.any_eq_true, mem_present, Operator.Says]⟩
    | isFalse =>
      cases harity
      obtain ⟨vs, rfl, rfl⟩ := hm.values ha
      exact ⟨_, rfl, by simp only [Bool.or_eq_true, List.any_eq_true, mem_present, Operator.Says,
        isEmpty_present]⟩
    | _ => cases harity
  | binary =>
    rw [harity] at ht
    obtain ⟨a, args', rfl, ha, hargs⟩ := List.map_eq_cons_iff.mp ht
    obtain ⟨a', rfl, ha'⟩ := List.map_eq_singleton_iff.mp hargs
    obtain ⟨m, _, hm, hms, rfl⟩ := List.forall₂_cons_left_iff.mp h
    obtain ⟨m', _, hm', ⟨⟩, rfl⟩ := List.forall₂_cons_left_iff.mp hms
    obtain ⟨left, rfl, rfl⟩ := hm.values ha
    obtain ⟨right, rfl, rfl⟩ := hm'.values ha'
    obtain ⟨b, hb, hiff⟩ := applyOperator_binary harity left right
    refine ⟨b, hb, hiff.trans ?_⟩
    cases op with
    | and | or | not | «exists» | isTrue | isFalse => cases harity
    | _ => rfl

/-! ### Predicates -/

section
variable [Pattern.Library]

mutual

/-- A predicate whose nodes are fit for their operators is true exactly if it holds. -/
theorem eval_ok_iff (v : Valuation) : ∀ (p : Predicate), (∀ q ∈ p.nodes, q.check = .ok ()) →
    ∃ b, p.eval v = .ok b ∧ (b = true ↔ p.Holds v.sets)
  | .node op xs negated, h => by
    obtain ⟨args, hargs, hm, ht⟩ := evalOperands_means v xs fun q hq =>
      h q (List.mem_cons_of_mem _ hq)
    have hcheck : checkOperands op xs = .ok () := h _ List.mem_cons_self
    obtain ⟨b, hb, hiff⟩ := applyOperator_iff hm (ht ▸ accepts_of_checkOperands hcheck)
    refine ⟨b != negated, by simp [eval, hargs, hb, bind, Except.bind], ?_⟩
    rw [Holds]
    cases negated <;> cases b <;> simp_all

theorem evalOperands_means (v : Valuation) : ∀ (xs : List (Operand Predicate)),
    (∀ q ∈ operandNodes xs, q.check = .ok ()) → ∃ args, evalOperands v xs = .ok args ∧
      List.Forall₂ Argument.Means args (meanings v.sets xs) ∧
      args.map Argument.type = xs.map (·.expression.type)
  | [], _ => ⟨[], rfl, .nil, rfl⟩
  | ⟨_, _, .property path⟩ :: xs, h => by
    obtain ⟨args, hargs, hm, ht⟩ := evalOperands_means v xs h
    exact ⟨.values (v path) :: args, by rw [evalOperands, hargs]; rfl, .cons rfl hm,
      congrArg (_ :: ·) ht⟩
  | ⟨_, _, .strings vs⟩ :: xs, h => by
    obtain ⟨args, hargs, hm, ht⟩ := evalOperands_means v xs h
    exact ⟨.values vs :: args, by rw [evalOperands, hargs]; rfl, .cons rfl hm,
      congrArg (_ :: ·) ht⟩
  | ⟨_, _, .nested p⟩ :: xs, h => by
    obtain ⟨b, hb, hiff⟩ := eval_ok_iff v p fun q hq => h q (List.mem_append_left _ hq)
    obtain ⟨args, hargs, hm, ht⟩ := evalOperands_means v xs fun q hq =>
      h q (List.mem_append_right _ hq)
    exact ⟨.truth b :: args, by rw [evalOperands, hb, hargs]; rfl, .cons hiff hm,
      congrArg (_ :: ·) ht⟩

end

mutual

/-- What a predicate says depends on the sets of its own paths only. -/
theorem holds_congr {S T : String → Set String} : ∀ (p : Predicate),
    (∀ path ∈ p.paths, S path = T path) → (p.Holds S ↔ p.Holds T)
  | .node op xs negated, h => by rw [Holds, Holds, meanings_congr xs h]

theorem meanings_congr {S T : String → Set String} : ∀ (xs : List (Operand Predicate)),
    (∀ path ∈ operandPaths xs, S path = T path) → meanings S xs = meanings T xs
  | [], _ => rfl
  | ⟨_, _, .property path⟩ :: xs, h => by
    rw [operandPaths, List.forall_mem_cons] at h
    rw [meanings, meanings, h.1, meanings_congr xs h.2]
  | ⟨_, _, .strings vs⟩ :: xs, h => by
    rw [operandPaths] at h
    rw [meanings, meanings, meanings_congr xs h]
  | ⟨_, _, .nested p⟩ :: xs, h => by
    rw [operandPaths, List.forall_mem_append] at h
    rw [meanings, meanings, propext (holds_congr p h.1), meanings_congr xs h.2]

end

/-- **A predicate whose nodes are fit for their operators is true exactly if it holds** for the sets
of the values that are not empty, and only the sets of its references matter. -/
theorem eval_iff_holds (p : Predicate) (h : ∀ q ∈ p.nodes, q.check = .ok ()) (v : Valuation) :
    (∃ b, p.eval v = .ok b ∧ (b = true ↔ p.Holds v.sets)) ∧
      ∀ w : Valuation, (∀ path ∈ p.references, w.sets path = v.sets path) → p.eval w = p.eval v := by
  refine ⟨eval_ok_iff v p h, fun w hw => ?_⟩
  obtain ⟨b, hb, hiff⟩ := eval_ok_iff v p h
  obtain ⟨b', hb', hiff'⟩ := eval_ok_iff w p h
  have hsame : p.Holds w.sets ↔ p.Holds v.sets :=
    holds_congr p fun path hpath => hw path (Sorted.mem_ofList.mpr hpath)
  rw [hb, hb', Bool.eq_iff_iff.mpr (hiff'.trans (hsame.trans hiff.symm))]

end

/-- The name does not begin so, or the tag is not among the tags. -/
def untagged : Predicate := .or
  [.negate (.compare .startsWith "name" ["", "tmp_"]), .not (.node .anyEquals
    [⟨0, none, .strings ["", "urn:li:tag:x"]⟩, ⟨1, none, .property "tags"⟩] false)]

/-- Empty values do not make the predicate hold. -/
theorem not_holds_untagged :
    let v : Valuation := fun path => if path = "name" then ["tmp_a", ""] else ["", "urn:li:tag:x"]
    (∀ q ∈ untagged.nodes, q.check = .ok ()) ∧ ¬ untagged.Holds v.sets ∧
      ∀ w : Valuation, (∀ path ∈ untagged.references, w.sets path = v.sets path) →
        untagged.eval w = .ok false := by
  intro v
  have hcheck : ∀ q ∈ untagged.nodes, q.check = .ok () := by decide
  obtain ⟨⟨b, hb, hholds⟩, hsame⟩ := eval_iff_holds untagged hcheck v
  have heval : untagged.eval v = .ok false := rfl
  rw [heval] at hb hsame
  cases hb
  exact ⟨hcheck, fun h => Bool.false_ne_true (hholds.mpr h), hsame⟩

end Predicate
end CatalogRules
