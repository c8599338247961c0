import CatalogRules.Proofs.Definition.Written
import CatalogRules.Proofs.Predicate.Reread
import Mathlib.Data.List.Induction

/-! # Reading the canonical form of any definition

The canonical form of a definition whose nodes are fit for their operators, but which was not read
itself, is read back exactly if every leaf is legible, and then as what its written form says
(`Definition.reread`). That evaluates like the definition if every leaf is faithful
(`reads_back_iff`), but not in general: a leaf that compares two properties is read back as a leaf
that compares the first one with the path of the second (`misread_ownCreator`).

A leaf in written form has its last subject under `property` and the rest under `params`
(`leafForm_operandValues`, `readsAs_paramsForm`). By induction over the checked predicate this
decides what is read from the written form (`readRule_reread`). -/

namespace CatalogRules

open Json (Value)

namespace Definition

open Predicate (literals leafOperands paramName paramsForm isSubject leafForm leafForm_eq
  operandValues subjects rest params compose checkOperands)

/-! ### Operands in written form -/

/-- The written form of an expression. -/
def expressionValue : Expression Predicate → Value
  | .property path => .string path
  | .strings values => .ofStrings values
  | .nested p => p.toValue

theorem operandValues_eq_map (xs : List (Operand Predicate)) :
    operandValues xs = xs.map fun x => (x, expressionValue x.expression) := by
  induction xs with
  | nil => rfl
  | cons x xs ih =>
    obtain ⟨i, name, e⟩ := x
    cases e with
    | property _ | strings _ | nested _ =>
      rw [operandValues, ih]
      rfl

/-- The predicates under a logical operator in written form. -/
theorem operandValues_nested {xs : List (Operand Predicate)} {ps : List Predicate}
    (h : xs.map (·.expression) = ps.map .nested) :
    (operandValues xs).map (·.2) = ps.map Predicate.toValue := by
  calc (operandValues xs).map (·.2)
      = (xs.map (·.expression)).map expressionValue := by
        rw [operandValues_eq_map, List.map_map, List.map_map]
        rfl
    _ = ps.map Predicate.toValue := by
        rw [h, List.map_map]
        rfl

/-- Of the values of one key the last stays. -/
theorem foldl_put_key (key : String) (vs : List Value) :
    vs.foldl (fun m v => Keyed.put key v m) [] = vs.getLast?.toList.map fun v => (key, v) := by
  induction vs using List.reverseRecOn with
  | nil => rfl
  | append_singleton vs v ih =>
    rw [List.foldl_append, ih, List.getLast?_concat]
    cases vs.getLast? with
    | none => rfl
    | some w => exact if_pos rfl

theorem map_expressionValue_filter (xs : List (Operand Predicate)) :
    (xs.filter isSubject).map (fun x => expressionValue x.expression) =
      (subjects xs).map .string := by
  induction xs with
  | nil => rfl
  | cons x xs ih =>
    cases hx : isSubject x with
    | true =>
      obtain ⟨path, hpath, -⟩ := Predicate.exists_of_isSubject hx
      rw [List.filter_cons_of_pos hx, Predicate.subjects_cons hx hpath, List.map_cons,
        List.map_cons, ih, hpath]
      rfl
    | false =>
      rw [List.filter_cons_of_neg (by rw [hx]; decide), Predicate.subjects_cons_of_not hx, ih]

/-- **A leaf in written form** has its last subject under `property` and the rest under
`params`. -/
theorem leafForm_operandValues (op : Operator) (xs : List (Operand Predicate)) :
    leafForm op (operandValues xs) = .object (writtenFields op (subjects xs).getLast?
      (paramsForm (operandValues xs))) := by
  have hsubject : (operandValues xs).foldl
      (fun m e => if isSubject e.1 then Keyed.put "property" e.2 m else m) [] =
        (subjects xs).getLast?.toList.map fun path => ("property", Value.string path) := by
    calc _ = (xs.filter isSubject).foldl
          (fun m x => Keyed.put "property" (expressionValue x.expression) m) [] := by
          rw [operandValues_eq_map, List.foldl_map, List.foldl_filter]
      _ = ((subjects xs).map Value.string).foldl (fun m v => Keyed.put "property" v m) [] := by
          rw [← map_expressionValue_filter, List.foldl_map]
      _ = _ := by
          rw [foldl_put_key, List.getLast?_map]
          cases (subjects xs).getLast? <;> rfl
  rw [leafForm_eq, hsubject, writtenFields]
  cases (subjects xs).getLast? <;> rfl

theorem toValue_leaf {op : Operator} {xs : List (Operand Predicate)} (kind : op.isLogical = false) :
    (Predicate.node op xs false).toValue = .object (writtenFields op (subjects xs).getLast?
      (paramsForm (operandValues xs))) := by
  rw [← leafForm_operandValues]
  cases op with
  | and | or | not => cases kind
  | _ => rfl

/-! ### Parameters -/

theorem readsAs_put {e : String × Value} {f : String × List String} (h : ReadsAs e f)
    {fields : List (String × Value)} {ps : List (String × List String)}
    (hrest : List.Forall₂ ReadsAs fields ps) :
    List.Forall₂ ReadsAs (Keyed.put e.1 e.2 fields) (Keyed.put f.1 f.2 ps) := by
  rw [← h.1]
  induction hrest with
  | nil => exact .cons ⟨rfl, h.2⟩ .nil
  | @cons e' f' fields ps he hrest ih =>
    obtain ⟨k, w⟩ := e'
    obtain ⟨k', texts⟩ := f'
    obtain ⟨rfl, hw⟩ := he
    unfold Keyed.put
    by_cases hk : k = e.1
    · rw [if_pos hk, if_pos hk]
      exact .cons ⟨rfl, h.2⟩ hrest
    · rw [if_neg hk, if_neg hk]
      exact .cons ⟨rfl, hw⟩ ih

theorem readsAs_foldl {es : List (String × Value)} {fs : List (String × List String)}
    (h : List.Forall₂ ReadsAs es fs) : ∀ {fields : List (String × Value)}
      {ps : List (String × List String)}, List.Forall₂ ReadsAs fields ps →
        List.Forall₂ ReadsAs (es.foldl (fun m p => Keyed.put p.1 p.2 m) fields)
          (fs.foldl (fun m p => Keyed.put p.1 p.2 m) ps) := by
  induction h with
  | nil => exact fun hrest => hrest
  | cons he _ ih => exact fun hrest => ih (readsAs_put he hrest)

/-- The parameters in written form are the rest under their names. -/
theorem paramsForm_operandValues (xs : List (Operand Predicate)) :
    paramsForm (operandValues xs) = Keyed.ofPairs
      ((rest xs).map fun x => (paramName x, expressionValue x.expression)) := by
  rw [paramsForm, operandValues_eq_map, List.foldl_map, Keyed.ofPairs, List.foldl_map, rest,
    List.foldl_filter]
  refine List.foldl_ext _ _ _ fun m x _ => ?_
  cases isSubject x <;> rfl

/-- The parameters in written form are read as the names and texts of the rest. -/
theorem readsAs_paramsForm {xs : List (Operand Predicate)}
    (hxs : ∀ x ∈ xs, x.expression.type = .strings) :
    List.Forall₂ ReadsAs (paramsForm (operandValues xs)) (params xs) := by
  rw [paramsForm_operandValues]
  refine readsAs_foldl (List.forall₂_map_left_iff.mpr (List.forall₂_map_right_iff.mpr
    (List.forall₂_same.mpr fun x hx => ⟨rfl, fun path => ?_⟩))) .nil
  have htype := hxs x (List.mem_filter.mp hx).1
  obtain ⟨i, name, e⟩ := x
  cases e with
  | property s => rfl
  | strings values => exact stringList_ofStrings path values
  | nested p => cases htype

/-! ### Predicates -/

/-- What is read from the written form of a node decides what is read from it under its mark. -/
theorem readRule_spelled {op : Operator} {xs : List (Operand Predicate)} {n : Bool} {L : Prop}
    {p : Predicate} (h : ∀ path q, readRule (Predicate.node op xs false).toValue path = .ok q ↔
      L ∧ q = p) (path : String) (q : Predicate) :
    readRule (Predicate.node op xs n).toValue path = .ok q ↔
      L ∧ q = if n then p.not else p := by
  cases n with
  | false => exact h path q
  | true =>
    show readRule (.object [("not", (Predicate.node op xs false).toValue)]) path = _ ↔ _
    rw [readRule_not, bind_eq_ok]
    constructor
    · rintro ⟨r, hr, hq⟩
      obtain ⟨hL, rfl⟩ := (h _ r).mp hr
      cases hq
      exact ⟨hL, rfl⟩
    · rintro ⟨hL, rfl⟩
      exact ⟨p, (h _ p).mpr ⟨hL, rfl⟩, rfl⟩

theorem readItems_iff {L : Predicate → Prop} {f : Predicate → Predicate} : ∀ {ps : List Predicate},
    (∀ p ∈ ps, ∀ path q, readRule p.toValue path = .ok q ↔ L p ∧ q = f p) →
      ∀ path i qs, readItems (ps.map Predicate.toValue) path i = .ok qs ↔
        (∀ p ∈ ps, L p) ∧ qs = ps.map f
  | [], _, _, _, qs => by simp [readItems, eq_comm]
  | p :: ps, h, path, i, qs => by
    have htail := readItems_iff (fun q hq => h q (List.mem_cons_of_mem _ hq)) path (i + 1)
    rw [List.map_cons, readItems, bind_eq_ok, List.forall_mem_cons, List.map_cons]
    constructor
    · rintro ⟨q, hq, h'⟩
      obtain ⟨qs, hqs, heq⟩ := bind_eq_ok.mp h'
      obtain ⟨hp, rfl⟩ := (h p List.mem_cons_self _ q).mp hq
      obtain ⟨hps, rfl⟩ := (htail qs).mp hqs
      cases heq
      exact ⟨⟨hp, hps⟩, rfl⟩
    · rintro ⟨⟨hp, hps⟩, rfl⟩
      exact ⟨f p, (h p List.mem_cons_self _ _).mpr ⟨hp, rfl⟩,
        bind_eq_ok.mpr ⟨ps.map f, (htail _).mpr ⟨hps, rfl⟩, rfl⟩⟩

/-- The leaves of a predicate are legible. -/
def AllLegible (p : Predicate) : Prop :=
  ∀ q ∈ p.nodes, q.operator.isLogical = false → q.Legible

theorem allLegible_leaf {op : Operator} {xs : List (Operand Predicate)} {n : Bool}
    (kind : op.isLogical = false) (fit : checkOperands op xs = .ok ()) :
    AllLegible (.node op xs n) ↔ (Predicate.node op xs n).Legible := by
  unfold AllLegible
  rw [Predicate.nodes, Predicate.operandNodes_values (Predicate.type_of_leaf kind fit),
    List.forall_mem_singleton]
  exact forall_prop_of_true kind

theorem allLegible_logical {op : Operator} {xs : List (Operand Predicate)} {ps : List Predicate}
    {n : Bool} (kind : op.isLogical = true) (h : xs.map (·.expression) = ps.map .nested) :
    AllLegible (.node op xs n) ↔ ∀ p ∈ ps, AllLegible p := by
  unfold AllLegible
  rw [Predicate.nodes, List.forall_mem_cons, Predicate.operandNodes_nested h]
  simp only [List.mem_flatMap]
  constructor
  · rintro ⟨-, hbelow⟩ p hp q hq
    exact hbelow q ⟨p, hp, hq⟩
  · intro hall
    refine ⟨fun hleaf => ?_, fun q ⟨p, hp, hq⟩ => hall p hp q hq⟩
    rw [show op.isLogical = false from hleaf] at kind
    cases kind

/-- A checked logical node in written form. -/
theorem toValue_logical {op : Operator} {xs : List (Operand Predicate)} {ps : List Predicate}
    (kind : op.isLogical = true) (fit : checkOperands op xs = .ok ())
    (h : xs.map (·.expression) = ps.map .nested) :
    (op = .and ∨ op = .or) ∧ ps ≠ [] ∧ (Predicate.node op xs false).toValue =
        .object [(op.commonName, .array (ps.map Predicate.toValue))] ∨
      op = .not ∧ ∃ p, ps = [p] ∧
        (Predicate.node op xs false).toValue = .object [("not", p.toValue)] := by
  have hvalues := operandValues_nested h
  have hlength : xs.length = ps.length := by simpa using congrArg List.length h
  have haccepts := Predicate.accepts_of_checkOperands fit
  have hlist : (op = .and ∨ op = .or) → ps ≠ [] ∧ (Predicate.node op xs false).toValue =
      .object [(op.commonName, .array (ps.map Predicate.toValue))] := by
    intro hop
    rw [← hvalues]
    rcases hop with rfl | rfl
    all_goals
      refine ⟨?_, rfl⟩
      rintro rfl
      exact haccepts.1 (by simpa using hlength)
  cases op with
  | and => exact Or.inl ⟨Or.inl rfl, hlist (Or.inl rfl)⟩
  | or => exact Or.inl ⟨Or.inr rfl, hlist (Or.inr rfl)⟩
  | not =>
    have hone : ps.length = 1 := by
      rw [← hlength]
      simpa using congrArg List.length haccepts
    obtain ⟨p, rfl⟩ := List.length_eq_one_iff.mp hone
    refine Or.inr ⟨rfl, p, rfl, ?_⟩
    show Value.object [("not", ((operandValues xs).map (·.2)).headD .null)] = _
    rw [hvalues]
    rfl
  | _ => cases kind

/-- **What is read from the written form of a checked predicate**: what it says if every leaf is
legible, and nothing otherwise. -/
theorem readRule_reread {p : Predicate} (h : p.Checked) :
    ∀ path q, readRule p.toValue path = .ok q ↔ AllLegible p ∧ q = p.reread := by
  induction h with
  | @leaf op xs n kind fit =>
    rw [allLegible_leaf kind fit, Predicate.legible_iff kind fit, Predicate.reread, kind,
      if_neg Bool.false_ne_true]
    refine readRule_spelled fun path q => ?_
    rw [toValue_leaf kind, readRule_written (readsAs_paramsForm (Predicate.type_of_leaf kind fit))]
    constructor
    · rintro ⟨s, hs, hne, hfit, rfl⟩
      refine ⟨⟨s, hs, hne, hfit⟩, ?_⟩
      rw [List.getLastD_eq_getLast?, hs]
      rfl
    · rintro ⟨⟨s, hs, hne, hfit⟩, rfl⟩
      refine ⟨s, hs, hne, hfit, ?_⟩
      rw [List.getLastD_eq_getLast?, hs]
      rfl
  | @logical op xs ps n kind fit hps below ih =>
    rw [allLegible_logical kind hps, Predicate.reread, kind, if_pos rfl,
      Predicate.rereadOperands_nested hps]
    refine readRule_spelled fun path q => ?_
    rcases toValue_logical kind fit hps with ⟨hop, hne, hform⟩ | ⟨rfl, p, rfl, hform⟩
    · have hfit : checkOperands op (compose op (ps.map Predicate.reread)).operands = .ok () :=
        checkOperands_list hop (by simpa using hne)
      rw [hform, readRule_list hop, bind_eq_ok]
      constructor
      · rintro ⟨qs, hqs, hq⟩
        obtain ⟨hall, rfl⟩ := (readItems_iff ih _ _ qs).mp hqs
        exact ⟨hall, (checked_ok.mp hq).2.symm⟩
      · rintro ⟨hall, rfl⟩
        exact ⟨_, (readItems_iff ih _ _ _).mpr ⟨hall, rfl⟩, checked_ok.mpr ⟨hfit, rfl⟩⟩
    · rw [hform, readRule_not, bind_eq_ok, List.forall_mem_singleton]
      constructor
      · rintro ⟨r, hr, hq⟩
        obtain ⟨hall, rfl⟩ := (ih p List.mem_cons_self _ r).mp hr
        cases hq
        exact ⟨hall, rfl⟩
      · rintro ⟨hall, rfl⟩
        exact ⟨_, (ih p List.mem_cons_self _ _).mpr ⟨hall, rfl⟩, rfl⟩

/-! ### Definitions -/

/-- What the canonical form of a definition says. -/
def reread (id : String) (d : Definition) : Definition :=
  ⟨id, Sorted.ofList d.entityTypes, d.conditions.map Predicate.reread, d.rules.reread,
    allInOrder d.actions⟩

variable {d : Definition}

theorem readCondition_iff {conditions : Option Predicate}
    (h : ∀ p, conditions = some p → p.Checked) (c : Option Predicate) :
    readCondition conditions = .ok c ↔
      (∀ p, conditions = some p → AllLegible p) ∧ c = conditions.map Predicate.reread := by
  cases conditions with
  | none => simp [readCondition, eq_comm]
  | some p =>
    have hp := readRule_reread (h p rfl) "on.conditions"
    rw [readCondition, bind_eq_ok]
    constructor
    · rintro ⟨q, hq, hc⟩
      obtain ⟨hall, rfl⟩ := (hp q).mp hq
      cases hc
      exact ⟨fun _ heq => Option.some.inj heq ▸ hall, rfl⟩
    · rintro ⟨hall, rfl⟩
      exact ⟨_, (hp _).mpr ⟨hall p rfl, rfl⟩, rfl⟩

/-- A property of the nodes of a definition is one of the nodes of its rules and conditions. -/
theorem forall_nodes {P : Predicate → Prop} : (∀ q ∈ d.nodes, P q) ↔
    (∀ q ∈ d.rules.nodes, P q) ∧ ∀ p, d.conditions = some p → ∀ q ∈ p.nodes, P q := by
  rw [nodes, List.forall_mem_append]
  refine and_congr_right fun _ => ?_
  cases d.conditions <;> simp

/-- **Reading the canonical form of a definition whose nodes are fit for their operators**: it can
be read exactly if every leaf is legible, and the result is what it says. If every leaf is faithful,
it is read as a definition that evaluates like the given one. -/
theorem reads_back_iff (h : ∀ q ∈ d.nodes, q.check = .ok ()) (id : String) :
    (∀ d', ofValue id d.toValue = .ok d' ↔
      (∀ q ∈ d.nodes, q.operator.isLogical = false → q.Legible) ∧ d' = d.reread id) ∧
    ((∀ q ∈ d.nodes, q.operator.isLogical = false → q.Faithful) →
      ∃ d', ofValue id d.toValue = .ok d' ∧
        ∀ values, d'.rules.eval values = d.rules.eval values ∧
          d'.conditions.map (·.eval values) = d.conditions.map (·.eval values)) := by
  obtain ⟨hrules, hconditions⟩ := forall_nodes.mp h
  have hrules' := Predicate.Checked.of_nodes d.rules hrules
  have hconditions' : ∀ p, d.conditions = some p → p.Checked := fun p hp =>
    Predicate.Checked.of_nodes p (hconditions p hp)
  have hread : ∀ d', ofValue id d.toValue = .ok d' ↔
      (∀ q ∈ d.nodes, q.operator.isLogical = false → q.Legible) ∧ d' = d.reread id := by
    intro d'
    rw [ofValue_toValue_eq, bind_eq_ok, forall_nodes]
    constructor
    · rintro ⟨c, hc, hd⟩
      obtain ⟨r, hr, hd⟩ := bind_eq_ok.mp hd
      obtain ⟨hallc, rfl⟩ := (readCondition_iff hconditions' c).mp hc
      obtain ⟨hallr, rfl⟩ := (readRule_reread hrules' _ r).mp hr
      cases hd
      exact ⟨⟨hallr, hallc⟩, rfl⟩
    · rintro ⟨⟨hallr, hallc⟩, rfl⟩
      exact ⟨_, (readCondition_iff hconditions' _).mpr ⟨hallc, rfl⟩, bind_eq_ok.mpr
        ⟨_, (readRule_reread hrules' _ _).mpr ⟨hallr, rfl⟩, rfl⟩⟩
  refine ⟨hread, fun hfaithful => ⟨d.reread id, (hread _).mpr ⟨fun q hq kind => ?_, rfl⟩,
    fun values => ?_⟩⟩
  · have hcheck := h q hq
    have hfaithful' := hfaithful q hq kind
    obtain ⟨op, xs, n⟩ := q
    exact hfaithful'.legible kind hcheck
  · obtain ⟨hfr, hfc⟩ := forall_nodes.mp hfaithful
    refine ⟨hrules'.eval_reread hfr values, ?_⟩
    show (d.conditions.map Predicate.reread).map _ = _
    rw [Option.map_map]
    refine Option.map_congr fun p hp => ?_
    exact (hconditions' p hp).eval_reread (hfc p hp) values

/-- A definition with its operands in odd places: the things with a tag that have no name. -/
def oddlyNumbered : Definition :=
  ⟨"odd", ["thing"], some (.node .anyEquals
      [⟨3, none, .strings ["urn:li:tag:x"]⟩, ⟨0, some "where", .property "tags"⟩] true),
    .node .and [
      ⟨7, some "first", .nested (.node .not
        [⟨2, none, .nested (.node .exists [⟨0, none, .property "name"⟩] false)⟩] true)⟩,
      ⟨7, none, .nested (.node .regexMatch
        [⟨0, none, .property "name"⟩, ⟨0, none, .strings ["[a-z]+"]⟩] true)⟩] false,
    ⟨[], []⟩⟩

theorem reads_back_oddlyNumbered : (∀ q ∈ oddlyNumbered.nodes, q.check = .ok ()) ∧
    (∀ q ∈ oddlyNumbered.nodes, q.operator.isLogical = false → q.Faithful) ∧
    ∃ d', ofValue "odd" oddlyNumbered.toValue = .ok d' ∧
      ∀ values, d'.rules.eval values = oddlyNumbered.rules.eval values ∧
        d'.conditions.map (·.eval values) = oddlyNumbered.conditions.map (·.eval values) := by
  have hcheck : ∀ q ∈ oddlyNumbered.nodes, q.check = .ok () := by decide +kernel
  have hfaithful : ∀ q ∈ oddlyNumbered.nodes, q.operator.isLogical = false → q.Faithful := by
    intro q hq kind
    simp only [nodes, oddlyNumbered, Predicate.nodes, Predicate.operandNodes, Option.map_some,
      Option.getD_some, List.nil_append, List.cons_append, List.mem_cons, List.not_mem_nil,
      or_false] at hq
    rcases hq with rfl | rfl | rfl | rfl | rfl
    · cases kind
    · cases kind
    · exact ⟨⟨"name", by decide, rfl⟩, by rintro x ⟨⟩, Or.inr ⟨_, _, rfl, rfl⟩⟩
    · refine ⟨⟨"name", by decide, rfl⟩, fun x hx => ?_, Or.inr ⟨_, _, rfl, rfl⟩⟩
      exact ⟨["[a-z]+"], congrArg Operand.expression (List.mem_singleton.mp hx)⟩
    · refine ⟨⟨"tags", by decide, rfl⟩, fun x hx => ?_, Or.inl (Or.inl rfl)⟩
      exact ⟨["urn:li:tag:x"], congrArg Operand.expression (List.mem_singleton.mp hx)⟩
  exact ⟨hcheck, hfaithful, (reads_back_iff hcheck "odd").2 hfaithful⟩

/-- The things that were created by their owner. -/
def ownCreator : Definition :=
  ⟨"own", ["thing"], none, .node .anyEquals
      [⟨0, some "property", .property "owner"⟩, ⟨1, some "operand1", .property "creator"⟩] false,
    ⟨[], []⟩⟩

/-- The things with a name, whose path has an index other than zero. -/
def indexedName : Definition :=
  ⟨"named", ["thing"], none, .node .exists [⟨1, none, .property "name"⟩] false, ⟨[], []⟩⟩

/-- **Not every definition is read back**: of two properties the second one is read as a literal,
so that its path is compared with the values of the first one, and a property with an index other
than zero is not found. -/
theorem misread_ownCreator :
    ((∀ q ∈ ownCreator.nodes, q.check = .ok ()) ∧
      ∃ d', ofValue "own" ownCreator.toValue = .ok d' ∧
        ∃ values, d'.rules.eval values ≠ ownCreator.rules.eval values) ∧
    (∀ q ∈ indexedName.nodes, q.check = .ok ()) ∧
      ∀ d', ofValue "named" indexedName.toValue ≠ .ok d' := by
  have hread : ofValue "own" ownCreator.toValue = .ok (ownCreator.reread "own") := by rfl
  have hunread : ofValue "named" indexedName.toValue = .error (.noProperty "rules") := by rfl
  refine ⟨⟨by decide, _, hread, fun _ => ["urn:li:user:a"], by decide⟩, by decide, fun d' h => ?_⟩
  rw [hunread] at h
  cases h

end Definition
end CatalogRules
