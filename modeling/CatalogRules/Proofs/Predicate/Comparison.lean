import CatalogRules.Proofs.Decimal.Rounding
import CatalogRules.Proofs.Definition.Written
import CatalogRules.Proofs.Predicate.Meaning
import CatalogRules.Proofs.Resolution.Pooled

/-! # Comparing integers

The values of a property are texts, and so are the literals of a rule. An integer that is stored in an
aspect as a number, or derived as a time, has its decimal digits for a text
(`Resolution.valuesOf_integers`); so has a literal that is a number of the document
(`stringList_integers`). Both sides are read as the nearest doubles, so that `greater_than` and
`less_than` find two integers ordered if they are so and do not round to the same double
(`compares_iff`). `compare_integers` says this of a rule as it is written and of a property as it is
resolved. -/

namespace CatalogRules

open Json (Value Number)
open Definition (readRule stringList scalarText? scalarTexts writtenFields)
open Double (Rounds SameDouble)

/-! ### Integers of a property -/

namespace Resolution

/-- **A path has these integers on an entity**: they are the numbers that are found in an aspect, be
it of the entity or of those that the path hops to, or there is one, a derived time. -/
inductive Integers (r : Registry) (s : Store) : Urn → Path → List Int → Prop
  | stored {u : Urn} {p : Path} {a : String} {fs : List String} {e : Envelope} {ns : List Int}
    (unnamed : IdentityField.ofPath? p = none) (plan : Plan.of? r u.entityType p = some (.local a fs))
    (aspect : s.aspect? u a = some e)
    (found : Path.walk e.value fs = ns.map fun n => .number (.int n)) : Integers r s u p ns
  | derived {u : Urn} {p : Path} {f : SystemField} {aspects : Aspects} {n : Int}
    (unnamed : IdentityField.ofPath? p = none) (plan : Plan.of? r u.entityType p = none)
    (field : SystemField.ofPath? p = some f) (entity : s.entity? u = some aspects)
    (known : r.has u.entityType = true)
    (time : f.derive (aspects.filter fun a => (r.aspectNames u.entityType).contains a.1) = some n) :
    Integers r s u p [n]
  | hop {u : Urn} {p rest : Path} {a : String} {fs ts : List String} {targets : List (Urn × List Int)}
    (unnamed : IdentityField.ofPath? p = none)
    (plan : Plan.of? r u.entityType p = some (.hop a fs ts rest))
    (present : ((textsAt s u a fs).filterMap Urn.ofText?).filter (fun t => (s.entity? t).isSome) =
      targets.map (·.1))
    (below : ∀ t ∈ targets, Integers r s t.1 rest t.2) : Integers r s u p (targets.flatMap (·.2))

/-- The values of a path with integers are their texts. -/
theorem valuesOf_integers {r : Registry} {s : Store} {u : Urn} {p : Path} {ns : List Int}
    (h : Integers r s u p ns) : valuesOf r s u p = ns.map toString := by
  induction h with
  | @stored u p a fs e ns unnamed plan aspect found =>
    rw [valuesOf_local unnamed plan, textsAt, aspect]
    dsimp only
    rw [Path.values, found, List.filterMap_map, ← List.filterMap_eq_map]
    exact List.filterMap_congr fun n _ => congrArg some (Number.text_int n)
  | derived unnamed plan field entity known time =>
    rw [valuesOf_time unnamed plan, timeOf, field, entity]
    dsimp only
    rw [if_pos known, time]
    rfl
  | @hop u p rest a fs ts targets unnamed plan present below ih =>
    have hfilter : ∀ l : List Urn, (l.flatMap fun t =>
        if (s.entity? t).isSome then valuesOf r s t rest else []) =
          (l.filter fun t => (s.entity? t).isSome).flatMap fun t => valuesOf r s t rest := by
      intro l
      induction l with
      | nil => rfl
      | cons t l ih =>
        rw [List.flatMap_cons, ih, List.filter_cons]
        split_ifs <;> simp
    rw [valuesOf_hop unnamed plan, hfilter, present, List.flatMap_map, List.map_flatMap]
    exact List.flatMap_congr fun t ht => ih t ht

end Resolution

/-! ### Integers of a rule -/

/-- The item of a document stands for the integer, as a number or as its text. -/
inductive Writes : Value → Int → Prop
  | number (n : Int) : Writes (.number (.int n)) n
  | text (n : Int) : Writes (.string (toString n)) n

/-- The literal of a rule stands for these integers: it is an item or an array of items. -/
inductive WritesAll : Value → List Int → Prop
  | item {v : Value} {n : Int} (writes : Writes v n) : WritesAll v [n]
  | array {vs : List Value} {ns : List Int} (writes : List.Forall₂ Writes vs ns) :
    WritesAll (.array vs) ns

theorem Writes.scalarText? {v : Value} {n : Int} (h : Writes v n) :
    scalarText? v = some (toString n) := by
  cases h with
  | number => exact congrArg some (Number.text_int n)
  | text => rfl

theorem stringList_integers {v : Value} {ns : List Int} (h : WritesAll v ns) (place : String) :
    stringList place v = .ok (ns.map toString) := by
  cases h with
  | @item v n writes =>
    cases writes with
    | number => exact congrArg (fun s => Except.ok [s]) (Number.text_int n)
    | text => rfl
  | @array vs ns writes =>
    have htexts : ∀ i, scalarTexts (.itemNotScalar place) i vs = .ok (ns.map toString) := by
      induction writes with
      | nil => exact fun _ => rfl
      | cons h _ ih =>
        intro i
        rw [scalarTexts, h.scalarText?]
        dsimp only
        rw [ih (i + 1)]
        rfl
    exact htexts 0

/-! ### Comparing -/

/-- The first integer is ordered before or behind the second one, as the operator asks. -/
def Operator.Orders : Operator → Int → Int → Prop
  | .greaterThan, n, m => m < n
  | .lessThan, n, m => n < m
  | _, _, _ => False

theorem toString_int_ne (n : Int) : toString n ≠ "" := by
  intro h
  have hchars := Numeral.toList_toString n
  rw [h, Numeral.intChars] at hchars
  split_ifs at hchars
  · cases hchars
  · exact Nat.toDigits_ne_nil hchars.symm

variable {op : Operator} {ns ms : List Int}

/-- **The operators order texts of integers by their doubles.** -/
theorem relates_iff (hop : op = .greaterThan ∨ op = .lessThan) {n m : Int}
    (hn : n.natAbs ≤ Word.bound) (hm : m.natAbs ≤ Word.bound) :
    op.Relates (toString n) (toString m) ↔ op.Orders n m ∧ ¬ SameDouble n m := by
  have hread (R : Double → Double → Prop) : (∃ x y, Numeral.ofText? (toString n) = some x ∧
      Numeral.ofText? (toString m) = some y ∧ R x y) ↔ R (Double.ofInt n) (Double.ofInt m) := by
    rw [Numeral.ofText?_toString hn, Numeral.ofText?_toString hm]
    simp
  have hsame : SameDouble m n ↔ SameDouble n m :=
    ⟨fun ⟨k, h, h'⟩ => ⟨k, h', h⟩, fun ⟨k, h, h'⟩ => ⟨k, h', h⟩⟩
  rcases hop with rfl | rfl
  · exact (hread fun x y => y < x).trans ((Double.ofInt_lt_ofInt m n).trans
      (and_congr_right fun _ => not_congr hsame))
  · exact (hread fun x y => x < y).trans (Double.ofInt_lt_ofInt n m)

theorem mem_nonempties_integers {s : String} :
    s ∈ nonempties (ns.map toString) ↔ ∃ n ∈ ns, toString n = s := by
  show (s ∈ ns.map toString ∧ s ≠ "") ↔ _
  rw [List.mem_map, and_iff_left_of_imp]
  rintro ⟨n, -, rfl⟩
  exact toString_int_ne n

open Predicate in
/-- A comparison of a property with a literal, given the integers of both. -/
theorem compares_iff (hop : op = .greaterThan ∨ op = .lessThan) {path name : String}
    {v : Valuation} (hv : v path = ns.map toString)
    (hrange : ∀ n ∈ ns ++ ms, n.natAbs ≤ Word.bound) :
    ∃ b, (Predicate.node op (leafOperands path [(name, ms.map toString)]) false).eval v = .ok b ∧
      (b = true ↔ ∃ n ∈ ns, ∃ m ∈ ms, op.Orders n m ∧ ¬ SameDouble n m) := by
  have hbinary : op.arity = .binary := by rcases hop with rfl | rfl <;> rfl
  obtain ⟨b, hb, hiff⟩ := applyOperator_binary hbinary (ns.map toString) (ms.map toString)
  have heval : (Predicate.node op (leafOperands path [(name, ms.map toString)]) false).eval v =
      .ok b := by
    simp only [leafOperands, literals, eval, evalOperands, hv, bind, Except.bind, hb]
    rw [Bool.bne_false]
  refine ⟨b, heval, hiff.trans ⟨?_, ?_⟩⟩
  · rintro ⟨_, hs, _, ht, hr⟩
    obtain ⟨n, hn, rfl⟩ := mem_nonempties_integers.mp hs
    obtain ⟨m, hm, rfl⟩ := mem_nonempties_integers.mp ht
    exact ⟨n, hn, m, hm, (relates_iff hop (hrange n (List.mem_append_left _ hn))
      (hrange m (List.mem_append_right _ hm))).mp hr⟩
  · rintro ⟨n, hn, m, hm, hr⟩
    exact ⟨_, mem_nonempties_integers.mpr ⟨n, hn, rfl⟩, _, mem_nonempties_integers.mpr ⟨m, hm, rfl⟩,
      (relates_iff hop (hrange n (List.mem_append_left _ hn))
        (hrange m (List.mem_append_right _ hm))).mpr hr⟩

/-- The rule that compares a property with a literal. -/
def comparison (op : Operator) (path name : String) (literal : Value) : Value :=
  .object (writtenFields op (some path) [(name, literal)])

theorem readRule_comparison (hop : op = .greaterThan ∨ op = .lessThan) {path name : String}
    (hpath : path ≠ "") {literal : Value} (hms : WritesAll literal ms) (place : String) :
    readRule (comparison op path name literal) place =
      .ok (.node op (Predicate.leafOperands path [(name, ms.map toString)]) false) := by
  have hread : List.Forall₂ Definition.ReadsAs [(name, literal)] [(name, ms.map toString)] :=
    .cons ⟨rfl, stringList_integers hms⟩ .nil
  refine (Definition.readRule_written hread).mpr ⟨path, rfl, hpath, ?_, rfl⟩
  rcases hop with rfl | rfl <;> rfl

/-- **Integers are compared by the doubles nearest to them.** A rule that compares a property with a
literal, where both stand for integers of 64 bits, is true exactly if some integer of the property
and some integer of the literal are ordered as the operator asks and do not round to the same double.
There is one double that an integer rounds to, and no two integers of at most `2⁵³` round to the same
one. -/
theorem compare_integers (r : Registry) (s : Store) (u : Urn)
    (hop : op = .greaterThan ∨ op = .lessThan) (path name : String) (hpath : path ≠ "")
    (hns : Resolution.Integers r s u (Path.ofText path) ns) (literal : Value)
    (hms : WritesAll literal ms)
    (hrange : ∀ n ∈ ns ++ ms, -(Word.half : Int) ≤ n ∧ n < Word.bound) :
    (∃ rule, (∀ place, readRule (comparison op path name literal) place = .ok rule) ∧
      ∀ us ps, u ∈ us → Path.ofText path ∈ ps → ∀ p : Platform, p.store = s →
        (p.outages = [] → ∃ res q, (resolve Evaluator.standard r us ps).run p = (.ok res, q)) ∧
        ∀ res q, (resolve Evaluator.standard r us ps).run p = (.ok res, q) →
          ∃ b, rule.eval (fun path => res.values u (Path.ofText path)) = .ok b ∧
            (b = true ↔ ∃ n ∈ ns, ∃ m ∈ ms, op.Orders n m ∧ ¬ SameDouble n m)) ∧
    (∀ n, ∃! m, Rounds n m) ∧
    ∀ n m : Int, |n| ≤ 2 ^ 53 → |m| ≤ 2 ^ 53 → SameDouble n m → n = m := by
  have hrange' : ∀ n ∈ ns ++ ms, n.natAbs ≤ Word.bound := by
    intro n hn
    obtain ⟨hlow, hhigh⟩ := hrange n hn
    have hhalf : Word.half ≤ Word.bound := by decide
    omega
  refine ⟨⟨_, readRule_comparison hop hpath hms, fun us ps hu hps p hp => ⟨fun ho => ?_, ?_⟩⟩, ?_,
    fun n m hn hm h => h.eq_of_abs_le hn hm⟩
  · obtain ⟨res, q, hrun, -, -⟩ := (looks_resolve r s us ps).gives hp ho
    exact ⟨res, q, hrun⟩
  · intro res q hrun
    obtain ⟨-, hanswers⟩ := (looks_resolve r s us ps).gave hp hrun
    have hvalues : res.values u (Path.ofText path) = ns.map toString := by
      rw [hanswers.asked ⟨hu, hps⟩, Resolution.valuesOf_integers hns]
    exact compares_iff hop (v := fun path => res.values u (Path.ofText path)) hvalues hrange'
  · intro n
    obtain ⟨m, hm, -⟩ := Double.rounds_ofInt n
    exact ⟨m, hm, fun k hk => hk.unique hm⟩

/-- Things have sizes. -/
def Registry.ofSizes : Registry := [("thing", ⟨"key", [("size", .plain)]⟩)]

/-- A thing with some sizes in bytes. -/
def Store.ofSizes (ns : List Int) : Store :=
  ⟨[(.thing, [("size", .ofValue (.object [("bytes", .array (ns.map fun n => .number (.int n)))]))])],
    []⟩

theorem integers_ofSizes (ns : List Int) :
    Resolution.Integers .ofSizes (.ofSizes ns) .thing (Path.ofText "size.bytes") ns := by
  have hfound : Path.walkItems (ns.map fun n => .number (.int n)) [] =
      ns.map fun n => .number (.int n) := by
    induction ns with
    | nil => rfl
    | cons n ns ih =>
      rw [List.map_cons, Path.walkItems, ih]
      rfl
  rw [show Path.ofText "size.bytes" = ["size", "bytes"] by decide +kernel]
  exact .stored (by decide +kernel) rfl rfl hfound

theorem compare_sizes :
    let literal : Value := .array [.number (.int 10), .string (toString (-3 : Int))]
    let p := Platform.ofStore (.ofSizes [-7, 12]) [] 0
    WritesAll literal [10, -3] ∧ ∃ rule res q,
      readRule (comparison .greaterThan "size.bytes" "values" literal) "rules" = .ok rule ∧
      (resolve Evaluator.standard .ofSizes [.thing] [Path.ofText "size.bytes"]).run p =
        (.ok res, q) ∧
      rule.eval (fun path => res.values .thing (Path.ofText path)) = .ok true := by
  intro literal p
  have hms : WritesAll literal [10, -3] := .array (.cons (.number 10) (.cons (.text (-3)) .nil))
  obtain ⟨⟨rule, hrule, hresolve⟩, -, hsmall⟩ := compare_integers .ofSizes (.ofSizes [-7, 12])
    .thing (.inl rfl) "size.bytes" "values" (by decide) (integers_ofSizes [-7, 12]) literal hms
    (by decide)
  obtain ⟨hok, heval⟩ := hresolve [.thing] [Path.ofText "size.bytes"] List.mem_cons_self
    List.mem_cons_self p rfl
  obtain ⟨res, q, hrun⟩ := hok rfl
  obtain ⟨b, hb, hiff⟩ := heval res q hrun
  have hless : (10 : Int) < 12 := by decide
  have htrue : b = true := hiff.mpr ⟨12, by decide, 10, by decide, hless, fun hsame =>
    absurd (hsmall 12 10 (by decide) (by decide) hsame) (by decide)⟩
  exact ⟨hms, rule, res, q, hrule "rules", hrun, htrue ▸ hb⟩

/-- **A greater integer that is not greater**: of `2⁵³` and the next integer both round to `2⁵³`. -/
theorem compare_neighbours :
    let n : Int := 9007199254740993
    let m : Int := 9007199254740992
    let literal : Value := .array [.number (.int m)]
    let p := Platform.ofStore (.ofSizes [n]) [] 0
    m < n ∧ WritesAll literal [m] ∧
      Resolution.Integers .ofSizes p.store .thing (Path.ofText "size.bytes") [n] ∧
      ∃ rule res q,
        readRule (comparison .greaterThan "size.bytes" "values" literal) "rules" = .ok rule ∧
        (resolve Evaluator.standard .ofSizes [.thing] [Path.ofText "size.bytes"]).run p =
          (.ok res, q) ∧
        rule.eval (fun path => res.values .thing (Path.ofText path)) = .ok false := by
  intro n m literal p
  have hms : WritesAll literal [m] := .array (.cons (.number m) .nil)
  have hns : Resolution.Integers .ofSizes p.store .thing (Path.ofText "size.bytes") [n] :=
    integers_ofSizes [n]
  have hround : Double.nearestUnits 9007199254740993 1 = 9007199254740992 ∧
      Double.nearestUnits 9007199254740992 1 = 9007199254740992 := by decide +kernel
  have hsame : SameDouble n m := by
    refine ⟨m, ?_, ?_⟩
    · have h := Double.rounds_nearestUnits 9007199254740993
      rwa [hround.1] at h
    · have h := Double.rounds_nearestUnits 9007199254740992
      rwa [hround.2] at h
  obtain ⟨res, q, hrun, -, hanswers⟩ := (looks_resolve .ofSizes p.store [.thing]
    [Path.ofText "size.bytes"]).gives (p := p) rfl rfl
  have hvalues : res.values .thing (Path.ofText "size.bytes") = [n].map toString := by
    rw [hanswers.asked ⟨List.mem_cons_self, List.mem_cons_self⟩, Resolution.valuesOf_integers hns]
  have hrange : ∀ k ∈ [n] ++ [m], k.natAbs ≤ Word.bound := by decide
  obtain ⟨b, hb, hiff⟩ := @compares_iff .greaterThan [n] [m] (.inl rfl) "size.bytes" "values"
    (fun path => res.values .thing (Path.ofText path)) hvalues hrange
  have hfalse : b = false := by
    refine Bool.eq_false_iff.mpr fun htrue => ?_
    obtain ⟨n', hn', m', hm', -, hdiffer⟩ := hiff.mp htrue
    rw [List.mem_singleton.mp hn', List.mem_singleton.mp hm'] at hdiffer
    exact hdiffer hsame
  exact ⟨by decide, hms, hns, _, res, q,
    readRule_comparison (.inl rfl) (by decide) hms "rules", hrun, hfalse ▸ hb⟩

end CatalogRules
