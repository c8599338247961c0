import CatalogRules.Proofs.Definition.Accepted
import CatalogRules.Proofs.Pattern.Anchored
import CatalogRules.Proofs.Predicate.Meaning

/-! # Patterns that match whole values

A leaf with `REGEX_MATCH` in a definition that was read compares a property with patterns whose
anchored forms can all be read (`regexMatch_leaf`). It asks for a value that is matched as a whole
by a pattern that can be read alone; what else it accepts and matches comes from patterns that close
the group around them (`regexMatch_matches_whole`, `overclosing_matches_part`). This holds for every
library of regular expressions that keeps to the laws of expressions.

A leaf whose patterns can all be read alone is refused for its patterns only if one of them hides
the closing text in a comment, or is beyond the limits between the marks. -/

namespace CatalogRules

open Pattern (LawfulLibrary Overcloses HidesClosing Fits MatchesWhole Occurs readAnchored)
open Predicate (Valuation checkOperands patternsOf propertyName)

namespace Predicate

/-! ### Checked patterns -/

section
variable [Pattern.Library]

theorem checkPatterns_ok {patterns : List String} :
    checkPatterns patterns = .ok () ↔ ∀ P ∈ patterns, ∃ r, readAnchored P = .ok r := by
  induction patterns with
  | nil => simp [checkPatterns]
  | cons P patterns ih =>
    unfold checkPatterns
    cases hP : readAnchored P with
    | error fault => simp [hP]
    | ok r => simp [hP, ih]

/-- The first pattern whose anchored form can not be read is reported. -/
theorem of_checkPatterns_error {patterns : List String} {fault : OperandFault}
    (h : checkPatterns patterns = .error fault) :
    ∃ P ∈ patterns, ∀ r, readAnchored P ≠ .ok r := by
  by_contra! hall
  have hok : checkPatterns patterns = .ok () := checkPatterns_ok.mpr hall
  rw [hok] at h
  cases h

omit [Pattern.Library] in
theorem checkTypes_error {op : Operator} {t : ValueType} {fault : OperandFault} :
    ∀ {xs : List (Operand Predicate)}, checkTypes op t xs = .error fault →
      ∃ i type, fault.cause = .type i t type
  | [], h => by cases h
  | x :: xs, h => by
    unfold checkTypes at h
    split_ifs at h
    · exact checkTypes_error h
    · cases h
      exact ⟨_, _, rfl⟩

/-- Operands are refused for a pattern only if its anchored form can not be read. -/
theorem of_checkOperands_pattern {op op' : Operator} {xs : List (Operand Predicate)} {text : String}
    {fault : Pattern.Fault} (h : checkOperands op xs = .error ⟨op', .pattern text fault⟩) :
    ∃ P ∈ patternsOf xs, ∀ r, readAnchored P ≠ .ok r := by
  have hcount : ∀ n, checkCount op n xs ≠ .error ⟨op', .pattern text fault⟩ := by
    intro n hn
    unfold checkCount at hn
    split_ifs at hn
    cases hn
  have htypes : ∀ t, checkTypes op t xs ≠ .error ⟨op', .pattern text fault⟩ := by
    intro t ht
    obtain ⟨_, _, hcause⟩ := checkTypes_error ht
    cases hcause
  unfold checkOperands at h
  split at h
  · split_ifs at h
    · cases h
    · exact absurd h (htypes _)
  · next type _ =>
    rcases hc : checkCount op 1 xs with e | _
    · rw [hc] at h
      exact absurd (hc.trans h) (hcount 1)
    · rw [hc] at h
      exact absurd h (htypes type)
  · rcases hc : checkCount op 2 xs with e | _
    · rw [hc] at h
      exact absurd (hc.trans h) (hcount 2)
    rcases ht : checkTypes op .strings xs with e | _
    · rw [hc, ht] at h
      exact absurd (ht.trans h) (htypes .strings)
    rw [hc, ht] at h
    dsimp only [bind, Except.bind] at h
    split_ifs at h
    · exact of_checkPatterns_error h

/-- A leaf with `REGEX_MATCH` compares a property with patterns whose anchored forms can be read. -/
theorem regexMatch_leaf {q : Predicate} (h : q.Accepted) (hop : q.operator = .regexMatch) :
    ∃ path name patterns, q.operands = [⟨0, some propertyName, .property path⟩,
        ⟨1, some name, .strings patterns⟩] ∧
      ∀ P ∈ patterns, ∃ r, readAnchored P = .ok r := by
  cases h with
  | @leaf op path params n nonempty distinct fit =>
    obtain rfl : op = .regexMatch := hop
    obtain ⟨⟨name, patterns⟩, rfl⟩ : ∃ p, params = [p] := by
      have haccepts := accepts_of_checkOperands fit
      rcases params with _ | ⟨p, _ | _⟩
      · cases haccepts
      · exact ⟨p, rfl⟩
      · simp [Arity.Accepts, Operator.arity, leafOperands, literals] at haccepts
    refine ⟨path, name, patterns, rfl, checkPatterns_ok.mp ?_⟩
    exact fit
  | @logical op ps n fit below =>
    obtain rfl : op = .regexMatch := hop
    rcases logical_of_compose fit with ⟨hand | hor, -⟩ | ⟨hnot, -⟩
    · cases hand
    · cases hor
    · cases hnot

/-- Such a leaf asks for a value in which some anchored form occurs. -/
theorem eval_regexMatch {q : Predicate} {path name : String} {patterns : List String}
    (hop : q.operator = .regexMatch) (hoperands : q.operands =
      [⟨0, some propertyName, .property path⟩, ⟨1, some name, .strings patterns⟩])
    (v : Valuation) : ∃ b, q.eval v = .ok (b != q.negated) ∧ (b = true ↔
      ∃ s ∈ v path, s ≠ "" ∧ ∃ P ∈ patterns, P ≠ "" ∧ Occurs P s) := by
  obtain ⟨op, xs, n⟩ := q
  obtain rfl : op = .regexMatch := hop
  obtain rfl : xs = _ := hoperands
  refine ⟨anyMatch (v path) patterns, rfl, anyMatch_iff.trans ?_⟩
  simp only [nonempties, Set.mem_ofPred_eq, and_assoc]
  rfl

end

end Predicate

/-- **A leaf with `REGEX_MATCH` in a definition that was read is about patterns that can be read
alone, unless they close the group around them; without the mark it is true exactly if a value that
is not empty is matched as a whole by a pattern that is not empty, or a pattern that closes the
group around it occurs there. A leaf whose patterns can all be read alone is refused for a pattern
only if one of them hides the closing text or does not fit between the marks.** -/
theorem regexMatch_matches_whole [Pattern.Library] [LawfulLibrary] (id text : String)
    (op : Operator) (xs : List (Operand Predicate)) :
    (∀ d, Definition.read id text = .ok d →
      ∀ rule, (rule = d.rules ∨ d.conditions = some rule) →
      ∀ q ∈ rule.nodes, q.operator = .regexMatch →
        ∃ path name patterns, q.operands = [⟨0, some propertyName, .property path⟩,
            ⟨1, some name, .strings patterns⟩] ∧
          (∀ P ∈ patterns, (∃ r, Pattern.read P = .ok r) ∨ Overcloses P) ∧
          ∀ v, ∃ b, q.eval v = .ok (b != q.negated) ∧ (b = true ↔
            ∃ s ∈ v path, s ≠ "" ∧ ∃ P ∈ patterns, P ≠ "" ∧
              (MatchesWhole P s ∨ Overcloses P ∧ Occurs P s))) ∧
    ((∀ P ∈ patternsOf xs, ∃ r, Pattern.read P = .ok r) →
      (∃ op' P fault, checkOperands op xs = .error ⟨op', .pattern P fault⟩) →
      ∃ P ∈ patternsOf xs, HidesClosing P ∨ ¬ Fits P) := by
  refine ⟨fun d hread rule hrule q hq hop => ?_, fun hvalid hrefused => ?_⟩
  · have hd : d.Accepted := (Definition.accepted_read hread).2
    have hrule' : rule.Accepted := by
      rcases hrule with rfl | hcond
      · exact hd.rules
      · exact hd.conditions rule hcond
    obtain ⟨path, name, patterns, hoperands, hpatterns⟩ :=
      Predicate.regexMatch_leaf (hrule'.of_mem_nodes hq) hop
    refine ⟨path, name, patterns, hoperands, fun P hP => ?_, fun v => ?_⟩
    · obtain ⟨r, hr⟩ := hpatterns P hP
      exact Pattern.read_or_overcloses hr
    · obtain ⟨b, hb, hiff⟩ := Predicate.eval_regexMatch hop hoperands v
      refine ⟨b, hb, hiff.trans ?_⟩
      refine exists_congr fun s => and_congr_right fun _ => and_congr_right fun _ =>
        exists_congr fun P => and_congr_right fun hP => and_congr_right fun _ => ?_
      obtain ⟨r, hr⟩ := hpatterns P hP
      exact Pattern.occurs_iff hr s
  · obtain ⟨op', text, fault, hfault⟩ := hrefused
    obtain ⟨P, hP, hne⟩ := Predicate.of_checkOperands_pattern hfault
    obtain ⟨r, hr⟩ := hvalid P hP
    exact ⟨P, hP, Pattern.hidesClosing_or_not_fits hr hne⟩

/-- A definition for the things whose name is matched by one of some patterns. -/
def namedLike (pattern : String) : String :=
  "\x7b\"on\": \x7b\"types\": [\"thing\"]\x7d, \"rules\": \x7b\"property\": \"name\",
    \"operator\": \"regex_match\", \"values\": [\"" ++ pattern ++ "\"]\x7d\x7d"

/-- The texts of the operands of a leaf. -/
def Predicate.texts (q : Predicate) : List (List String) :=
  q.operands.map fun x => match x.expression with
    | .property path => [path]
    | .strings values => values
    | .nested _ => []

/-- A repeated letter is matched as a whole, a part of a value is not enough, and a comment hides
the closing text. -/
theorem repeated_matches_whole :
    (∃ d, Definition.read "like" (namedLike "a|b+") = .ok d ∧ d.rules.operator = .regexMatch) ∧
      MatchesWhole "a|b+" "bb" ∧ ¬ MatchesWhole "a|b+" "xb" ∧
      (∃ r, Pattern.read "(?x)a#" = .ok r) ∧ HidesClosing "(?x)a#" := by
  have hread : (Definition.read "like" (namedLike "a|b+")).toOption.map (fun d =>
      (d.rules.operator, d.rules.negated, d.rules.texts, (d.rules.eval fun _ => ["bb"]).toOption,
        (d.rules.eval fun _ => ["xb"]).toOption)) =
      some (.regexMatch, false, [["name"], ["a|b+"]], some true, some false) := by decide +kernel
  have hread' : ∀ P, (Pattern.read P).toOption.isSome = true → ∃ r, Pattern.read P = .ok r := by
    intro P hP
    obtain ⟨r, hr⟩ := Option.isSome_iff_exists.mp hP
    exact ⟨r, toOption_eq_some.mp hr⟩
  have hclose : ¬ Overcloses "a|b+" := by
    obtain ⟨r, hr⟩ := hread' "a|b+" (by decide +kernel)
    exact Pattern.not_overcloses_of_read hr
  obtain ⟨d, hd, hfields⟩ := Option.map_eq_some_iff.mp hread
  simp only [Prod.mk.injEq, toOption_eq_some] at hd hfields
  obtain ⟨hop, hmark, htexts, hbb, hxb⟩ := hfields
  have hmem : d.rules ∈ d.rules.nodes := by
    cases d.rules
    exact List.mem_cons_self
  obtain ⟨hleaf, hrefusal⟩ := regexMatch_matches_whole "like" (namedLike "a|b+") .regexMatch
    (Predicate.compare .regexMatch "name" ["(?x)a#"]).operands
  obtain ⟨path, name, patterns, hoperands, -, heval⟩ :=
    hleaf d hd d.rules (.inl rfl) d.rules hmem hop
  obtain ⟨rfl, rfl⟩ : path = "name" ∧ patterns = ["a|b+"] := by
    simpa [Predicate.texts, hoperands] using htexts
  have hwhole : ∀ s b, s ≠ "" → d.rules.eval (fun _ => [s]) = .ok b →
      (b = true ↔ MatchesWhole "a|b+" s) := by
    intro s b hs hb
    obtain ⟨b', hb', hiff⟩ := heval fun _ => [s]
    rw [hb, hmark, Bool.bne_false] at hb'
    obtain rfl := Except.ok.inj hb'
    have hpattern : "a|b+" ≠ "" := by decide
    simpa only [List.mem_singleton, exists_eq_left, hs, hpattern, ne_eq, not_false_eq_true,
      true_and, hclose, false_and, or_false] using hiff
  have hvalid : ∃ r, Pattern.read "(?x)a#" = .ok r := hread' "(?x)a#" (by decide +kernel)
  have hrefused : ∃ op P fault, checkOperands .regexMatch
      (Predicate.compare .regexMatch "name" ["(?x)a#"]).operands =
        .error ⟨op, .pattern P fault⟩ :=
    ⟨.regexMatch, "(?x)a#", .malformed, by decide +kernel⟩
  obtain ⟨P, hP, hhides⟩ := hrefusal (fun P hP => by
    rw [List.mem_singleton.mp hP]
    exact hvalid) hrefused
  obtain rfl : P = "(?x)a#" := List.mem_singleton.mp hP
  have hfits : Fits "(?x)a#" := by
    have hnone : (Pattern.Library.parse (Pattern.anchored "(?x)a#")).toOption.isNone = true := by
      decide +kernel
    intro a ha
    rw [ha] at hnone
    cases hnone
  exact ⟨⟨d, hd, hop⟩, (hwhole "bb" true (by decide) hbb).mp rfl,
    fun h => Bool.false_ne_true ((hwhole "xb" false (by decide) hxb).mpr h), hvalid,
    hhides.resolve_right (not_not.mpr hfits)⟩

/-- **A pattern that closes the group around it is accepted though it can not be read alone, and a
part of a value is enough for it.** -/
theorem overclosing_matches_part :
    (∃ d, Definition.read "like" (namedLike "a)|(?:b") = .ok d ∧ d.rules.operator = .regexMatch ∧
      d.rules.texts = [["name"], ["a)|(?:b"]] ∧ d.rules.eval (fun _ => ["ax"]) = .ok true) ∧
    ∀ r, Pattern.read "a)|(?:b" ≠ .ok r := by
  have hread : (Definition.read "like" (namedLike "a)|(?:b")).toOption.map (fun d =>
      (d.rules.operator, d.rules.texts, (d.rules.eval fun _ => ["ax"]).toOption)) =
      some (.regexMatch, [["name"], ["a)|(?:b"]], some true) := by decide +kernel
  have hnone : (Pattern.read "a)|(?:b").toOption.isNone = true := by decide +kernel
  refine ⟨?_, fun r hr => ?_⟩
  · obtain ⟨d, hd, hfields⟩ := Option.map_eq_some_iff.mp hread
    obtain ⟨hop, hrest⟩ := Prod.mk.inj hfields
    obtain ⟨htexts, heval⟩ := Prod.mk.inj hrest
    exact ⟨d, toOption_eq_some.mp hd, hop, htexts, toOption_eq_some.mp heval⟩
  · rw [hr] at hnone
    cases hnone

end CatalogRules
