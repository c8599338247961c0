import CatalogRules.Resolution.Plan

/-! # Validating paths

Whether a path can be resolved on the entities of some types is decided from the registry alone. A
path that hops is valid if its rest is valid on some type that the reference may lead to. -/

namespace CatalogRules

/-- The problems that were found; there are none in something valid. -/
structure Validation where
  valid : Bool
  messages : List String
  deriving DecidableEq, Repr

namespace Validation

/-- No problem. -/
def ok : Validation := ⟨true, []⟩

/-- A single problem. -/
def problem (message : String) : Validation := ⟨false, [message]⟩

/-- The problems of both. -/
def merge (a b : Validation) : Validation := ⟨a.valid && b.valid, a.messages ++ b.messages⟩

/-- The problems of all. -/
def all (vs : List Validation) : Validation := vs.foldl merge ok

end Validation

namespace Path

/-- The validation of a plan, given the validation of rests on a target type. -/
def validatePlan (validate : Path → String → Validation) (entityType : String) (p : Path) :
    Option Plan → Validation
  | none => .problem (s!"实体类型 '{entityType}' 没有切面 '" ++ p.headD "" ++ "'")
  | some (.local _ _) => .ok
  | some (.hop _ _ targets rest) =>
    if targets.any fun t => (validate rest t).valid then .ok
    else .problem <| "属性路径 '" ++ p.text ++ "' 的剩余部分 '" ++ rest.text ++ "' 无法在引用目标 [" ++
      String.intercalate ", " targets ++ "] 上解析"

/-- The validation of a path by one evaluator. -/
def validateBy (r : Registry) (validate : Path → String → Validation) (entityType : String)
    (p : Path) : Evaluator → Validation
  | .identity => .ok
  | .system => .ok
  | .aspect => validatePlan validate entityType p (Plan.of? r entityType p)

/-- The validation of a path on some entity types, with a bound on the number of hops. -/
def validateWithin (evs : List Evaluator) (r : Registry) :
    Nat → Path → List String → Validation
  | 0, _, _ => .ok
  | fuel + 1, p, types =>
    if p.contains "" then .problem ("属性路径 '" ++ p.text ++ "' 含有空段")
    else .all <| types.map fun t =>
      match Evaluator.firstEligible r t p evs with
      | some e => validateBy r (fun rest t => validateWithin evs r fuel rest [t]) t p e
      | none => .problem (s!"实体类型 '{t}' 无法解析属性路径 '" ++ p.text ++ "'")

/-- The validation of a path on some entity types, each of which it must be resolvable on. -/
def validate (evs : List Evaluator) (r : Registry) (p : Path) (types : List String) : Validation :=
  validateWithin evs r (p.length + 1) p types

end Path
end CatalogRules
