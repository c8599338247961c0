import CatalogRules.Text.Folding

/-! # Character classes

A class is an expression over ranges and named sets of code points. Membership is defined by
recursion on the expression; a caseless class has every character of whose case variants one
belongs to the class. -/

namespace CatalogRules.Pattern

/-- A class of code points. -/
inductive CharClass where
  | empty
  | range (low high : Nat)
  | named (member : Nat → Bool)
  | union (a b : CharClass)
  | inter (a b : CharClass)
  | diff (a b : CharClass)
  | symm (a b : CharClass)
  | negate (a : CharClass)
  | caseless (a : CharClass)
  | caselessAscii (a : CharClass)

namespace CharClass

/-- The other case of an ASCII letter. -/
def otherCase (n : Nat) : Nat :=
  if 65 ≤ n ∧ n ≤ 90 then n + 32 else if 97 ≤ n ∧ n ≤ 122 then n - 32 else n

/-- A code point belongs to a class. -/
def mem : CharClass → Nat → Bool
  | .empty, _ => false
  | .range low high, n => low ≤ n && n ≤ high
  | .named p, n => p n
  | .union a b, n => a.mem n || b.mem n
  | .inter a b, n => a.mem n && b.mem n
  | .diff a b, n => a.mem n && !b.mem n
  | .symm a b, n => a.mem n != b.mem n
  | .negate a, n => !a.mem n
  | .caseless a, n => (Text.Folding.orbit n).any a.mem
  | .caselessAscii a, n => a.mem n || a.mem (otherCase n)

/-- The class of one code point. -/
def single (n : Nat) : CharClass := .range n n

/-- The class of the code points in one of the ranges. -/
def ofRanges (ranges : List (Nat × Nat)) : CharClass :=
  ranges.foldr (fun r c => .union (.range r.1 r.2) c) .empty

/-- The class or its complement. -/
def negateIf (negated : Bool) (c : CharClass) : CharClass := if negated then .negate c else c

end CharClass
end CatalogRules.Pattern
