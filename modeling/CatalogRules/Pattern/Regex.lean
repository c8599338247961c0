import CatalogRules.Pattern.CharClass
import CatalogRules.Text.Property

/-! # Regular expressions

An expression is built over atoms, each of which reads one character or asserts something about the
place between two characters. A match begins at a place of a text and ends at one (`Regex.Matches`).
For a given text an expression acts on sets of places: `reach` gives the places at which a match can
end that began at one of the given places. A set of places is a number whose binary digit `i` tells
whether the place before character `i` belongs to the set.

A repetition needs at most as many rounds as the text has characters, plus one: a round that reads
nothing adds no place. -/

namespace CatalogRules.Pattern

/-- What may be asserted about a place. -/
inductive Look where
  | startText | endText
  | startLine (crlf : Bool) | endLine (crlf : Bool)
  | wordBoundary (unicode : Bool) | noWordBoundary (unicode : Bool)
  | wordStart (unicode : Bool) | wordEnd (unicode : Bool)
  | wordStartHalf (unicode : Bool) | wordEndHalf (unicode : Bool)
  deriving DecidableEq, Repr

/-- An atom reads a character of a class or asserts something about the place. -/
inductive Atom where
  | char (c : CharClass)
  | look (l : Look)

/-- A regular expression over atoms. -/
inductive Regex (α : Type) where
  | empty
  | atom (a : α)
  | seq (r s : Regex α)
  | alt (r s : Regex α)
  | times (r : Regex α) (least : Nat) (most : Option Nat)

/-- A character of a word, also in the restriction to ASCII; there is none outside of the text. -/
def isWordAt (unicode : Bool) : Option Char → Bool
  | none => false
  | some c => Text.isWord c.toNat && (unicode || c.toNat < 128)

/-- The assertion holds between the given neighbours. -/
def Look.holds (l : Look) (before after : Option Char) : Bool :=
  match l with
  | .startText => before.isNone
  | .endText => after.isNone
  | .startLine crlf =>
    before.isNone || before == some '\n' || (crlf && before == some '\r' && after != some '\n')
  | .endLine crlf =>
    if crlf then after.isNone || after == some '\r' || (after == some '\n' && before != some '\r')
    else after.isNone || after == some '\n'
  | .wordBoundary u => isWordAt u before != isWordAt u after
  | .noWordBoundary u => isWordAt u before == isWordAt u after
  | .wordStart u => !isWordAt u before && isWordAt u after
  | .wordEnd u => isWordAt u before && !isWordAt u after
  | .wordStartHalf u => !isWordAt u before
  | .wordEndHalf u => !isWordAt u after

/-- The place to which an atom leads from a place of a text. -/
def Atom.next? (text : Array Char) (place : Nat) : Atom → Option Nat
  | .char c =>
    match text[place]? with
    | some x => if c.mem x.toNat then some (place + 1) else none
    | none => none
  | .look l =>
    let before := if place = 0 then none else text[place - 1]?
    if l.holds before text[place]? then some place else none

/-- A relation between places a number of times in a row. -/
def Iterates (R : Nat → Nat → Prop) : Nat → Nat → Nat → Prop
  | 0, i, j => i = j
  | n + 1, i, j => ∃ k, R i k ∧ Iterates R n k j

/-- At least some number of rounds, and as many more as a bound leaves. -/
def Repeats (R : Nat → Nat → Prop) (least : Nat) (most : Option Nat) (i j : Nat) : Prop :=
  ∃ n, (∀ m, most = some m → n ≤ m - least) ∧ Iterates R (least + n) i j

namespace Regex

/-- A match of an expression from the one place of a text to the other. -/
def Matches (text : Array Char) : Regex Atom → Nat → Nat → Prop
  | .empty, i, j => i = j
  | .atom a, i, j => a.next? text i = some j
  | .seq r s, i, j => ∃ k, r.Matches text i k ∧ s.Matches text k j
  | .alt r s, i, j => r.Matches text i j ∨ s.Matches text i j
  | .times r least most, i, j => Repeats (r.Matches text) least most i j

/-- The places to which a function leads from the places of a set, whose number is bounded. -/
def image (f : Nat → Option Nat) : Nat → Nat → Nat
  | 0, _ => 0
  | fuel + 1, s =>
    if s = 0 then 0
    else
      let place := s.log2
      let rest := image f fuel (s - Nat.pow 2 place)
      match f place with
      | some next => rest ||| Nat.pow 2 next
      | none => rest

/-- Applies a function a number of times, as long as places are left. -/
def rounds (f : Nat → Nat) : Nat → Nat → Nat
  | 0, s => s
  | k + 1, s => if s = 0 then 0 else rounds f k (f s)

/-- The places reached from `fresh` in at most the given number of rounds, with those seen. -/
def spread (f : Nat → Nat) : Nat → Nat → Nat → Nat
  | 0, _, seen => seen
  | k + 1, fresh, seen =>
    let next := (f fresh ||| seen) ^^^ seen
    if next = 0 then seen else spread f k next (seen ||| next)

/-- The places at which a match ends that begins at one of the given places. -/
def reach (text : Array Char) : Regex Atom → Nat → Nat
  | .empty, s => s
  | .atom a, s => image (fun place => a.next? text place) (text.size + 1) s
  | .seq r t, s => reach text t (reach text r s)
  | .alt r t, s => reach text r s ||| reach text t s
  | .times r least most, s =>
    let start := rounds (reach text r) (min least (text.size + 1)) s
    let more := match most with
      | none => text.size + 1
      | some m => min (m - least) (text.size + 1)
    spread (reach text r) more start start

/-- The expression matches some part of the text. -/
def occursIn (r : Regex Atom) (text : List Char) : Bool :=
  reach text.toArray r (Nat.pow 2 (text.length + 1) - 1) != 0

end Regex
end CatalogRules.Pattern
