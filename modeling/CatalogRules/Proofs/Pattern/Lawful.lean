import CatalogRules.Pattern.Library
import Mathlib.Tactic.SplitIfs

/-! # Laws of expressions

What is documented of the syntax and of the matches of a library of regular expressions, as far as
it bears on anchored patterns (`LawfulLibrary`). A pattern that is pasted into a group may close that
group by a parenthesis of its own (`Overcloses`), and it may end in a comment that hides the text
behind it (`HidesClosing`). It follows from the laws that there is nothing else: a pattern whose
anchored form can be read can be read alone or closes the group (`read_or_overcloses`), its anchored
form occurs in the texts that it matches as a whole (`occurs_iff`), and a pattern that can be read
alone can be read in its anchored form unless it hides the closing text or exceeds the limits there
(`hidesClosing_or_not_fits`). -/

namespace CatalogRules.Pattern

open Library (Expression parse excess? occursIn Matches)

/-- **What is documented of a library of regular expressions.** -/
class LawfulLibrary [Library] : Prop where
  /-- An expression occurs in a text if some part of it is a match. -/
  occursIn_iff : ∀ {e : Expression} {text : String},
    occursIn e text = true ↔ ∃ i j, Matches e text i j
  /-- The mark for the start of a text matches nothing but that place. -/
  start : ∃ e, parse "^" = .ok e ∧ ∀ {text : String} {i j : Nat},
    Matches e text i j ↔ i = 0 ∧ j = 0
  /-- The mark for the end of a text matches nothing but that place. -/
  finish : ∃ e, parse "$" = .ok e ∧ ∀ {text : String} {i j : Nat},
    Matches e text i j ↔ i = text.length ∧ j = text.length
  /-- What stands in a row matches in a row, and a group as what is in it. -/
  row : ∀ {pattern : String} {s e f a : Expression}, parse "^" = .ok s → parse pattern = .ok e →
    parse "$" = .ok f → parse (anchored pattern) = .ok a → ∀ {text : String} {i j : Nat},
      Matches a text i j ↔ ∃ k l, Matches s text i k ∧ Matches e text k l ∧ Matches f text l j
  /-- What is in a group is an expression up to the parenthesis that closes the group. -/
  group : ∀ {pattern : String} {a : Expression} {fault : SyntaxFault},
    parse (anchored pattern) = .ok a → parse pattern = .error fault → fault = .unopened
  /-- An expression can be put into a group, unless a comment at its end hides what follows. -/
  comment : ∀ {pattern : String} {e : Expression} {fault : SyntaxFault},
    parse pattern = .ok e → parse (anchored pattern) = .error fault →
      ∃ e', parse (pattern ++ ")$") = .ok e'
  /-- What is within the limits in a group is within the limits alone. -/
  limits : ∀ {pattern : String} {e a : Expression}, parse pattern = .ok e →
    parse (anchored pattern) = .ok a → excess? a = none → excess? e = none

variable [Library]

/-- Reading the pattern meets a closing parenthesis while no group of the pattern is open. -/
def Overcloses (pattern : String) : Prop := parse pattern = .error .unopened

/-- The pattern can be read alone and with the closing text behind it, which a comment hides. -/
def HidesClosing (pattern : String) : Prop :=
  (∃ e, parse pattern = .ok e) ∧ ∃ e, parse (pattern ++ ")$") = .ok e

/-- The marks and the group around a pattern leave it within the limits. -/
def Fits (pattern : String) : Prop := ∀ a, parse (anchored pattern) = .ok a → excess? a = none

/-- The pattern can be read alone, and it matches a text from the first character to the last. -/
def MatchesWhole (pattern text : String) : Prop :=
  ∃ e, read pattern = .ok e ∧ Matches e text 0 text.length

/-- The anchored form of a pattern occurs in a text. -/
def Occurs (pattern text : String) : Prop :=
  ∃ e, readAnchored pattern = .ok e ∧ occursIn e text = true

variable {pattern text : String} {e a : Expression}

theorem read_eq_ok : read pattern = .ok e ↔ parse pattern = .ok e ∧ excess? e = none := by
  unfold read
  rcases parse pattern with fault | e'
  · simp
  · dsimp only
    cases h : excess? e' with
    | some fault =>
      refine ⟨nofun, ?_⟩
      rintro ⟨⟨⟩, hnone⟩
      rw [h] at hnone
      cases hnone
    | none =>
      dsimp only
      refine ⟨?_, fun hread => congrArg Except.ok (Except.ok.inj hread.1)⟩
      rintro ⟨⟩
      exact ⟨rfl, h⟩

theorem readAnchored_eq_ok :
    readAnchored pattern = .ok a ↔ parse (anchored pattern) = .ok a ∧ excess? a = none :=
  read_eq_ok

theorem not_overcloses_of_read (h : read pattern = .ok e) : ¬ Overcloses pattern := by
  unfold Overcloses
  rw [(read_eq_ok.mp h).1]
  nofun

section
variable [LawfulLibrary]

/-- The anchored form of an expression matches nothing but a whole text. -/
theorem matches_anchored_iff {i j : Nat} (he : parse pattern = .ok e)
    (ha : parse (anchored pattern) = .ok a) :
    Matches a text i j ↔ i = 0 ∧ j = text.length ∧ Matches e text 0 text.length := by
  obtain ⟨s, hs, hstart⟩ := LawfulLibrary.start
  obtain ⟨f, hf, hfinish⟩ := LawfulLibrary.finish
  rw [LawfulLibrary.row hs he hf ha]
  simp only [hstart, hfinish]
  constructor
  · rintro ⟨k, l, ⟨rfl, rfl⟩, hmatches, rfl, rfl⟩
    exact ⟨rfl, rfl, hmatches⟩
  · rintro ⟨rfl, rfl, hmatches⟩
    exact ⟨0, text.length, ⟨rfl, rfl⟩, hmatches, rfl, rfl⟩

/-- **A pattern that can be read in its anchored form can be read alone, unless it closes the group
around it.** -/
theorem read_or_overcloses (h : readAnchored pattern = .ok a) :
    (∃ e, read pattern = .ok e) ∨ Overcloses pattern := by
  obtain ⟨ha, hfits⟩ := readAnchored_eq_ok.mp h
  cases he : parse pattern with
  | ok e => exact .inl ⟨e, read_eq_ok.mpr ⟨he, LawfulLibrary.limits he ha hfits⟩⟩
  | error fault =>
    obtain rfl := LawfulLibrary.group ha he
    exact .inr he

/-- **If the anchored form of a pattern can be read, it occurs in the texts that the pattern matches
as a whole, and in others only if the pattern closes the group around it.** -/
theorem occurs_iff (h : readAnchored pattern = .ok a) (text : String) :
    Occurs pattern text ↔
      MatchesWhole pattern text ∨ Overcloses pattern ∧ Occurs pattern text := by
  -- a pattern that can be read alone occurs in its anchored form where it matches the whole text
  have hwhole : ∀ e, read pattern = .ok e →
      (occursIn a text = true ↔ Matches e text 0 text.length) := by
    intro e he
    rw [LawfulLibrary.occursIn_iff]
    simp only [matches_anchored_iff (read_eq_ok.mp he).1 (readAnchored_eq_ok.mp h).1,
      exists_and_left, exists_eq_left]
  constructor
  · rintro ⟨a', ha', hoccurs⟩
    obtain rfl : a' = a := Except.ok.inj (ha'.symm.trans h)
    rcases read_or_overcloses h with ⟨e, he⟩ | hclose
    · exact .inl ⟨e, he, (hwhole e he).mp hoccurs⟩
    · exact .inr ⟨hclose, a', ha', hoccurs⟩
  · rintro (⟨e, he, hmatches⟩ | ⟨-, hoccurs⟩)
    · exact ⟨a, h, (hwhole e he).mpr hmatches⟩
    · exact hoccurs

/-- **A pattern that can be read alone can be read in its anchored form, unless it hides the closing
text or is beyond the limits there.** -/
theorem hidesClosing_or_not_fits (h : read pattern = .ok e)
    (hanchored : ∀ a, readAnchored pattern ≠ .ok a) : HidesClosing pattern ∨ ¬ Fits pattern := by
  have he := (read_eq_ok.mp h).1
  cases ha : parse (anchored pattern) with
  | error fault => exact .inl ⟨⟨e, he⟩, LawfulLibrary.comment he ha⟩
  | ok a => exact .inr fun hfits => hanchored a (readAnchored_eq_ok.mpr ⟨ha, hfits a ha⟩)

end

end CatalogRules.Pattern
