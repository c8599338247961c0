/-! # Machine words

The bounds of whole numbers of 64 bits, without sign and with it. -/

namespace CatalogRules.Word

/-- Numbers without sign are below this bound. -/
def bound : Nat := Nat.pow 2 64

/-- Numbers with sign are below this bound, and their negatives do not exceed it. -/
def half : Nat := Nat.pow 2 63

/-- The sum of two words, if it is a word; else the program stops with a message. -/
def add? (m n : Nat) : Option Nat := if m + n < bound then some (m + n) else none

/-- The message with which the program stops at a sum that is no word. -/
def overflow : String := "attempt to add with overflow"

/-- The number fits into a word with sign. -/
def isSigned (n : Int) : Bool := -(half : Int) ≤ n && n < half

end CatalogRules.Word
