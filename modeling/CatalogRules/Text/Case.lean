/-! # Letter case

Names of operators, action kinds and verdict words are compared without regard to the case of the
ASCII letters; all other characters must be equal. -/

namespace CatalogRules.Text

/-- Equality up to the case of ASCII letters. -/
def sameIgnoringCase (a b : String) : Bool :=
  a.toList.map Char.toLower == b.toList.map Char.toLower

end CatalogRules.Text
