import CatalogRules.Decimal.Extended

/-! # TOML values

The values of a TOML document; dates and times are kept as their texts. -/

namespace CatalogRules.Toml

/-- A value. -/
inductive Value where
  | string (s : String)
  | integer (n : Int)
  | float (x : Extended)
  | boolean (b : Bool)
  | array (items : List Value)
  | table (fields : List (String × Value))
  deriving Repr, Inhabited

namespace Value

/-- The fields of a table; other values have none. -/
def fields : Value → List (String × Value)
  | .table fs => fs
  | _ => []

/-- The value at the end of a path through tables. -/
def get? : List String → Value → Option Value
  | [], v => some v
  | k :: ks, v => (v.fields.lookup k).bind (get? ks)

end Value
end CatalogRules.Toml
