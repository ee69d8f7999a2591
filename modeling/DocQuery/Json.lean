import DocQuery.Entries
import DocQuery.Number.Double
/-!
# DocQuery.Json

JSON values. Whole numbers that fit 64 bits, signed or unsigned, are kept exactly;
all other numbers are floating-point. The members of an object keep their order.
-/

namespace DocQuery

/-- A JSON number. -/
inductive JsonNumber where
  /-- A whole number from -2⁶³ to 2⁶⁴ - 1. -/
  | whole (n : Int)
  /-- A finite floating-point number. -/
  | double (x : Double)
deriving DecidableEq, Repr

/-- A JSON value. -/
inductive Json where
  | null
  | bool (b : Bool)
  | number (n : JsonNumber)
  | string (s : String)
  | array (items : List Json)
  | object (members : List (String × Json))
deriving Repr, Inhabited

end DocQuery
