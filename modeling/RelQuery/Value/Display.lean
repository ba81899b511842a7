import RelQuery.Number.DecimalText
import RelQuery.Text.Quoted
import RelQuery.Value.Basic

/-!
# Values as shown in logs
-/

set_option autoImplicit false

namespace RelQuery

/-- Reals are positional from `0.0001` up, and of two nearest decimals the greater is shown. -/
def Value.realFormat : DecimalFormat where
  smallestPositional := -4
  signedExponent := false
  tie := .up
  nan := "NaN"
  infinite negative := if negative then "-inf" else "inf"

def Value.display : Value → String
  | .null => "NULL"
  | .integer n => n.toInt.repr
  | .real x => realFormat.render x
  | .text s => "\"" ++ Text.escape s ++ "\""
  | .blob bytes => "x'" ++ String.ofList (Text.hexBytes bytes) ++ "'"

def Value.displayList (values : List Value) : String :=
  "[" ++ String.intercalate ", " (values.map Value.display) ++ "]"

end RelQuery
