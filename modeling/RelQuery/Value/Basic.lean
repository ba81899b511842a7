import RelQuery.Number.Binary64

/-!
# Values

The storage classes that a result column can hold or an argument can have. Equality is
structural: null equals null, and reals are equal when their patterns are.
-/

set_option autoImplicit false

namespace RelQuery

inductive Value
  | null
  | integer (n : Int64)
  | real (x : Binary64)
  | text (s : String)
  | blob (bytes : List UInt8)
deriving DecidableEq, Inhabited

namespace Value

def isNull : Value → Bool
  | .null => true
  | _ => false

def asText? : Value → Option String
  | .text s => some s
  | _ => none

def int64? (n : Int) : Option Int64 :=
  if Int64.minValue.toInt ≤ n ∧ n ≤ Int64.maxValue.toInt then some (Int64.ofInt n) else none

theorem int64?_toInt (n : Int64) : int64? n.toInt = some n := by
  rw [int64?, if_pos ⟨n.minValue_le_toInt, n.toInt_le⟩, Int64.ofInt_toInt]

/-- The integer that a numeric value is; a real has to be whole and in range. The bounds are
compared as reals, where the upper one is rounded to the first integer past the range. -/
def asInteger? : Value → Option Int64
  | .integer n => some n
  | .real x =>
    if x.fractionalPart.isZero && Binary64.atMost (.ofInt Int64.minValue.toInt) x &&
        x.below (.ofInt Int64.maxValue.toInt) then
      some x.toInt64
    else none
  | _ => none

def asReal? : Value → Option Binary64
  | .integer n => some (.ofInt n.toInt)
  | .real x => some x
  | _ => none

def asBool? : Value → Option Bool
  | .integer n => some (n != 0)
  | .real x => some (!x.isZero)
  | _ => none

def asBlob? : Value → Option (List UInt8)
  | .blob bytes => some bytes
  | _ => none

def className : Value → String
  | .null => "null"
  | .integer _ => "integer"
  | .real _ => "real"
  | .text _ => "text"
  | .blob _ => "blob"

end Value

end RelQuery
