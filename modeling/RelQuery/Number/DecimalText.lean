import RelQuery.Number.Shortest

/-!
# Decimal text of binary numbers

A format fixes from which power of ten on small numbers are written positionally, whether a
positive exponent has a sign, which of two nearest decimals is taken, and the texts of the
numbers that are not finite. Positional text ends at `10 ^ 16` and keeps at least one place
after the point.
-/

set_option autoImplicit false

namespace RelQuery

structure DecimalFormat where
  smallestPositional : Int
  signedExponent : Bool
  tie : Tie
  nan : String
  infinite : Bool → String

namespace DecimalFormat

/-- Positional text of the digits, the first standing at `10 ^ leading`. -/
def positional (digits : List Char) (leading : Int) : List Char :=
  if leading < 0 then
    ['0', '.'] ++ List.replicate (-leading - 1).toNat '0' ++ digits
  else
    let whole := leading.toNat + 1
    let places := digits.drop whole
    digits.take whole ++ List.replicate (whole - digits.length) '0' ++
      '.' :: (if places.isEmpty then ['0'] else places)

/-- One digit before the point, the others after it, and the power of ten. -/
def scientific (f : DecimalFormat) (digits : List Char) (leading : Int) : List Char :=
  let point := if digits.length ≤ 1 then [] else ['.']
  let sign := if leading < 0 then ['-'] else if f.signedExponent then ['+'] else []
  digits.take 1 ++ point ++ digits.drop 1 ++ 'e' :: sign ++ Nat.toDigits 10 leading.natAbs

def unsigned (f : DecimalFormat) (x : Binary64) : List Char :=
  if x.isZero then ['0', '.', '0']
  else
    let d := Shortest.ofPositive f.tie x
    let digits := Nat.toDigits 10 d.digits
    let leading := d.power + digits.length - 1
    if f.smallestPositional ≤ leading ∧ leading < 16 then positional digits leading
    else f.scientific digits leading

def render (f : DecimalFormat) (x : Binary64) : String :=
  if x.isNaN then f.nan
  else if x.isFinite then
    String.ofList ((if x.isNegative then ['-'] else []) ++ f.unsigned x)
  else f.infinite x.isNegative

end DecimalFormat

theorem toList_repr_int (n : Int) : n.repr.toList =
    (if n < 0 then ['-'] else []) ++ Nat.toDigits 10 n.natAbs := by
  rw [Int.repr_eq_if]
  by_cases h : n < 0
  · have hnot : ¬0 ≤ n := by omega
    have habs : (-n).toNat = n.natAbs := by omega
    simp [h, hnot, habs]
  · have hge : 0 ≤ n := by omega
    have habs : n.toNat = n.natAbs := by omega
    simp [h, hge, habs]

end RelQuery
