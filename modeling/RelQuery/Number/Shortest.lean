import RelQuery.Number.Binary64

/-!
# Shortest decimals

The decimal that names a binary number has the fewest digits that read back to it, and among
those it is the nearest. All comparisons are between naturals.
-/

set_option autoImplicit false

namespace RelQuery

structure Decimal where
  digits : Nat
  power : Int
deriving DecidableEq, Inhabited

inductive Tie
  | up
  | even
deriving DecidableEq

namespace Shortest

/-- The reals between two neighbouring half way points, counted in quarters of a unit
`num / den`. The ends belong to it when `closed` holds. -/
structure Interval where
  low : Nat
  middle : Nat
  high : Nat
  closed : Bool
  num : Nat
  den : Nat

/-- The reals that round to a positive finite number. Below a power of two the neighbour is half
as far. -/
def interval (x : Binary64) : Interval :=
  let m := x.significand
  let gap := if m = Binary64.hiddenBit ∧ -1074 < x.exponent then 1 else 2
  let (num, den) := Binary64.scaleDown 1 1 (2 - x.exponent)
  ⟨4 * m - gap, 4 * m, 4 * m + 2, m % 2 = 0, num, den⟩

def Interval.holds (i : Interval) (d : Nat) (p : Int) : Bool :=
  let point := d * Nat.pow 10 p.toNat * i.den
  let low := i.low * i.num * Nat.pow 10 (-p).toNat
  let high := i.high * i.num * Nat.pow 10 (-p).toNat
  if i.closed then low ≤ point && point ≤ high else low < point && point < high

def digitCount (n : Nat) : Nat :=
  (Nat.toDigits 10 n).length

def leadingPower (num den : Nat) : Int :=
  if den ≤ num then (digitCount (num / den) : Int) - 1
  else -(digitCount ((den - 1) / num) : Int)

/-- The nearer of the two multiples of `10 ^ p` around the number that reads back, if one does. -/
def onGrid (tie : Tie) (i : Interval) (p : Int) : Option Decimal :=
  let num := i.middle * i.num * Nat.pow 10 (-p).toNat
  let den := i.den * Nat.pow 10 p.toNat
  let below := num / den
  let rest := num % den
  let nearer :=
    if 2 * rest < den then below
    else if den < 2 * rest then below + 1
    else match tie with
      | .up => below + 1
      | .even => if below % 2 = 0 then below else below + 1
  let further := if nearer = below then below + 1 else below
  if i.holds nearer p then some ⟨nearer, p⟩
  else if i.holds further p then some ⟨further, p⟩
  else none

def dropZeros : Nat → Decimal → Decimal
  | 0, d => d
  | n + 1, d => if d.digits % 10 = 0 then dropZeros n ⟨d.digits / 10, d.power + 1⟩ else d

/-- The shortest decimal of a positive finite number. Seventeen digits always suffice. -/
def ofPositive (tie : Tie) (x : Binary64) : Decimal :=
  let i := interval x
  let top := leadingPower (i.middle * i.num) i.den
  let found := (List.range 17).findSome? fun (n : Nat) => onGrid tie i (top - n)
  dropZeros 17 (found.getD ⟨0, 0⟩)

end Shortest

end RelQuery
