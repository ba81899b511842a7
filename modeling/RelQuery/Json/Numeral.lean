import RelQuery.Json.Basic
import RelQuery.Number.Binary64

/-!
# Reading numerals

A numeral without fraction and exponent is an integer if it fits 64 bits, otherwise a real. A
real is read from the digits that fit 64 bits and one rounding by a power of ten, so it is not
always the nearest binary number. Digits that do not fit only shift the power.
-/

set_option autoImplicit false

namespace RelQuery.Json

inductive Number
  | integer (n : Int)
  | real (x : Binary64)
deriving DecidableEq

/-- Appends digits to `n` while the result stays at most `limit`; the digits left over follow. -/
def takeDigits (limit : Nat) : Nat → List Nat → Nat × List Nat
  | n, [] => (n, [])
  | n, d :: ds => if n * 10 + d ≤ limit then takeDigits limit (n * 10 + d) ds else (n, d :: ds)

def largestWord : Nat := 0xFFFFFFFFFFFFFFFF

def largestExponent : Nat := 0x7FFFFFFF

def greatestPower : Nat := 308

def tenPower (k : Nat) : Nat × Nat :=
  (Binary64.ofFraction false (Nat.pow 10 k) 1).toFraction

/-- Divides by `10 ^ k`, in steps that are finite numbers. -/
def divideByTens (x : Binary64) (k : Nat) : Binary64 :=
  if _h : k ≤ greatestPower then x.scaleBy (tenPower k).2 (tenPower k).1
  else if x.isZero then x
  else divideByTens (x.scaleBy (tenPower greatestPower).2 (tenPower greatestPower).1)
    (k - greatestPower)
termination_by k
decreasing_by simp only [greatestPower] at *; omega

def realOf? (negative : Bool) (digits : Nat) (power : Int) : Option Binary64 :=
  let x := Binary64.ofFraction negative digits 1
  if 0 ≤ power then
    if power.toNat ≤ greatestPower then
      let y := x.scaleBy (tenPower power.toNat).1 (tenPower power.toNat).2
      if y.isFinite then some y else none
    else if digits = 0 then some x
    else none
  else some (divideByTens x power.natAbs)

/-- The real that digits and an exponent name. An exponent past 31 bits makes a number zero, or
too great when it is positive and the digits are not all zero. -/
def withExponent? (n : Numeral) (digits : Nat) (power : Int) : Option Binary64 :=
  let (e, rest) := takeDigits largestExponent 0 n.exponent
  if rest.isEmpty then
    realOf? n.negative digits (if n.exponentNegative then power - e else power + e)
  else if n.exponentNegative || digits == 0 then some (.ofFraction n.negative 0 1)
  else none

/-- The number that a numeral names, unless it is too great. The negative zero and negative
numbers past 64 bits are reals. -/
def Numeral.read? (n : Numeral) : Option Number :=
  let (word, left) := takeDigits largestWord 0 n.whole
  if left.isEmpty && n.fraction.isEmpty && n.exponent.isEmpty then
    if n.negative then
      if word = 0 ∨ Binary64.signBit < word then some (.real (.ofFraction true word 1))
      else some (.integer (-(word : Int)))
    else some (.integer word)
  else
    let (digits, rest) := takeDigits largestWord word n.fraction
    let places := n.fraction.length - rest.length
    (withExponent? n digits ((left.length : Int) - places)).map .real

end RelQuery.Json
