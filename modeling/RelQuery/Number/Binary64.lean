/-!
# Binary64 numbers

A number is its 64 bit pattern, so two numbers are equal when their patterns are. Arithmetic is
exact on naturals and rounds once, to the nearest representable number and on a tie to the even
one.
-/

set_option autoImplicit false

namespace RelQuery

structure Binary64 where
  bits : UInt64
deriving DecidableEq, Inhabited

namespace Binary64

def signBit : Nat := 0x8000000000000000

/-- The highest bit of a whole significand, two to the 52nd, which patterns leave out. -/
def hiddenBit : Nat := 0x10000000000000

/-- The pattern without its sign, in the order of magnitudes. -/
def magnitude (x : Binary64) : Nat :=
  x.bits.toNat % signBit

def isNegative (x : Binary64) : Bool :=
  decide (signBit ≤ x.bits.toNat)

def infiniteMagnitude : Nat :=
  2047 * hiddenBit

def isFinite (x : Binary64) : Bool :=
  x.magnitude < infiniteMagnitude

def isNaN (x : Binary64) : Bool :=
  infiniteMagnitude < x.magnitude

def isZero (x : Binary64) : Bool :=
  x.magnitude == 0

def significand (x : Binary64) : Nat :=
  if x.magnitude < hiddenBit then x.magnitude else x.magnitude % hiddenBit + hiddenBit

def exponent (x : Binary64) : Int :=
  if x.magnitude < hiddenBit then -1074 else (x.magnitude / hiddenBit : Nat) - 1075

/-- The number with the given sign and magnitude, magnitudes past infinity taken as infinity. -/
def ofMagnitude (negative : Bool) (n : Nat) : Binary64 :=
  ⟨UInt64.ofNat (min n infiniteMagnitude + if negative then signBit else 0)⟩

/-- `num / den` to the nearest natural, a half to the even one. -/
def roundHalfEven (num den : Nat) : Nat :=
  let q := num / den
  let r := num % den
  if 2 * r < den then q
  else if den < 2 * r then q + 1
  else if q % 2 = 0 then q else q + 1

def scaleDown (num den : Nat) (e : Int) : Nat × Nat :=
  if 0 ≤ e then (num, den * Nat.pow 2 e.toNat) else (num * Nat.pow 2 (-e).toNat, den)

/-- The exponent at which the fraction has a significand of 53 bits, but not below the
smallest one. -/
def exponentFor (num den : Nat) : Int :=
  let guess : Int := (num.log2 : Int) - den.log2 - 52
  let (n, d) := scaleDown num den guess
  max (if n < d * hiddenBit then guess - 1 else guess) (-1074)

def ofFraction (negative : Bool) (num den : Nat) : Binary64 :=
  if num = 0 then ofMagnitude negative 0
  else
    let e := exponentFor num den
    let (n, d) := scaleDown num den e
    ofMagnitude negative ((e + 1074).toNat * hiddenBit + roundHalfEven n d)

def ofInt (n : Int) : Binary64 :=
  ofFraction (n < 0) n.natAbs 1

def toFraction (x : Binary64) : Nat × Nat :=
  scaleDown x.significand 1 (-x.exponent)

/-- Where a number stands among those that are not NaN; both zeros stand at one place. -/
def rank (x : Binary64) : Int :=
  if x.isNegative then -(x.magnitude : Int) else x.magnitude

def atMost (x y : Binary64) : Bool :=
  !x.isNaN && !y.isNaN && decide (x.rank ≤ y.rank)

def below (x y : Binary64) : Bool :=
  !x.isNaN && !y.isNaN && decide (x.rank < y.rank)

def nan : Binary64 := ⟨0x7FF8000000000000⟩

/-- The part of a number after the point, with the sign of the number. An infinity has none. -/
def fractionalPart (x : Binary64) : Binary64 :=
  if x.isFinite then
    let (num, den) := x.toFraction
    ofFraction x.isNegative (num % den) den
  else nan

/-- The 64 bit integer towards zero: the nearest one there is when the number is out of range, and
zero for a NaN. The pattern of infinity counts as two to the 1024th. -/
def toInt64 (x : Binary64) : Int64 :=
  if x.isNaN then 0
  else
    let (num, den) := x.toFraction
    let whole : Int := if x.isNegative then -(num / den : Nat) else (num / den : Nat)
    Int64.ofInt (max Int64.minValue.toInt (min Int64.maxValue.toInt whole))

def scaleBy (x : Binary64) (num den : Nat) : Binary64 :=
  ofFraction x.isNegative (x.toFraction.1 * num) (x.toFraction.2 * den)

end Binary64

end RelQuery
