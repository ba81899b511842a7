/-!
# Hexadecimal text
-/

set_option autoImplicit false

namespace RelQuery.Text

def hexDigit (n : Nat) : Char :=
  if n < 10 then Char.ofNat (48 + n) else Char.ofNat (87 + n)

def hexByte (b : UInt8) : List Char :=
  [hexDigit (b.toNat / 16), hexDigit (b.toNat % 16)]

def hexBytes (bytes : List UInt8) : List Char :=
  bytes.flatMap hexByte

def hexValue? (c : Char) : Option Nat :=
  if '0' ≤ c ∧ c ≤ '9' then some (c.toNat - 48)
  else if 'a' ≤ c ∧ c ≤ 'f' then some (c.toNat - 87)
  else if 'A' ≤ c ∧ c ≤ 'F' then some (c.toNat - 55)
  else none

def hexNatFrom? : Nat → List Char → Option Nat
  | n, [] => some n
  | n, c :: cs => (hexValue? c).bind fun d => hexNatFrom? (n * 16 + d) cs

def hexNat? (cs : List Char) : Option Nat :=
  hexNatFrom? 0 cs

def bytesOfHex? : List Char → Option (List UInt8)
  | [] => some []
  | a :: b :: r =>
    (hexNat? [a, b]).bind fun n => (bytesOfHex? r).map (UInt8.ofNat n :: ·)
  | [_] => none

theorem hexValue?_hexDigit {n : Nat} (h : n < 16) : hexValue? (hexDigit n) = some n := by
  have hall : ∀ n < 16, hexValue? (hexDigit n) = some n := by decide
  exact hall n h

theorem hexNat?_hexDigits {n : Nat} (h : n < 256) :
    hexNat? [hexDigit (n / 16), hexDigit (n % 16)] = some n := by
  have hhigh : n / 16 < 16 := by omega
  have hlow : n % 16 < 16 := by omega
  have hsum : (0 * 16 + n / 16) * 16 + n % 16 = n := by omega
  rw [hexNat?, hexNatFrom?, hexValue?_hexDigit hhigh, Option.bind_some, hexNatFrom?,
    hexValue?_hexDigit hlow, Option.bind_some, hexNatFrom?, hsum]

theorem hexNat?_zero (cs : List Char) : hexNat? ('0' :: cs) = hexNat? cs := rfl

theorem bytesOfHex?_hexBytes (bytes : List UInt8) : bytesOfHex? (hexBytes bytes) = some bytes := by
  induction bytes with
  | nil => rfl
  | cons b bytes ih =>
    have hb : b.toNat < 256 := b.toNat_lt
    show bytesOfHex? (hexDigit (b.toNat / 16) :: hexDigit (b.toNat % 16) :: hexBytes bytes) = _
    rw [bytesOfHex?, hexNat?_hexDigits hb, Option.bind_some, ih, UInt8.ofNat_toNat]
    rfl

end RelQuery.Text
