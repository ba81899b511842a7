import Mathlib.Data.Rat.Defs
import Mathlib.Order.Monotone.Basic
import Mathlib.Algebra.Order.Field.Power
import Mathlib.Tactic.NormNum
import Mathlib.Tactic.Ring
import RelQuery.Number.Binary64

/-!
# Binary64 numbers as exact numbers

Every finite number is a whole number of steps of two to the minus 1074th. Counted in steps the
order of magnitudes is the order of naturals, and a number is an integer when its steps are a
multiple of those of one.
-/

set_option autoImplicit false

namespace RelQuery.Binary64

/-- The place after the point of the last binary digit that a number can have. -/
@[irreducible] def lastPlace : Nat := 1074

theorem lastPlace_eq : lastPlace = 1074 := by
  rw [lastPlace]

def stepsOfOne : Nat := 2 ^ lastPlace

def steps (n : Nat) : Nat :=
  if n < hiddenBit then n else (n % hiddenBit + hiddenBit) * 2 ^ (n / hiddenBit - 1)

theorem stepsOfOne_eq {a b : Nat} (h : a + b = 1074) : stepsOfOne = 2 ^ a * 2 ^ b := by
  rw [← Nat.pow_add, h, ← lastPlace_eq, stepsOfOne]

theorem stepsOfOne_pos : 0 < stepsOfOne := by
  rw [stepsOfOne]
  exact Nat.two_pow_pos _

theorem steps_lt_succ (n : Nat) : steps n < steps (n + 1) := by
  rw [steps, steps]
  by_cases hlow : n + 1 < hiddenBit
  · rw [if_pos hlow, if_pos (Nat.lt_of_succ_lt hlow)]
    exact Nat.lt_succ_self n
  by_cases hedge : n + 1 = hiddenBit
  · have hn : n < hiddenBit := by omega
    rw [if_pos hn, if_neg hlow, hedge]
    simpa [Nat.div_self, hiddenBit] using hn
  have hge : ¬n < hiddenBit := by omega
  rw [if_neg hge, if_neg hlow]
  simp only [hiddenBit] at hge ⊢
  by_cases hcarry : n % 0x10000000000000 + 1 < 0x10000000000000
  · have hmod : (n + 1) % 0x10000000000000 = n % 0x10000000000000 + 1 := by omega
    have hdiv : (n + 1) / 0x10000000000000 = n / 0x10000000000000 := by omega
    rw [hmod, hdiv]
    exact Nat.mul_lt_mul_of_pos_right (by omega) (Nat.pow_pos (by decide))
  · -- the significand is full, so the next magnitude has the next exponent
    have hmod : (n + 1) % 0x10000000000000 = 0 := by omega
    have hdiv : (n + 1) / 0x10000000000000 - 1 = (n / 0x10000000000000 - 1) + 1 := by omega
    have hpow : 0 < 2 ^ (n / 0x10000000000000 - 1) := Nat.pow_pos (by decide)
    rw [hmod, hdiv, Nat.pow_succ]
    calc (n % 0x10000000000000 + 0x10000000000000) * 2 ^ (n / 0x10000000000000 - 1)
        < (2 * 0x10000000000000) * 2 ^ (n / 0x10000000000000 - 1) :=
          Nat.mul_lt_mul_of_pos_right (by omega) hpow
      _ = (0 + 0x10000000000000) * (2 ^ (n / 0x10000000000000 - 1) * 2) := by ring

theorem steps_strictMono : StrictMono steps :=
  strictMono_nat_of_lt_succ steps_lt_succ

theorem magnitude_lt (x : Binary64) : x.magnitude < signBit :=
  Nat.mod_lt _ (by decide)

def signedSteps (x : Binary64) : Int :=
  if x.isNegative then -(steps x.magnitude : Int) else steps x.magnitude

theorem steps_zero : steps 0 = 0 := rfl

theorem rank_le_iff (x y : Binary64) : x.rank ≤ y.rank ↔ x.signedSteps ≤ y.signedSteps := by
  have hle := steps_strictMono.le_iff_le (a := x.magnitude) (b := y.magnitude)
  have hge := steps_strictMono.le_iff_le (a := y.magnitude) (b := x.magnitude)
  have hx := steps_strictMono.le_iff_le (a := x.magnitude) (b := 0)
  have hy := steps_strictMono.le_iff_le (a := y.magnitude) (b := 0)
  rw [steps_zero] at hx hy
  rw [rank, rank, signedSteps, signedSteps]
  split_ifs <;> omega

theorem rank_lt_iff (x y : Binary64) : x.rank < y.rank ↔ x.signedSteps < y.signedSteps := by
  rw [← not_le, ← not_le, rank_le_iff]

theorem exponent_ge (x : Binary64) : -1074 ≤ x.exponent := by
  rw [exponent]
  split
  · exact Int.le_refl _
  · rename_i hlow
    have hone : 1 ≤ x.magnitude / hiddenBit :=
      (Nat.one_le_div_iff (by decide)).mpr (Nat.le_of_not_lt hlow)
    omega

theorem steps_eq (x : Binary64) :
    steps x.magnitude = x.significand * 2 ^ (x.exponent + 1074).toNat := by
  rw [steps, significand, exponent]
  split
  · exact (Nat.mul_one _).symm
  · congr 2
    omega

theorem scaleDown_steps (m : Nat) {e : Int} (he : -1074 ≤ e) :
    (scaleDown m 1 (-e)).1 * stepsOfOne =
      m * 2 ^ (e + 1074).toNat * (scaleDown m 1 (-e)).2 := by
  by_cases hsign : (0 : Int) ≤ -e
  · rw [scaleDown, if_pos hsign,
      stepsOfOne_eq (show (e + 1074).toNat + (-e).toNat = 1074 by omega)]
    show m * (2 ^ (e + 1074).toNat * 2 ^ (-e).toNat) =
      m * 2 ^ (e + 1074).toNat * (1 * 2 ^ (-e).toNat)
    rw [Nat.one_mul, Nat.mul_assoc]
  · have hsum : (e + 1074).toNat = (- -e).toNat + lastPlace := by
      rw [lastPlace_eq]
      omega
    rw [scaleDown, if_neg hsign, hsum, Nat.pow_add, stepsOfOne, Nat.mul_one, Nat.mul_assoc]
    rfl

theorem toFraction_steps (x : Binary64) :
    x.toFraction.1 * stepsOfOne = steps x.magnitude * x.toFraction.2 := by
  rw [toFraction, steps_eq, scaleDown_steps _ x.exponent_ge]

theorem toFraction_pos (x : Binary64) : 0 < x.toFraction.2 := by
  rw [toFraction, scaleDown]
  split
  · exact Nat.mul_pos Nat.one_pos (Nat.pow_pos (by decide))
  · exact Nat.one_pos

theorem toFraction_le (x : Binary64) : x.toFraction.2 ≤ stepsOfOne := by
  have hexp := x.exponent_ge
  rw [toFraction, scaleDown]
  split
  · have hsum : (-x.exponent).toNat + (1074 - (-x.exponent).toNat) = 1074 := by omega
    rw [stepsOfOne_eq hsum]
    show 1 * 2 ^ (-x.exponent).toNat ≤ _
    rw [Nat.one_mul]
    exact Nat.le_mul_of_pos_right _ (Nat.two_pow_pos _)
  · exact stepsOfOne_pos

theorem toNat_ofMagnitude (negative : Bool) (n : Nat) :
    (ofMagnitude negative n).bits.toNat =
      min n infiniteMagnitude + if negative then signBit else 0 := by
  have hmin : min n infiniteMagnitude ≤ infiniteMagnitude := Nat.min_le_right _ _
  have hlt : min n infiniteMagnitude + (if negative then signBit else 0) < 2 ^ 64 := by
    simp only [infiniteMagnitude, hiddenBit, signBit] at hmin ⊢
    split <;> omega
  exact UInt64.toNat_ofNat_of_lt hlt

theorem magnitude_ofMagnitude (negative : Bool) (n : Nat) :
    (ofMagnitude negative n).magnitude = min n infiniteMagnitude := by
  have hmin : min n infiniteMagnitude ≤ infiniteMagnitude := Nat.min_le_right _ _
  rw [magnitude, toNat_ofMagnitude]
  simp only [infiniteMagnitude, hiddenBit, signBit] at hmin ⊢
  split <;> omega

theorem isNegative_ofMagnitude (negative : Bool) (n : Nat) :
    (ofMagnitude negative n).isNegative = negative := by
  have hmin : min n infiniteMagnitude ≤ infiniteMagnitude := Nat.min_le_right _ _
  rw [isNegative, toNat_ofMagnitude]
  simp only [infiniteMagnitude, hiddenBit, signBit] at hmin ⊢
  cases negative <;> simp

theorem ext_magnitude {x y : Binary64} (hsign : x.isNegative = y.isNegative)
    (hmagnitude : x.magnitude = y.magnitude) : x = y := by
  have hx := x.bits.toNat_lt
  have hy := y.bits.toNat_lt
  obtain ⟨m⟩ := x
  obtain ⟨n⟩ := y
  congr 1
  apply UInt64.toNat_inj.mp
  rw [isNegative, isNegative, decide_eq_decide] at hsign
  simp only [magnitude, signBit] at hsign hmagnitude hx hy
  omega

/-- The number that a pattern stands for by IEEE 754: of its sign bit, its 11 bits of exponent and
its 52 bits of fraction. An infinity or a NaN stands for none. -/
def rational? (x : Binary64) : Option ℚ :=
  let sign : ℚ := if x.bits.toNat / 2 ^ 63 = 1 then -1 else 1
  let exponent : Nat := x.bits.toNat / 2 ^ 52 % 2 ^ 11
  let fraction : ℚ := ((x.bits.toNat % 2 ^ 52 : Nat) : ℚ)
  if exponent = 2047 then none
  else if exponent = 0 then some (sign * fraction * 2 ^ (-1074 : Int))
  else some (sign * (2 ^ 52 + fraction) * 2 ^ ((exponent : Int) - 1075))

theorem two_zpow (k : Nat) : (2 : ℚ) ^ ((k : Int) - 1074) = ((2 ^ k : Nat) : ℚ) / stepsOfOne := by
  have hplace : (1074 : Int) = lastPlace := by rw [lastPlace_eq]; rfl
  rw [hplace, zpow_sub₀ (by norm_num), zpow_natCast, zpow_natCast, stepsOfOne]
  push_cast
  rfl

theorem rational?_eq (x : Binary64) : x.rational? =
    if x.isFinite then some ((x.signedSteps : ℚ) / stepsOfOne) else none := by
  have hlt := x.bits.toNat_lt
  have hsign : x.bits.toNat / 2 ^ 63 = 1 ↔ x.isNegative = true := by
    rw [isNegative, decide_eq_true_eq, signBit]
    omega
  have hexponent : x.bits.toNat / 2 ^ 52 % 2 ^ 11 = x.magnitude / hiddenBit := by
    rw [magnitude, signBit, hiddenBit]
    omega
  have hfraction : x.bits.toNat % 2 ^ 52 = x.magnitude % hiddenBit := by
    rw [magnitude, signBit, hiddenBit]
    omega
  have hfinite : x.isFinite = true ↔ ¬x.magnitude / hiddenBit = 2047 := by
    have := x.magnitude_lt
    rw [isFinite, decide_eq_true_eq, infiniteMagnitude]
    simp only [signBit, hiddenBit] at this ⊢
    omega
  have hlow : x.magnitude / hiddenBit = 0 ↔ x.magnitude < hiddenBit := by
    rw [hiddenBit]
    omega
  simp only [rational?, hsign, hexponent, hfraction, hfinite, hlow, ite_not]
  split
  · rfl
  rw [signedSteps, steps]
  split
  · rename_i hm
    have hpower : (2 : ℚ) ^ (-1074 : Int) = 1 / stepsOfOne := by
      rw [← Int.zero_sub, ← Int.natCast_zero, two_zpow, Nat.pow_zero, Nat.cast_one]
    rw [Nat.mod_eq_of_lt hm, hpower]
    split <;> push_cast <;> ring_nf
  · rename_i hm
    have hone : 1 ≤ x.magnitude / hiddenBit := Nat.pos_of_ne_zero (mt hlow.mp hm)
    have hpower : (2 : ℚ) ^ (((x.magnitude / hiddenBit : Nat) : Int) - 1075) =
        ((2 ^ (x.magnitude / hiddenBit - 1) : Nat) : ℚ) / stepsOfOne := by
      rw [← two_zpow]
      congr 1
      omega
    have hhidden : ((hiddenBit : Nat) : ℚ) = 2 ^ 52 := by
      rw [hiddenBit]
      norm_num
    rw [hpower]
    generalize x.magnitude % hiddenBit = fraction
    split <;> push_cast <;> rw [hhidden] <;> ring_nf

end RelQuery.Binary64
