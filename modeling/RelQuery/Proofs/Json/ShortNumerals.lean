import RelQuery.Proofs.Json.Written

/-!
# Numerals that are read without error

The reader multiplies the digits by a power of ten, or divides them by one, and rounds once. When
the digits and the power are numbers themselves the result is the number nearest to the numeral.
-/

set_option autoImplicit false

namespace RelQuery.Json

open Binary64 (absolute hiddenBit infiniteMagnitude stepsOfOne steps)

/-- A numeral of at most 53 bits whose power of ten is a number in either direction. -/
structure Numeral.Short (n : Numeral) : Prop where
  digits : n.digits ≤ 2 * hiddenBit
  power : n.power.natAbs ≤ 22
  exponent : spelled n.exponent ≤ largestExponent

theorem absolute_digits (negative : Bool) {d : Nat} (hd : d ≤ 2 * hiddenBit) :
    (Binary64.ofFraction negative d 1).absolute = d := by
  obtain ⟨n, hn, hsteps⟩ := Binary64.exists_steps hd (Nat.zero_le 800)
  have hvalue : (d : ℚ) / (1 : Nat) = (steps n : ℚ) / stepsOfOne := by
    rw [hsteps]
    simp
  rw [Binary64.absolute_ofFraction negative Nat.one_ne_zero hn hvalue]
  simp

theorem tenPower_ratio {k : Nat} (hk : k ≤ 22) :
    ((tenPower k).1 : ℚ) / (tenPower k).2 = 10 ^ k := by
  have hfive : 5 ^ k ≤ 2 * hiddenBit :=
    (Nat.pow_le_pow_right (by decide) hk).trans (by decide)
  obtain ⟨n, hn, hsteps⟩ := Binary64.exists_steps hfive (show k ≤ 800 by omega)
  have hten : 5 ^ k * 2 ^ k = 10 ^ k := (Nat.mul_pow 5 2 k).symm
  have hvalue : ((10 ^ k : Nat) : ℚ) / (1 : Nat) = (steps n : ℚ) / stepsOfOne := by
    rw [hsteps, hten]
    simp
  have habsolute := Binary64.absolute_ofFraction false Nat.one_ne_zero hn hvalue
  have hpower : tenPower k = (Binary64.ofFraction false (10 ^ k) 1).toFraction := rfl
  rw [absolute] at habsolute
  rw [hpower, habsolute]
  simp

theorem tenPower_pos (k : Nat) : 0 < (tenPower k).2 :=
  Binary64.toFraction_pos _

theorem scaleBy_eq {x : Binary64} {num den num' den' : Nat} (hden : den ≠ 0) (hden' : den' ≠ 0)
    (h : x.absolute * ((num : ℚ) / den) = (num' : ℚ) / den') :
    x.scaleBy num den = .ofFraction x.isNegative num' den' := by
  rw [Binary64.scaleBy]
  apply Binary64.ofFraction_congr _ (Nat.mul_ne_zero x.toFraction_pos.ne' hden) hden'
  rw [← h, absolute]
  push_cast
  rw [mul_div_mul_comm]

theorem isNegative_ofFraction (negative : Bool) (num : Nat) {den : Nat} (hden : den ≠ 0) :
    (Binary64.ofFraction negative num den).isNegative = negative := by
  obtain ⟨n, -, hround⟩ := Binary64.exists_roundsTo num hden
  rw [hround, Binary64.isNegative_ofMagnitude]

theorem realOf?_natCast {negative : Bool} {digits k : Nat} {y : Binary64} (hk : k ≤ greatestPower)
    (h : (Binary64.ofFraction negative digits 1).scaleBy (tenPower k).1 (tenPower k).2 = y)
    (hfinite : y.isFinite = true) : realOf? negative digits k = some y := by
  rw [realOf?, if_pos (Int.natCast_nonneg k), Int.toNat_natCast, if_pos hk, h, if_pos hfinite]

theorem realOf?_neg {negative : Bool} {digits k : Nat} {y : Binary64} (hpos : 0 < k)
    (hk : k ≤ greatestPower)
    (h : (Binary64.ofFraction negative digits 1).scaleBy (tenPower k).2 (tenPower k).1 = y) :
    realOf? negative digits (-(k : Int)) = some y := by
  rw [realOf?, if_neg (by omega), Int.natAbs_neg, Int.natAbs_natCast, divideByTens, dif_pos hk, h]

theorem realOf?_short {n : Numeral} (h : n.Short) (hfinite : n.nearest.isFinite = true) :
    realOf? n.negative n.digits n.power = some n.nearest := by
  have hdigits := absolute_digits n.negative h.digits
  have hsign := isNegative_ofFraction n.negative n.digits Nat.one_ne_zero
  have hpower := h.power
  rw [Numeral.nearest] at hfinite ⊢
  by_cases hpos : 0 ≤ n.power
  · obtain ⟨k, hk⟩ := Int.eq_ofNat_of_zero_le hpos
    rw [hk] at hfinite hpower ⊢
    have hle : k ≤ 22 := hpower
    have hneg : (-(k : Int)).toNat = 0 := by omega
    rw [Int.toNat_natCast, hneg] at hfinite ⊢
    apply realOf?_natCast (hle.trans (by decide)) _ hfinite
    rw [scaleBy_eq (tenPower_pos k).ne' (by decide : 10 ^ 0 ≠ 0), hsign]
    rw [hdigits, tenPower_ratio hle]
    push_cast
    rw [div_one]
  · obtain ⟨k, hk⟩ : ∃ k : Nat, n.power = -(k : Int) := ⟨n.power.natAbs, by omega⟩
    rw [hk] at hpos hpower ⊢
    have hle : k ≤ 22 := by omega
    have hneg : (-(k : Int)).toNat = 0 := by omega
    have hden : (10 : Nat) ^ k ≠ 0 := (Nat.pow_pos (by decide)).ne'
    have hratio := tenPower_ratio hle
    have hnum : (tenPower k).1 ≠ 0 := by
      intro hzero
      rw [hzero, Nat.cast_zero, zero_div] at hratio
      exact (by positivity : (0 : ℚ) < 10 ^ k).ne hratio
    rw [hneg, neg_neg, Int.toNat_natCast, Nat.pow_zero, Nat.mul_one]
    apply realOf?_neg (by omega) (hle.trans (by decide))
    rw [scaleBy_eq hnum hden, hsign]
    rw [hdigits, ← inv_div, hratio]
    push_cast
    rw [div_eq_mul_inv]

theorem spelled_le (whole fraction : List Nat) : spelled whole ≤ spelled (whole ++ fraction) := by
  rw [spelled, spelled, List.foldl_append]
  exact le_foldl_digits fraction _

/-- A short numeral is read as the real nearest to it. -/
theorem read?_short {n : Numeral} (h : n.Short) (hreal : n.fraction ≠ [] ∨ n.exponent ≠ [])
    (hfinite : n.nearest.isFinite = true) : n.read? = some (.real n.nearest) := by
  have hword : 2 * hiddenBit ≤ largestWord := by decide
  have hwhole : takeDigits largestWord 0 n.whole = (spelled n.whole, []) :=
    takeDigits_all ((spelled_le n.whole n.fraction).trans (h.digits.trans hword))
  have hdigits : takeDigits largestWord (spelled n.whole) n.fraction = (n.digits, []) := by
    have hfold : n.fraction.foldl (fun n d => n * 10 + d) (spelled n.whole) = n.digits := by
      rw [Numeral.digits, spelled, spelled, List.foldl_append]
    rw [takeDigits_all (hfold ▸ h.digits.trans hword), hfold]
  have hexponent : takeDigits largestExponent 0 n.exponent = (spelled n.exponent, []) :=
    takeDigits_all h.exponent
  have hpower : (if n.exponentNegative = true then
      (([] : List Nat).length : Int) - (n.fraction.length - ([] : List Nat).length : Nat) -
        spelled n.exponent
      else (([] : List Nat).length : Int) - (n.fraction.length - ([] : List Nat).length : Nat) +
        spelled n.exponent) = n.power := by
    rw [Numeral.power, List.length_nil]
    split <;> omega
  rw [Numeral.read?, hwhole]
  simp only [isEmpty_of_real hreal, Bool.false_eq_true, if_false, hdigits]
  simp only [withExponent?, hexponent, List.isEmpty_nil, if_true]
  rw [hpower, realOf?_short h hfinite, Option.map_some]

end RelQuery.Json
