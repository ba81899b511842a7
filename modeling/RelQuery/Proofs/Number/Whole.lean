import RelQuery.Proofs.Number.Dyadic

/-!
# Whole numbers among the reals

A finite number is whole when its part after the point is zero, and then truncation keeps it. The
bounds of the 64 bit integers are compared as reals: the lower one is a real, and the upper one is
rounded to the first integer past the range.
-/

set_option autoImplicit false

namespace RelQuery.Binary64

theorem exponentFor_ge (num den : Nat) : -1074 ≤ exponentFor num den :=
  Int.le_max_right _ _

theorem div_le_roundHalfEven (num den : Nat) : num / den ≤ roundHalfEven num den := by
  rw [roundHalfEven]
  split_ifs <;> omega

theorem scaleDown_of_neg {num den : Nat} {e : Int} (h : e < 0) :
    scaleDown num den e = (num * 2 ^ (-e).toNat, den) :=
  if_neg (Int.not_le.mpr h)

theorem ofFraction_eq {negative : Bool} {num den n d : Nat} {e : Int} (h : num ≠ 0)
    (hexponent : exponentFor num den = e) (hscale : scaleDown num den e = (n, d)) :
    ofFraction negative num den =
      ofMagnitude negative ((e + 1074).toNat * hiddenBit + roundHalfEven n d) := by
  rw [ofFraction, if_neg h, hexponent]
  dsimp only
  rw [hscale]

theorem isZero_ofFraction {negative : Bool} {num den : Nat} (hpos : 0 < den)
    (hle : den ≤ stepsOfOne) : (ofFraction negative num den).isZero = true ↔ num = 0 := by
  rw [isZero, beq_iff_eq]
  constructor
  · intro hzero
    by_contra hnum
    obtain ⟨⟨n, d⟩, hscale⟩ : ∃ p, scaleDown num den (exponentFor num den) = p := ⟨_, rfl⟩
    rw [ofFraction_eq hnum rfl hscale, magnitude_ofMagnitude, Nat.min_eq_zero_iff] at hzero
    obtain ⟨hfirst, hround⟩ := Nat.add_eq_zero_iff.mp (hzero.resolve_right (by decide))
    have hlast : exponentFor num den = -(lastPlace : Int) := by
      have hge := exponentFor_ge num den
      have hexp := (Nat.mul_eq_zero.mp hfirst).resolve_right (by decide)
      rw [lastPlace_eq]
      omega
    -- at the last place the fraction is a whole step at least
    have hneg : -(lastPlace : Int) < 0 := by
      rw [lastPlace_eq]
      decide
    rw [hlast, scaleDown_of_neg hneg, neg_neg, Int.toNat_natCast] at hscale
    obtain ⟨rfl, rfl⟩ := Prod.mk.inj hscale
    have hdiv := div_le_roundHalfEven (num * 2 ^ lastPlace) den
    rw [hround, Nat.le_zero, ← stepsOfOne.eq_1] at hdiv
    have hlt : num * stepsOfOne < den := (Nat.div_eq_zero_iff.mp hdiv).resolve_left (by omega)
    have hmul : stepsOfOne ≤ num * stepsOfOne :=
      Nat.le_mul_of_pos_left _ (Nat.pos_of_ne_zero hnum)
    omega
  · rintro rfl
    rw [ofFraction, if_pos rfl, magnitude_ofMagnitude, Nat.zero_min]

theorem toFraction_div (x : Binary64) :
    x.toFraction.1 / x.toFraction.2 = steps x.magnitude / stepsOfOne := by
  rw [← Nat.mul_div_mul_right _ _ stepsOfOne_pos, toFraction_steps, Nat.mul_comm x.toFraction.2,
    Nat.mul_div_mul_right _ _ x.toFraction_pos]

theorem toFraction_mod (x : Binary64) :
    x.toFraction.1 % x.toFraction.2 = 0 ↔ steps x.magnitude % stepsOfOne = 0 := by
  have hsame : x.toFraction.1 % x.toFraction.2 * stepsOfOne =
      steps x.magnitude % stepsOfOne * x.toFraction.2 := by
    rw [← Nat.mul_mod_mul_right, toFraction_steps, Nat.mul_comm x.toFraction.2 stepsOfOne,
      Nat.mul_mod_mul_right]
  have hpos := x.toFraction_pos
  have hone := stepsOfOne_pos
  constructor
  · intro h
    rw [h, Nat.zero_mul] at hsame
    exact (Nat.mul_eq_zero.mp hsame.symm).resolve_right (by omega)
  · intro h
    rw [h, Nat.zero_mul] at hsame
    exact (Nat.mul_eq_zero.mp hsame).resolve_right (by omega)

theorem isZero_fractionalPart (x : Binary64) : x.fractionalPart.isZero = true ↔
    x.isFinite = true ∧ steps x.magnitude % stepsOfOne = 0 := by
  by_cases hfinite : x.isFinite = true
  · have hpart : x.fractionalPart =
        ofFraction x.isNegative (x.toFraction.1 % x.toFraction.2) x.toFraction.2 := by
      rw [fractionalPart, if_pos hfinite]
    rw [hpart, isZero_ofFraction x.toFraction_pos x.toFraction_le, toFraction_mod,
      and_iff_right hfinite]
  · rw [fractionalPart, if_neg hfinite]
    exact iff_of_false (by decide) fun h => hfinite h.1

theorem not_isNaN_of_isFinite {x : Binary64} (h : x.isFinite = true) : x.isNaN = false := by
  rw [isFinite, decide_eq_true_eq] at h
  exact decide_eq_false (Nat.lt_asymm h)

theorem steps_mul_hiddenBit {q : Nat} (h : 1 ≤ q) :
    steps (q * hiddenBit) = 2 ^ 52 * 2 ^ (q - 1) := by
  have hle : hiddenBit ≤ q * hiddenBit := Nat.le_mul_of_pos_left _ h
  rw [steps, if_neg (Nat.not_lt_of_le hle), Nat.mul_mod_left, Nat.mul_div_cancel _ (by decide),
    Nat.zero_add]
  rfl

theorem steps_of_range : steps (1086 * hiddenBit) = 2 ^ 63 * stepsOfOne := by
  have hplace : 1086 - 1 = 11 + lastPlace := by rw [lastPlace_eq]
  rw [steps_mul_hiddenBit (by decide), hplace, Nat.pow_add, stepsOfOne, ← Nat.mul_assoc,
    ← Nat.pow_add]

theorem lowerBound_eq : ofInt Int64.minValue.toInt = ofMagnitude true (1086 * hiddenBit) := by
  decide

theorem upperBound_eq : ofInt Int64.maxValue.toInt = ofMagnitude false (1086 * hiddenBit) := by
  decide

theorem signedSteps_ofMagnitude {n : Nat} (negative : Bool) (h : n ≤ infiniteMagnitude) :
    (ofMagnitude negative n).signedSteps =
      if negative then -(steps n : Int) else steps n := by
  rw [signedSteps, isNegative_ofMagnitude, magnitude_ofMagnitude, Nat.min_eq_left h]

/-- Both comparisons are with exact numbers, two to the 63rd and its opposite. -/
theorem bounds_iff {x : Binary64} (h : x.isFinite = true) :
    atMost (ofInt Int64.minValue.toInt) x = true ∧ x.below (ofInt Int64.maxValue.toInt) = true ↔
      -2 ^ 63 * (stepsOfOne : Int) ≤ x.signedSteps ∧
        x.signedSteps < 2 ^ 63 * (stepsOfOne : Int) := by
  have hnan := not_isNaN_of_isFinite h
  have hle : 1086 * hiddenBit ≤ infiniteMagnitude := by decide
  have hlow : (ofMagnitude true (1086 * hiddenBit)).isNaN = false := by decide
  have hhigh : (ofMagnitude false (1086 * hiddenBit)).isNaN = false := by decide
  rw [lowerBound_eq, upperBound_eq, atMost, below, hnan, hlow, hhigh]
  simp only [Bool.not_false, Bool.true_and, decide_eq_true_eq, rank_le_iff, rank_lt_iff,
    signedSteps_ofMagnitude _ hle, steps_of_range, Bool.false_eq_true, if_true, if_false]
  push_cast
  rw [neg_mul]

theorem toInt_clamp {n : Int} (hlow : -2 ^ 63 ≤ n) (hhigh : n < 2 ^ 63) :
    (Int64.ofInt (max Int64.minValue.toInt (min Int64.maxValue.toInt n))).toInt = n := by
  have hclamp : max Int64.minValue.toInt (min Int64.maxValue.toInt n) = n := by
    have hmin : Int64.minValue.toInt = -2 ^ 63 := by decide
    have hmax : Int64.maxValue.toInt = 2 ^ 63 - 1 := by decide
    rw [hmin, hmax]
    omega
  rw [hclamp]
  exact Int64.toInt_ofInt_of_le hlow hhigh

theorem rational?_eq_some_iff {x : Binary64} {n : Int} :
    x.rational? = some (n : ℚ) ↔ x.isFinite = true ∧ x.signedSteps = n * stepsOfOne := by
  have hone : (stepsOfOne : ℚ) ≠ 0 := Nat.cast_ne_zero.mpr (Nat.ne_of_gt stepsOfOne_pos)
  rw [rational?_eq]
  split
  · rename_i hfinite
    rw [Option.some.injEq, div_eq_iff hone, and_iff_right hfinite]
    exact_mod_cast Iff.rfl
  · rename_i hfinite
    exact iff_of_false nofun fun h => hfinite h.1

theorem whole_iff (x : Binary64) : steps x.magnitude % stepsOfOne = 0 ↔
    ∃ n : Int, x.signedSteps = n * stepsOfOne := by
  have hsigned : (stepsOfOne : Int) ∣ x.signedSteps ↔ (stepsOfOne : Int) ∣ steps x.magnitude := by
    rw [signedSteps]
    split
    · exact Int.dvd_neg
    · exact Iff.rfl
  rw [← Nat.dvd_iff_mod_eq_zero, ← Int.natCast_dvd_natCast, ← hsigned]
  simp only [Dvd.dvd, Int.mul_comm]

theorem toInt_toInt64 {x : Binary64} {n : Int} (hfinite : x.isFinite = true)
    (hsteps : x.signedSteps = n * stepsOfOne) (hlow : -2 ^ 63 ≤ n) (hhigh : n < 2 ^ 63) :
    x.toInt64.toInt = n := by
  have hone : (stepsOfOne : Int) ≠ 0 := Int.natCast_ne_zero.mpr (Nat.ne_of_gt stepsOfOne_pos)
  have hwhole : (if x.isNegative then -((x.toFraction.1 / x.toFraction.2 : Nat) : Int)
      else ((x.toFraction.1 / x.toFraction.2 : Nat) : Int)) = n := by
    rw [toFraction_div, Int.natCast_ediv]
    rw [signedSteps] at hsteps
    by_cases hsign : x.isNegative = true
    · rw [if_pos hsign] at hsteps ⊢
      rw [show (steps x.magnitude : Int) = -n * stepsOfOne by rw [neg_mul, ← hsteps, neg_neg],
        Int.mul_ediv_cancel _ hone, neg_neg]
    · rw [if_neg hsign] at hsteps ⊢
      rw [hsteps, Int.mul_ediv_cancel _ hone]
  have htruncate :
      x.toInt64 = Int64.ofInt (max Int64.minValue.toInt (min Int64.maxValue.toInt n)) := by
    rw [toInt64, not_isNaN_of_isFinite hfinite, if_neg Bool.false_ne_true, ← hwhole]
  rw [htruncate]
  exact toInt_clamp hlow hhigh

end RelQuery.Binary64
