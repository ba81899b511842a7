import Mathlib.Tactic.FieldSimp
import RelQuery.Number.Shortest
import RelQuery.Proofs.Number.Nearest

/-!
# Shortest decimals name their number

The decimal that the search finds rounds to the number that it is found for, and seventeen digits
are enough to find one.
-/

set_option autoImplicit false

namespace RelQuery

open Binary64 (hiddenBit halves RoundsTo)

def Decimal.value (d : Decimal) : ℚ :=
  d.digits * 10 ^ d.power

namespace Shortest

theorem ten_zpow (p : Int) : (10 : ℚ) ^ p * 10 ^ (-p).toNat = 10 ^ p.toNat := by
  rw [← zpow_natCast, ← zpow_natCast, ← zpow_add₀ (by norm_num)]
  congr 1
  omega

/-- The unit that an interval counts, four of which are the last place of the significand. -/
def Interval.unit (i : Interval) : ℚ :=
  (i.num : ℚ) / i.den

theorem scaled_eq (i : Interval) (hden : i.den ≠ 0) (a d : Nat) (p : Int) :
    ((a * i.num * 10 ^ (-p).toNat : Nat) : ℚ) = a * i.unit * (i.den * 10 ^ (-p).toNat) ∧
      ((d * 10 ^ p.toNat * i.den : Nat) : ℚ) = d * 10 ^ p * (i.den * 10 ^ (-p).toNat) := by
  have hne : (i.den : ℚ) ≠ 0 := Nat.cast_ne_zero.mpr hden
  constructor
  · rw [Interval.unit]
    push_cast
    rw [div_eq_mul_inv]
    calc (a : ℚ) * i.num * 10 ^ (-p).toNat
        = a * (i.num * ((i.den : ℚ)⁻¹ * i.den)) * 10 ^ (-p).toNat := by
          rw [inv_mul_cancel₀ hne, mul_one]
      _ = _ := by ring
  · push_cast
    rw [← ten_zpow p]
    ring

theorem scale_pos (i : Interval) (hden : i.den ≠ 0) (p : Int) :
    (0 : ℚ) < i.den * 10 ^ (-p).toNat := by
  have : (0 : ℚ) < i.den := Nat.cast_pos.mpr (Nat.pos_of_ne_zero hden)
  positivity

theorem point_le_iff (i : Interval) (hden : i.den ≠ 0) (a d : Nat) (p : Int) :
    d * 10 ^ p.toNat * i.den ≤ a * i.num * 10 ^ (-p).toNat ↔
      (d : ℚ) * 10 ^ p ≤ a * i.unit := by
  obtain ⟨ha, hd⟩ := scaled_eq i hden a d p
  rw [← Nat.cast_le (α := ℚ), ha, hd, mul_le_mul_iff_left₀ (scale_pos i hden p)]

theorem le_point_iff (i : Interval) (hden : i.den ≠ 0) (a d : Nat) (p : Int) :
    a * i.num * 10 ^ (-p).toNat ≤ d * 10 ^ p.toNat * i.den ↔
      a * i.unit ≤ (d : ℚ) * 10 ^ p := by
  obtain ⟨ha, hd⟩ := scaled_eq i hden a d p
  rw [← Nat.cast_le (α := ℚ), ha, hd, mul_le_mul_iff_left₀ (scale_pos i hden p)]

theorem holds_iff (i : Interval) (hden : i.den ≠ 0) (d : Nat) (p : Int) :
    i.holds d p = true ↔
      if i.closed then i.low * i.unit ≤ (d : ℚ) * 10 ^ p ∧ (d : ℚ) * 10 ^ p ≤ i.high * i.unit
      else i.low * i.unit < (d : ℚ) * 10 ^ p ∧ (d : ℚ) * 10 ^ p < i.high * i.unit := by
  rw [Interval.holds]
  split
  · simp only [Bool.and_eq_true, decide_eq_true_eq]
    exact and_congr (le_point_iff i hden i.low d p) (point_le_iff i hden i.high d p)
  · simp only [Bool.and_eq_true, decide_eq_true_eq]
    exact and_congr (lt_iff_lt_of_le_iff_le (point_le_iff i hden i.low d p))
      (lt_iff_lt_of_le_iff_le (le_point_iff i hden i.high d p))

variable {x : Binary64}

theorem magnitude_eq (x : Binary64) :
    x.magnitude = (x.exponent + 1074).toNat * hiddenBit + x.significand := by
  rw [Binary64.exponent, Binary64.significand, hiddenBit]
  split <;> omega

theorem significand_bounds (x : Binary64) :
    ((x.exponent + 1074).toNat = 0 ∨ hiddenBit ≤ x.significand) ∧
      x.significand < 2 * hiddenBit := by
  rw [Binary64.exponent, Binary64.significand, hiddenBit]
  split <;> omega

theorem significand_pos (h : x.magnitude ≠ 0) : 0 < x.significand := by
  rw [Binary64.significand, hiddenBit]
  split <;> omega

/-- The quarters of a unit from a number to the half way point below it. -/
def gap (x : Binary64) : Nat :=
  if x.significand = hiddenBit ∧ -1074 < x.exponent then 1 else 2

theorem interval_eq {e : Int} {num den : Nat} (hexponent : x.exponent = e)
    (hscale : Binary64.scaleDown 1 1 (2 - e) = (num, den)) :
    interval x = ⟨4 * x.significand - gap x, 4 * x.significand, 4 * x.significand + 2,
      x.significand % 2 = 0, num, den⟩ := by
  rw [interval, gap, hexponent]
  dsimp only
  rw [hscale]

/-- What the interval of a positive number is. -/
structure IsInterval (x : Binary64) (i : Interval) : Prop where
  low : (i.low : ℚ) = 4 * x.significand - gap x
  middle : i.middle = 4 * x.significand
  high : i.high = 4 * x.significand + 2
  closed : i.closed = decide (x.significand % 2 = 0)
  den : i.den ≠ 0
  unit : i.unit = 2 ^ x.exponent / 4

theorem isInterval (h : x.magnitude ≠ 0) : IsInterval x (interval x) := by
  obtain ⟨e, hexponent⟩ : ∃ e, x.exponent = e := ⟨_, rfl⟩
  obtain ⟨⟨num, den⟩, hscale⟩ : ∃ p, Binary64.scaleDown 1 1 (2 - e) = p := ⟨_, rfl⟩
  have hgap : gap x ≤ 4 * x.significand := by
    have := significand_pos h
    rw [gap]
    split <;> omega
  have hpos := Binary64.scaleDown_pos 1 Nat.one_pos (2 - e)
  have hratio := Binary64.scaleDown_ratio 1 1 (2 - e)
  rw [hscale] at hpos hratio
  rw [interval_eq hexponent hscale]
  refine ⟨?_, rfl, rfl, rfl, hpos.ne', ?_⟩
  · rw [Nat.cast_sub hgap]
    push_cast
    rfl
  · show (num : ℚ) / den = _
    rw [hratio, hexponent, neg_sub, zpow_sub₀ (by norm_num)]
    norm_num

theorem roundsTo_of_holds (h : x.magnitude ≠ 0) {d : Nat} {p : Int}
    (hholds : (interval x).holds d p = true) :
    RoundsTo (halves (d * 10 ^ p)) x.magnitude := by
  have hi := isInterval h
  obtain ⟨hlow, hhigh⟩ := significand_bounds x
  have hpow : (0 : ℚ) < 2 ^ x.exponent := by positivity
  obtain ⟨r, hr⟩ : ∃ r : ℚ, r = d * 10 ^ p * 2 ^ (-x.exponent) := ⟨_, rfl⟩
  have hvalue : (d : ℚ) * 10 ^ p = 4 * r * (2 ^ x.exponent / 4) := by
    rw [hr, zpow_neg]
    field_simp
  have hquarter : (0 : ℚ) < 2 ^ x.exponent / 4 := by positivity
  rw [holds_iff _ hi.den, hi.unit, hvalue, hi.low, hi.high, hi.closed] at hholds
  simp only [decide_eq_true_eq, mul_le_mul_iff_left₀ hquarter, mul_lt_mul_iff_left₀ hquarter]
    at hholds
  have hgap : (gap x : ℚ) ≤ 2 := by
    rw [gap]
    split <;> norm_num
  rw [Binary64.halves_eq x.exponent_ge hr, magnitude_eq]
  push_cast at hholds
  have hboth : 4 * (x.significand : ℚ) - gap x ≤ 4 * r ∧ 4 * r ≤ 4 * x.significand + 2 := by
    split at hholds
    · exact hholds
    · exact ⟨hholds.1.le, hholds.2.le⟩
  apply Binary64.roundsTo_of_significand hlow hhigh.le
  · linarith [hboth.2]
  · linarith [hboth.1]
  · refine (em (x.significand % 2 = 0)).imp_right fun hodd => ?_
    rw [if_neg hodd] at hholds
    exact ⟨by linarith [hholds.2], by linarith [hholds.1]⟩
  · rw [hr]
    positivity
  · intro hsignificand hexponent
    have hone : gap x = 1 := if_pos ⟨hsignificand, by omega⟩
    rw [hone, Nat.cast_one] at hboth
    linarith [hboth.1]

theorem lt_pow_digitCount (n : Nat) : n < 10 ^ digitCount n :=
  (Nat.length_toDigits_le_iff (by decide) Nat.length_toDigits_pos).mp (Nat.le_refl _)

theorem pow_digitCount_le {n : Nat} (h : 0 < n) : 10 ^ (digitCount n - 1) ≤ n := by
  by_contra hlt
  by_cases hone : digitCount n - 1 = 0
  · rw [hone] at hlt
    omega
  · have hle : digitCount n ≤ digitCount n - 1 :=
      (Nat.length_toDigits_le_iff (by decide) (by omega)).mpr (by omega)
    omega

theorem leadingPower_le {num den : Nat} (hnum : 0 < num) (hden : 0 < den) :
    (10 : ℚ) ^ leadingPower num den ≤ (num : ℚ) / den := by
  have hpos : (0 : ℚ) < den := Nat.cast_pos.mpr hden
  rw [leadingPower, le_div_iff₀ hpos]
  split
  · rename_i hle
    have hquotient : 0 < num / den := Nat.div_pos hle hden
    have hcount :
        ((digitCount (num / den) : Int) - 1) = ((digitCount (num / den) - 1 : Nat) : Int) := by
      have : 0 < digitCount (num / den) := Nat.length_toDigits_pos
      omega
    rw [hcount, zpow_natCast]
    exact_mod_cast (Nat.mul_le_mul_right den (pow_digitCount_le hquotient)).trans
      (Nat.div_mul_le_self num den)
  · have hlt : (den - 1) / num < 10 ^ digitCount ((den - 1) / num) := lt_pow_digitCount _
    have hle : den ≤ num * 10 ^ digitCount ((den - 1) / num) := by
      have := (Nat.div_lt_iff_lt_mul hnum).mp hlt
      rw [Nat.mul_comm] at this
      omega
    have hpow : (0 : ℚ) < 10 ^ digitCount ((den - 1) / num) := by positivity
    rw [zpow_neg, zpow_natCast, inv_mul_le_iff₀ hpow, mul_comm]
    exact_mod_cast hle

def Interval.onGridNum (i : Interval) (p : Int) : Nat :=
  i.middle * i.num * 10 ^ (-p).toNat

def Interval.onGridDen (i : Interval) (p : Int) : Nat :=
  i.den * 10 ^ p.toNat

/-- The search on one grid tries a point at most half a grid away, and then the one on the other
side of the number. -/
theorem onGrid_eq (tie : Tie) (i : Interval) (hden : i.den ≠ 0) (p : Int) : ∃ nearer further : Nat,
    onGrid tie i p = (if i.holds nearer p then some ⟨nearer, p⟩
      else if i.holds further p then some ⟨further, p⟩ else none) ∧
    2 * (nearer * i.onGridDen p) ≤ 2 * i.onGridNum p + i.onGridDen p ∧
    2 * i.onGridNum p ≤ 2 * (nearer * i.onGridDen p) + i.onGridDen p := by
  unfold onGrid
  extract_lets num den below rest nearer further
  refine ⟨nearer, further, rfl, ?_⟩
  show 2 * (nearer * den) ≤ 2 * num + den ∧ 2 * num ≤ 2 * (nearer * den) + den
  have hpos : 0 < den := Nat.mul_pos (Nat.pos_of_ne_zero hden) (Nat.pow_pos (by decide))
  have hdiv : below * den + rest = num := Nat.div_add_mod' num den
  have hmod : rest < den := Nat.mod_lt num hpos
  have hnearer : nearer = below ∧ 2 * rest ≤ den ∨ nearer = below + 1 ∧ den ≤ 2 * rest := by
    subst nearer further
    clear_value num den below rest
    by_cases hless : 2 * rest < den
    · exact .inl ⟨if_pos hless, hless.le⟩
    rw [if_neg hless]
    by_cases hmore : den < 2 * rest
    · exact .inr ⟨if_pos hmore, hmore.le⟩
    rw [if_neg hmore]
    cases tie with
    | up => exact .inr ⟨rfl, by omega⟩
    | even =>
      by_cases heven : below % 2 = 0
      · exact .inl ⟨if_pos heven, by omega⟩
      · exact .inr ⟨if_neg heven, by omega⟩
  clear_value num den below rest nearer
  obtain ⟨rfl, hrest⟩ | ⟨rfl, hrest⟩ := hnearer
  · omega
  · have hnext : (below + 1) * den = below * den + den := Nat.succ_mul below den
    omega

theorem holds_of_onGrid {tie : Tie} {i : Interval} {p : Int} {d : Decimal} (hden : i.den ≠ 0)
    (h : onGrid tie i p = some d) : i.holds d.digits d.power = true := by
  obtain ⟨nearer, further, heq, -⟩ := onGrid_eq tie i hden p
  rw [heq] at h
  split_ifs at h with hnearer hfurther
  · cases h
    exact hnearer
  · cases h
    exact hfurther

theorem onGrid_ratio (i : Interval) (hden : i.den ≠ 0) (p : Int) :
    (i.onGridNum p : ℚ) * 10 ^ p = i.middle * i.unit * i.onGridDen p := by
  have hpow : (0 : ℚ) < 10 ^ (-p).toNat := by positivity
  have hne : (i.den : ℚ) ≠ 0 := Nat.cast_ne_zero.mpr hden
  rw [Interval.onGridNum, Interval.onGridDen, Interval.unit]
  push_cast
  rw [← ten_zpow p]
  field_simp

/-- A point at most half a grid away from the number lies in the interval when the grid is finer
than twice the gap. -/
theorem holds_of_close (h : x.magnitude ≠ 0) {p : Int} {c : Nat}
    (hfine : (10 : ℚ) ^ p < 2 * (gap x * (interval x).unit))
    (hlow : 2 * (c * (interval x).onGridDen p) ≤
      2 * (interval x).onGridNum p + (interval x).onGridDen p)
    (hhigh : 2 * (interval x).onGridNum p ≤
      2 * (c * (interval x).onGridDen p) + (interval x).onGridDen p) :
    (interval x).holds c p = true := by
  have hi := isInterval h
  obtain ⟨i, heq⟩ : ∃ i, interval x = i := ⟨_, rfl⟩
  rw [heq] at hi hfine hlow hhigh ⊢
  have hratio := onGrid_ratio i hi.den p
  have hgrid : (0 : ℚ) < i.onGridDen p :=
    Nat.cast_pos.mpr (Nat.mul_pos (Nat.pos_of_ne_zero hi.den) (Nat.pow_pos (by decide)))
  have hpow : (0 : ℚ) < 10 ^ p := by positivity
  have hunit : 0 < i.unit := by
    rw [hi.unit]
    positivity
  have hbelow : 2 * ((c : ℚ) * 10 ^ p) ≤ 2 * (i.middle * i.unit) + 10 ^ p := by
    apply le_of_mul_le_mul_right _ hgrid
    calc 2 * ((c : ℚ) * 10 ^ p) * i.onGridDen p = 2 * (c * i.onGridDen p) * 10 ^ p := by ring
      _ ≤ (2 * i.onGridNum p + i.onGridDen p) * 10 ^ p :=
          mul_le_mul_of_nonneg_right (by exact_mod_cast hlow) hpow.le
      _ = 2 * (i.onGridNum p * 10 ^ p) + i.onGridDen p * 10 ^ p := by ring
      _ = (2 * (i.middle * i.unit) + 10 ^ p) * i.onGridDen p := by rw [hratio]; ring
  have habove : 2 * ((i.middle : ℚ) * i.unit) ≤ 2 * (c * 10 ^ p) + 10 ^ p := by
    apply le_of_mul_le_mul_right _ hgrid
    calc 2 * ((i.middle : ℚ) * i.unit) * i.onGridDen p = 2 * i.onGridNum p * 10 ^ p := by
          rw [mul_assoc, ← hratio]; ring
      _ ≤ (2 * (c * i.onGridDen p) + i.onGridDen p) * 10 ^ p :=
          mul_le_mul_of_nonneg_right (by exact_mod_cast hhigh) hpow.le
      _ = (2 * (c * 10 ^ p) + 10 ^ p) * i.onGridDen p := by ring
  have hgap : (gap x : ℚ) * i.unit ≤ 2 * i.unit := by
    apply mul_le_mul_of_nonneg_right _ hunit.le
    rw [gap]
    split <;> norm_num
  rw [hi.middle] at hbelow habove
  push_cast at hbelow habove
  have hends : (i.low : ℚ) * i.unit < c * 10 ^ p ∧ (c : ℚ) * 10 ^ p < i.high * i.unit := by
    rw [hi.low, hi.high]
    push_cast
    constructor <;> linarith
  rw [holds_iff i hi.den]
  split
  · exact ⟨hends.1.le, hends.2.le⟩
  · exact hends

theorem seventeen_fine (h : x.magnitude ≠ 0) {top : Int}
    (htop : (10 : ℚ) ^ top ≤ (interval x).middle * (interval x).unit) :
    (10 : ℚ) ^ (top - 16) < 2 * (gap x * (interval x).unit) := by
  have hi := isInterval h
  have hunit : 0 < (interval x).unit := by
    rw [hi.unit]
    positivity
  have hwide : (4 * x.significand : ℚ) < 2 * gap x * 10 ^ 16 := by
    have hlt := (significand_bounds x).2
    have hwide : 4 * x.significand < 2 * gap x * 10 ^ 16 := by
      rw [gap]
      split
      · rename_i hone
        rw [hone.1]
        decide
      · rw [hiddenBit] at hlt
        omega
    exact_mod_cast hwide
  have hsixteen : (10 : ℚ) ^ (top - 16) * 10 ^ 16 = 10 ^ top := by
    rw [zpow_sub₀ (by norm_num)]
    norm_num
  apply lt_of_mul_lt_mul_right _ (by positivity : (0 : ℚ) ≤ 10 ^ 16)
  calc (10 : ℚ) ^ (top - 16) * 10 ^ 16 ≤ 4 * x.significand * (interval x).unit := by
        rw [hsixteen]
        rw [hi.middle] at htop
        push_cast at htop
        exact htop
    _ < 2 * gap x * 10 ^ 16 * (interval x).unit := mul_lt_mul_of_pos_right hwide hunit
    _ = 2 * (gap x * (interval x).unit) * 10 ^ 16 := by ring

theorem value_dropZeros (n : Nat) (d : Decimal) : (dropZeros n d).value = d.value := by
  induction n generalizing d with
  | zero => rfl
  | succ n ih =>
    rw [dropZeros]
    split
    · rename_i hzero
      have hdigits : (d.digits : ℚ) = (d.digits / 10 : Nat) * 10 := by
        exact_mod_cast (Nat.div_mul_cancel (Nat.dvd_of_mod_eq_zero hzero)).symm
      rw [ih, Decimal.value, Decimal.value, hdigits, zpow_add₀ (by norm_num), zpow_one]
      ring
    · rfl

/-- A grid of seventeen digits at most is found, and the interval holds the point on it. -/
theorem found_exists (tie : Tie) (h : x.magnitude ≠ 0) :
    ∃ d, ((List.range 17).findSome? fun n : Nat => onGrid tie (interval x)
      (leadingPower ((interval x).middle * (interval x).num) (interval x).den - n)) = some d ∧
      (interval x).holds d.digits d.power = true := by
  have hi := isInterval h
  have hmiddle : 0 < (interval x).middle := by
    rw [hi.middle]
    have := significand_pos h
    omega
  have hunit : 0 < (interval x).unit := by
    rw [hi.unit]
    positivity
  have hnum : 0 < (interval x).num := by
    apply Nat.pos_of_ne_zero
    intro hzero
    rw [Interval.unit, hzero] at hunit
    simp at hunit
  have htop := leadingPower_le (Nat.mul_pos hmiddle hnum) (Nat.pos_of_ne_zero hi.den)
  generalize leadingPower ((interval x).middle * (interval x).num) (interval x).den = top at htop ⊢
  rw [Nat.cast_mul, mul_div_assoc] at htop
  have hlast : (onGrid tie (interval x) (top - 16)).isSome = true := by
    obtain ⟨nearer, further, heq, hlow, hhigh⟩ := onGrid_eq tie (interval x) hi.den (top - 16)
    rw [heq, if_pos (holds_of_close h (seventeen_fine h htop) hlow hhigh)]
    rfl
  have hfound : ((List.range 17).findSome? fun n : Nat =>
      onGrid tie (interval x) (top - n)).isSome = true :=
    List.findSome?_isSome_iff.mpr ⟨16, List.mem_range.mpr (by decide), hlast⟩
  obtain ⟨d, hd⟩ := Option.isSome_iff_exists.mp hfound
  obtain ⟨n, -, hgrid⟩ := List.exists_of_findSome?_eq_some hd
  exact ⟨d, hd, holds_of_onGrid hi.den hgrid⟩

theorem ofPositive_roundsTo (tie : Tie) (h : x.magnitude ≠ 0) :
    RoundsTo (halves (ofPositive tie x).value) x.magnitude := by
  obtain ⟨d, hfound, hholds⟩ := found_exists tie h
  rw [ofPositive, hfound, value_dropZeros]
  exact roundsTo_of_holds h hholds

theorem ofPositive_digits_pos (tie : Tie) (h : x.magnitude ≠ 0) :
    0 < (ofPositive tie x).digits := by
  apply Nat.pos_of_ne_zero
  intro hzero
  have hround := ofPositive_roundsTo tie h
  have hvalue : halves (ofPositive tie x).value = 0 := by
    rw [Decimal.value, hzero]
    simp [halves]
  rw [hvalue] at hround
  exact h (hround.unique Binary64.roundsTo_zero)

end Shortest

end RelQuery
