import Mathlib.Tactic.Linarith
import Mathlib.Tactic.Positivity
import RelQuery.Proofs.Number.Whole

/-!
# Nearest numbers

Every real rounds to one magnitude: the one whose two half way points lie around it, and at a half
way point the even one. A fraction is rounded to that magnitude.
-/

set_option autoImplicit false

namespace RelQuery.Binary64

/-- The magnitude of a significand `q` at the exponent `e`; a full significand carries over. -/
theorem steps_of_significand {e q : Nat} (hlow : e = 0 ∨ hiddenBit ≤ q)
    (hhigh : q ≤ 2 * hiddenBit) :
    steps (e * hiddenBit + q) = q * 2 ^ e := by
  have hpos : 0 < hiddenBit := by decide
  by_cases hsmall : q < hiddenBit
  · obtain rfl : e = 0 := hlow.resolve_right (by omega)
    rw [Nat.zero_mul, Nat.zero_add, steps, if_pos hsmall, Nat.pow_zero, Nat.mul_one]
  have hnormal : ¬e * hiddenBit + q < hiddenBit := by omega
  rw [steps, if_neg hnormal]
  by_cases hfull : q = 2 * hiddenBit
  · have hsum : e * hiddenBit + q = hiddenBit * (e + 2) := by rw [hfull]; ring
    rw [hsum, Nat.mul_mod_right, Nat.mul_div_cancel_left _ hpos, hfull]
    show (0 + hiddenBit) * 2 ^ (e + 1) = 2 * hiddenBit * 2 ^ e
    rw [Nat.zero_add, Nat.pow_succ]
    ring
  · have hsum : e * hiddenBit + q = (q - hiddenBit) + hiddenBit * (e + 1) := by
      rw [Nat.mul_succ, Nat.mul_comm]
      omega
    have hlt : q - hiddenBit < hiddenBit := by omega
    rw [hsum, Nat.add_mul_mod_self_left, Nat.add_mul_div_left _ _ hpos, Nat.mod_eq_of_lt hlt,
      Nat.div_eq_of_lt hlt, Nat.zero_add, Nat.add_sub_cancel, Nat.sub_add_cancel (by omega)]

theorem steps_next {e q : Nat} (hlow : e = 0 ∨ hiddenBit ≤ q) (hhigh : q ≤ 2 * hiddenBit) :
    (q + 1) * 2 ^ e ≤ steps (e * hiddenBit + q + 1) := by
  by_cases hfull : q = 2 * hiddenBit
  · have hcarry : e * hiddenBit + q + 1 = (e + 1) * hiddenBit + (hiddenBit + 1) := by
      rw [hfull]; ring
    rw [hcarry, steps_of_significand (.inr (by omega)) (by decide), hfull, Nat.pow_succ]
    have hpow : 0 < 2 ^ e := Nat.two_pow_pos e
    calc (2 * hiddenBit + 1) * 2 ^ e ≤ (2 * hiddenBit + 2) * 2 ^ e :=
          Nat.mul_le_mul_right _ (by omega)
      _ = (hiddenBit + 1) * (2 ^ e * 2) := by ring
  · rw [Nat.add_assoc, steps_of_significand (hlow.imp_right (by omega)) (by omega)]

theorem steps_before {e q : Nat} (hlow : e = 0 ∨ hiddenBit ≤ q) (hhigh : q < 2 * hiddenBit) :
    steps (e * hiddenBit + (q + 1) - 1) = q * 2 ^ e := by
  rw [← Nat.add_assoc, Nat.add_sub_cancel, steps_of_significand hlow hhigh.le]

/-- Before the smallest significand comes a full one at the exponent below. -/
theorem steps_before_hiddenBit (e : Nat) :
    steps ((e + 1) * hiddenBit + hiddenBit - 1) = (2 * hiddenBit - 1) * 2 ^ e := by
  have hcarry : (e + 1) * hiddenBit + hiddenBit - 1 = e * hiddenBit + (2 * hiddenBit - 1) := by
    rw [Nat.succ_mul, Nat.add_assoc, Nat.two_mul, Nat.add_sub_assoc (by decide)]
  rw [hcarry, steps_of_significand (.inr (by decide)) (by decide)]

/-- A real, counted in halves of the smallest step, rounds to the magnitude `n`. -/
structure RoundsTo (halves : ℚ) (n : Nat) : Prop where
  low : ((steps (n - 1) + steps n : Nat) : ℚ) ≤ halves
  high : halves ≤ ((steps n + steps (n + 1) : Nat) : ℚ)
  even : n % 2 = 0 ∨ ((steps (n - 1) + steps n : Nat) : ℚ) < halves ∧
    halves < ((steps n + steps (n + 1) : Nat) : ℚ)

theorem RoundsTo.le {halves : ℚ} {m n : Nat} (hm : RoundsTo halves m) (hn : RoundsTo halves n) :
    n ≤ m := by
  by_contra hlt
  have hnext : m + 1 ≤ n := by omega
  have hfirst : steps m ≤ steps (n - 1) := steps_strictMono.monotone (by omega)
  have hsecond : steps (m + 1) ≤ steps n := steps_strictMono.monotone hnext
  have hbelow : ((steps m + steps (m + 1) : Nat) : ℚ) ≤ ((steps (n - 1) + steps n : Nat) : ℚ) :=
    Nat.cast_le.mpr (Nat.add_le_add hfirst hsecond)
  have hmid : halves = ((steps m + steps (m + 1) : Nat) : ℚ) :=
    le_antisymm hm.high (hbelow.trans hn.low)
  -- the real is the half way point between neighbours, so both of them would be even
  have hsame : steps m + steps (m + 1) = steps (n - 1) + steps n :=
    le_antisymm (Nat.add_le_add hfirst hsecond) (Nat.cast_le.mp (hmid ▸ hn.low))
  have hneighbour : m = n - 1 := steps_strictMono.injective (by omega)
  have hmeven : m % 2 = 0 := hm.even.resolve_right fun h => (ne_of_lt h.2) hmid
  have hneven : n % 2 = 0 := by
    apply hn.even.resolve_right
    intro h
    rw [hmid, hsame] at h
    exact lt_irrefl _ h.1
  omega

theorem RoundsTo.unique {halves : ℚ} {m n : Nat} (hm : RoundsTo halves m)
    (hn : RoundsTo halves n) : m = n :=
  le_antisymm (hn.le hm) (hm.le hn)

/-- A real within half a unit of a significand rounds to it, of two halves to the even one; below
the smallest significand the neighbour is half as far. -/
theorem roundsTo_of_significand {e q : Nat} {r : ℚ} (hlow : e = 0 ∨ hiddenBit ≤ q)
    (hhigh : q ≤ 2 * hiddenBit) (hbelow : 2 * r ≤ 2 * q + 1) (habove : 2 * (q : ℚ) ≤ 2 * r + 1)
    (heven : q % 2 = 0 ∨ 2 * r < 2 * q + 1 ∧ 2 * (q : ℚ) < 2 * r + 1) (hpos : 0 ≤ r)
    (hedge : q = hiddenBit → e ≠ 0 → 4 * (q : ℚ) ≤ 4 * r + 1) :
    RoundsTo (2 * r * 2 ^ e) (e * hiddenBit + q) := by
  have hpow : (0 : ℚ) < 2 ^ e := by positivity
  have hsteps := steps_of_significand hlow hhigh
  have hnext : (2 * (q : ℚ) + 1) * 2 ^ e ≤
      ((steps (e * hiddenBit + q) + steps (e * hiddenBit + q + 1) : Nat) : ℚ) := by
    calc (2 * (q : ℚ) + 1) * 2 ^ e = ((q * 2 ^ e + (q + 1) * 2 ^ e : Nat) : ℚ) := by push_cast; ring
      _ ≤ _ := by rw [hsteps]; exact Nat.cast_le.mpr (Nat.add_le_add_left (steps_next hlow hhigh) _)
  have hparity : (e * hiddenBit + q) % 2 = q % 2 := by
    rw [hiddenBit]
    omega
  by_cases hprevious : 0 < q ∧ (e = 0 ∨ q ≠ hiddenBit)
  · -- the magnitude before has the same exponent
    obtain ⟨p, rfl⟩ : ∃ p, q = p + 1 := ⟨q - 1, by omega⟩
    have hbefore :
        ((steps (e * hiddenBit + (p + 1) - 1) + steps (e * hiddenBit + (p + 1)) : Nat) : ℚ) =
        (2 * ((p + 1 : Nat) : ℚ) - 1) * 2 ^ e := by
      rw [hsteps, steps_before (by omega) (by omega)]
      push_cast
      ring
    refine ⟨?_, ?_, ?_⟩
    · rw [hbefore]
      exact mul_le_mul_of_nonneg_right (by linarith) hpow.le
    · exact (mul_le_mul_of_nonneg_right hbelow hpow.le).trans hnext
    · rw [hparity, hbefore]
      refine heven.imp_right fun h => ⟨?_, ?_⟩
      · exact mul_lt_mul_of_pos_right (by linarith [h.2]) hpow
      · exact (mul_lt_mul_of_pos_right h.1 hpow).trans_le hnext
  · have hqeven : q % 2 = 0 := by
      rw [hiddenBit] at hprevious hlow
      omega
    refine ⟨?_, (mul_le_mul_of_nonneg_right hbelow hpow.le).trans hnext, .inl (hparity ▸ hqeven)⟩
    by_cases hzero : q = 0
    · obtain rfl : e = 0 := hlow.resolve_right (by rw [hzero]; decide)
      subst hzero
      simpa [steps_zero] using hpos
    · obtain ⟨f, rfl⟩ : ∃ f, e = f + 1 := ⟨e - 1, by omega⟩
      obtain rfl : q = hiddenBit := by omega
      rw [hsteps, steps_before_hiddenBit]
      calc (((2 * hiddenBit - 1) * 2 ^ f + hiddenBit * 2 ^ (f + 1) : Nat) : ℚ)
          = (4 * (hiddenBit : ℚ) - 1) * 2 ^ f := by
            rw [pow_succ]
            push_cast [Nat.cast_sub (show 1 ≤ 2 * hiddenBit by decide)]
            ring
        _ ≤ 4 * r * 2 ^ f :=
            mul_le_mul_of_nonneg_right (by linarith [hedge rfl (Nat.succ_ne_zero f)])
              (by positivity)
        _ = 2 * r * 2 ^ (f + 1) := by ring

theorem roundsTo_zero : RoundsTo 0 0 := by
  refine ⟨?_, ?_, .inl rfl⟩
  · simp [steps_zero]
  · exact Nat.cast_nonneg _

theorem scaleDown_pos (num : Nat) {den : Nat} (h : 0 < den) (e : Int) :
    0 < (scaleDown num den e).2 := by
  rw [scaleDown]
  split
  · exact Nat.mul_pos h (Nat.two_pow_pos _)
  · exact h

theorem scaleDown_ratio (num den : Nat) (e : Int) :
    ((scaleDown num den e).1 : ℚ) / (scaleDown num den e).2 = (num : ℚ) / den * 2 ^ (-e) := by
  rw [scaleDown]
  split
  · rename_i he
    obtain ⟨k, rfl⟩ := Int.eq_ofNat_of_zero_le he
    show (num : ℚ) / ((den * 2 ^ k : Nat) : ℚ) = _
    rw [zpow_neg, zpow_natCast]
    push_cast
    rw [div_mul_eq_div_div, div_eq_mul_inv _ ((2 : ℚ) ^ k)]
  · rename_i he
    obtain ⟨k, hk⟩ := Int.eq_ofNat_of_zero_le (show 0 ≤ -e by omega)
    rw [hk]
    show ((num * 2 ^ k : Nat) : ℚ) / den = _
    rw [zpow_natCast]
    push_cast
    ring

theorem log2_bounds {n : Nat} (h : n ≠ 0) :
    (2 : ℚ) ^ (n.log2 : Int) ≤ n ∧ (n : ℚ) < 2 ^ ((n.log2 : Int) + 1) := by
  constructor
  · rw [zpow_natCast]
    exact_mod_cast Nat.log2_self_le h
  · rw [← Nat.cast_succ, zpow_natCast]
    exact_mod_cast Nat.lt_log2_self

theorem guess_bounds {num den : Nat} (hnum : num ≠ 0) (hden : den ≠ 0) :
    (2 : ℚ) ^ (51 : Int) < (num : ℚ) / den * 2 ^ (-((num.log2 : Int) - den.log2 - 52)) ∧
      (num : ℚ) / den * 2 ^ (-((num.log2 : Int) - den.log2 - 52)) < 2 ^ (53 : Int) := by
  obtain ⟨hnumlow, hnumhigh⟩ := log2_bounds hnum
  obtain ⟨hdenlow, hdenhigh⟩ := log2_bounds hden
  have hpos : (0 : ℚ) < den := Nat.cast_pos.mpr (Nat.pos_of_ne_zero hden)
  generalize (num.log2 : Int) = a at *
  generalize (den.log2 : Int) = b at *
  have hpow : (0 : ℚ) < 2 ^ (-(a - b - 52)) := by positivity
  rw [div_mul_eq_mul_div, lt_div_iff₀ hpos, div_lt_iff₀ hpos]
  constructor
  · calc (2 : ℚ) ^ (51 : Int) * den < 2 ^ (51 : Int) * 2 ^ (b + 1) :=
          mul_lt_mul_of_pos_left hdenhigh (by positivity)
      _ = 2 ^ a * 2 ^ (-(a - b - 52)) := by
          rw [← zpow_add₀ (by norm_num), ← zpow_add₀ (by norm_num)]
          congr 1
          ring
      _ ≤ num * 2 ^ (-(a - b - 52)) := mul_le_mul_of_nonneg_right hnumlow hpow.le
  · calc (num : ℚ) * 2 ^ (-(a - b - 52)) < 2 ^ (a + 1) * 2 ^ (-(a - b - 52)) :=
          mul_lt_mul_of_pos_right hnumhigh hpow
      _ = 2 ^ (53 : Int) * 2 ^ b := by
          rw [← zpow_add₀ (by norm_num), ← zpow_add₀ (by norm_num)]
          congr 1
          ring
      _ ≤ 2 ^ (53 : Int) * den := mul_le_mul_of_nonneg_left hdenlow (by positivity)

/-- The exponent that is taken leaves 53 bits before the point, or fewer at the last place. -/
theorem exponentFor_bounds {num den : Nat} (hnum : num ≠ 0) (hden : den ≠ 0) :
    (num : ℚ) / den * 2 ^ (-exponentFor num den) < 2 ^ (53 : Int) ∧
      (exponentFor num den = -1074 ∨
        (2 : ℚ) ^ (52 : Int) ≤ (num : ℚ) / den * 2 ^ (-exponentFor num den)) := by
  obtain ⟨hlow, hhigh⟩ := guess_bounds hnum hden
  obtain ⟨guess, hguess⟩ : ∃ guess : Int, (num.log2 : Int) - den.log2 - 52 = guess := ⟨_, rfl⟩
  have hscale := scaleDown_ratio num den guess
  have hpos : (0 : ℚ) < (scaleDown num den guess).2 :=
    Nat.cast_pos.mpr (scaleDown_pos num (Nat.pos_of_ne_zero hden) guess)
  rw [hguess] at hlow hhigh
  have hexponent : exponentFor num den = max (if (scaleDown num den guess).1 <
      (scaleDown num den guess).2 * hiddenBit then guess - 1 else guess) (-1074) := by
    rw [exponentFor, hguess]
  have hfree : ∃ free : Int, exponentFor num den = max free (-1074) ∧
      (num : ℚ) / den * 2 ^ (-free) < 2 ^ (53 : Int) ∧
      (2 : ℚ) ^ (52 : Int) ≤ (num : ℚ) / den * 2 ^ (-free) := by
    by_cases hbits : (scaleDown num den guess).1 < (scaleDown num den guess).2 * hiddenBit
    · rw [if_pos hbits] at hexponent
      have hhalf : (num : ℚ) / den * 2 ^ (-guess) < 2 ^ (52 : Int) := by
        rw [← hscale, div_lt_iff₀ hpos, mul_comm]
        exact_mod_cast hbits
      have hdouble : (num : ℚ) / den * 2 ^ (-(guess - 1)) =
          2 * ((num : ℚ) / den * 2 ^ (-guess)) := by
        rw [neg_sub, sub_eq_add_neg, zpow_add₀ (by norm_num), zpow_one]
        ring
      refine ⟨guess - 1, hexponent, ?_, ?_⟩
      · rw [hdouble]
        calc _ < 2 * (2 : ℚ) ^ (52 : Int) := by linarith
          _ = 2 ^ (53 : Int) := by norm_num
      · rw [hdouble]
        calc (2 : ℚ) ^ (52 : Int) = 2 * 2 ^ (51 : Int) := by norm_num
          _ ≤ _ := by linarith
    · rw [if_neg hbits] at hexponent
      refine ⟨guess, hexponent, hhigh, ?_⟩
      rw [← hscale, le_div_iff₀ hpos, mul_comm]
      exact_mod_cast Nat.le_of_not_lt hbits
  obtain ⟨free, hmax, hless, hmore⟩ := hfree
  by_cases hclamp : -1074 ≤ free
  · rw [max_eq_left hclamp] at hmax
    rw [hmax]
    exact ⟨hless, .inr hmore⟩
  · rw [max_eq_right (by omega)] at hmax
    rw [hmax]
    refine ⟨lt_of_le_of_lt ?_ hless, .inl rfl⟩
    have hratio : (0 : ℚ) ≤ (num : ℚ) / den := by positivity
    exact mul_le_mul_of_nonneg_left (zpow_le_zpow_right₀ (by norm_num) (by omega)) hratio

theorem roundHalfEven_bounds {num den : Nat} (h : 0 < den) :
    2 * num ≤ (2 * roundHalfEven num den + 1) * den ∧
      2 * roundHalfEven num den * den ≤ 2 * num + den ∧
      (roundHalfEven num den % 2 = 0 ∨ 2 * num < (2 * roundHalfEven num den + 1) * den ∧
        2 * roundHalfEven num den * den < 2 * num + den) := by
  have hdiv := Nat.div_add_mod num den
  have hmod := Nat.mod_lt num h
  have hnext : ∀ q : Nat, (2 * q + 1) * den = 2 * (den * q) + den := fun q => by ring
  have hsame : ∀ q : Nat, 2 * q * den = 2 * (den * q) := fun q => by ring
  have hsucc : den * (num / den + 1) = den * (num / den) + den := by ring
  rw [roundHalfEven, hnext, hsame]
  split_ifs
  · omega
  · rw [hsucc]
    omega
  · omega
  · rw [hsucc]
    omega

theorem roundsTo_roundHalfEven {num den e : Nat} (hden : 0 < den)
    (hless : num < 2 * hiddenBit * den) (hmore : e = 0 ∨ hiddenBit * den ≤ num) :
    RoundsTo (2 * ((num : ℚ) / den) * 2 ^ e) (e * hiddenBit + roundHalfEven num den) := by
  obtain ⟨hbelow, habove, heven⟩ := roundHalfEven_bounds hden
  generalize roundHalfEven num den = q at hbelow habove heven
  have hnormal : e = 0 ∨ hiddenBit ≤ q := by
    refine hmore.imp_right fun hle => ?_
    have : 2 * hiddenBit * den ≤ (2 * q + 1) * den := by linarith
    have := Nat.le_of_mul_le_mul_right this hden
    omega
  have hfull : q ≤ 2 * hiddenBit := by
    have : 2 * q * den < (4 * hiddenBit + 1) * den := by linarith
    have := Nat.lt_of_mul_lt_mul_right this
    omega
  have hpos : (0 : ℚ) < den := Nat.cast_pos.mpr hden
  obtain ⟨r, hr⟩ : ∃ r : ℚ, (num : ℚ) / den = r := ⟨_, rfl⟩
  have hnum : (num : ℚ) = r * den := by rw [← hr, div_mul_cancel₀ _ hpos.ne']
  have hdrop : ∀ {x y : ℚ}, x * den ≤ y * den → x ≤ y := fun h => le_of_mul_le_mul_right h hpos
  have hstrict : ∀ {x y : ℚ}, x * den < y * den → x < y :=
    fun h => lt_of_mul_lt_mul_right h hpos.le
  rw [hr]
  apply roundsTo_of_significand hnormal hfull
  · apply hdrop
    rw [mul_assoc, ← hnum]
    exact_mod_cast hbelow
  · apply hdrop
    rw [add_mul, mul_assoc 2 r, ← hnum, one_mul]
    exact_mod_cast habove
  · refine heven.imp_right fun h => ⟨hstrict ?_, hstrict ?_⟩
    · rw [mul_assoc, ← hnum]
      exact_mod_cast h.1
    · rw [add_mul, mul_assoc 2 r, ← hnum, one_mul]
      exact_mod_cast h.2
  · rw [← hr]
    positivity
  · intro hq hlast
    have hle : (hiddenBit : ℚ) ≤ r := by
      apply hdrop
      rw [← hnum]
      exact_mod_cast hmore.resolve_left hlast
    rw [hq]
    linarith

/-- A real in halves of the smallest step. -/
def halves (q : ℚ) : ℚ :=
  2 * q * stepsOfOne

theorem halves_eq {q r : ℚ} {e : Int} (he : -1074 ≤ e) (h : r = q * 2 ^ (-e)) :
    halves q = 2 * r * 2 ^ (e + 1074).toNat := by
  have hone : (stepsOfOne : ℚ) = 2 ^ (1074 : Int) := by
    have hplace : (1074 : Int) = lastPlace := by rw [lastPlace_eq]; rfl
    rw [hplace, zpow_natCast, stepsOfOne]
    push_cast
    rfl
  have hexponent : (2 : ℚ) ^ (e + 1074).toNat = 2 ^ e * 2 ^ (1074 : Int) := by
    rw [← zpow_natCast, Int.toNat_of_nonneg (by omega), zpow_add₀ (by norm_num)]
  have hq : q = r * 2 ^ e := by
    rw [h, mul_assoc, ← zpow_add₀ (by norm_num), neg_add_cancel, zpow_zero, mul_one]
  rw [halves, hone, hexponent, hq]
  ring

theorem exists_roundsTo (num : Nat) {den : Nat} (hden : den ≠ 0) :
    ∃ n, RoundsTo (halves ((num : ℚ) / den)) n ∧
      ∀ negative, ofFraction negative num den = ofMagnitude negative n := by
  by_cases hnum : num = 0
  · have hzero : halves ((num : ℚ) / den) = 0 := by simp [halves, hnum]
    exact ⟨0, hzero ▸ roundsTo_zero, fun negative => by rw [ofFraction, if_pos hnum]⟩
  obtain ⟨e, hexponent⟩ : ∃ e, exponentFor num den = e := ⟨_, rfl⟩
  obtain ⟨⟨a, b⟩, hscale⟩ : ∃ p, scaleDown num den e = p := ⟨_, rfl⟩
  have hge := exponentFor_ge num den
  obtain ⟨hless, hmore⟩ := exponentFor_bounds hnum hden
  have hratio := scaleDown_ratio num den e
  have hb := scaleDown_pos num (Nat.pos_of_ne_zero hden) e
  rw [hscale] at hratio hb
  rw [hexponent] at hge hless hmore
  rw [← hratio] at hless hmore
  have hpos : (0 : ℚ) < b := Nat.cast_pos.mpr hb
  rw [div_lt_iff₀ hpos] at hless
  rw [le_div_iff₀ hpos] at hmore
  refine ⟨_, ?_, fun negative => ofFraction_eq hnum hexponent hscale⟩
  rw [halves_eq hge hratio]
  apply roundsTo_roundHalfEven hb
  · exact_mod_cast hless
  · refine hmore.imp (fun h => by rw [h]; rfl) fun h => ?_
    exact_mod_cast h

theorem ofFraction_eq_of_roundsTo {negative : Bool} {num den n : Nat} (hden : den ≠ 0)
    (h : RoundsTo (halves ((num : ℚ) / den)) n) :
    ofFraction negative num den = ofMagnitude negative n := by
  obtain ⟨m, hm, hround⟩ := exists_roundsTo num hden
  rw [hround, hm.unique h]

theorem roundsTo_steps (n : Nat) : RoundsTo (2 * steps n) n := by
  have hbefore : steps (n - 1) ≤ steps n := steps_strictMono.monotone (Nat.sub_le n 1)
  have hafter : steps n < steps (n + 1) := steps_lt_succ n
  have htwice : (2 * (steps n : ℚ)) = ((steps n + steps n : Nat) : ℚ) := by
    push_cast
    ring
  rw [htwice]
  refine ⟨Nat.cast_le.mpr (by omega), Nat.cast_le.mpr (by omega), ?_⟩
  by_cases heven : n % 2 = 0
  · exact .inl heven
  · have hstrict : steps (n - 1) < steps n := steps_strictMono (by omega)
    exact .inr ⟨Nat.cast_lt.mpr (by omega), Nat.cast_lt.mpr (by omega)⟩

def absolute (x : Binary64) : ℚ :=
  (x.toFraction.1 : ℚ) / x.toFraction.2

theorem absolute_eq (x : Binary64) : x.absolute = (steps x.magnitude : ℚ) / stepsOfOne := by
  have hsteps : (x.toFraction.1 : ℚ) * stepsOfOne = steps x.magnitude * x.toFraction.2 := by
    exact_mod_cast x.toFraction_steps
  have hone : (stepsOfOne : ℚ) ≠ 0 := Nat.cast_ne_zero.mpr stepsOfOne_pos.ne'
  have hden : (x.toFraction.2 : ℚ) ≠ 0 := Nat.cast_ne_zero.mpr x.toFraction_pos.ne'
  rw [absolute, div_eq_div_iff hden hone, hsteps]

theorem absolute_ofFraction {num den n : Nat} (negative : Bool) (hden : den ≠ 0)
    (hn : n ≤ infiniteMagnitude) (h : (num : ℚ) / den = steps n / stepsOfOne) :
    (ofFraction negative num den).absolute = (num : ℚ) / den := by
  have hone : (stepsOfOne : ℚ) ≠ 0 := Nat.cast_ne_zero.mpr stepsOfOne_pos.ne'
  have hhalves : halves ((num : ℚ) / den) = 2 * steps n := by
    rw [halves, h, mul_assoc, div_mul_cancel₀ _ hone]
  rw [ofFraction_eq_of_roundsTo hden (hhalves ▸ roundsTo_steps n), absolute_eq,
    magnitude_ofMagnitude, Nat.min_eq_left hn, h]

theorem ofFraction_congr {num den num' den' : Nat} (negative : Bool) (hden : den ≠ 0)
    (hden' : den' ≠ 0) (h : (num : ℚ) / den = (num' : ℚ) / den') :
    ofFraction negative num den = ofFraction negative num' den' := by
  obtain ⟨n, hn, hround⟩ := exists_roundsTo num hden
  rw [hround, ofFraction_eq_of_roundsTo hden' (h ▸ hn)]

theorem exists_shift {d : Nat} (hpos : d ≠ 0) (hd : d ≤ 2 * hiddenBit) :
    ∃ shift ≤ 52, hiddenBit ≤ d * 2 ^ shift ∧ d * 2 ^ shift ≤ 2 * hiddenBit := by
  by_cases hfull : d = 2 * hiddenBit
  · exact ⟨0, by decide, by rw [hfull]; decide, by rw [hfull]; decide⟩
  · have hlog : d.log2 < 53 := (Nat.log2_lt hpos).mpr (by rw [hiddenBit] at hd hfull; omega)
    refine ⟨52 - d.log2, Nat.sub_le _ _, ?_, ?_⟩
    · calc hiddenBit = 2 ^ d.log2 * 2 ^ (52 - d.log2) := by
            rw [← Nat.pow_add, Nat.add_sub_cancel' (by omega)]
            rfl
        _ ≤ d * 2 ^ (52 - d.log2) := Nat.mul_le_mul_right _ (Nat.log2_self_le hpos)
    · calc d * 2 ^ (52 - d.log2) ≤ 2 ^ (d.log2 + 1) * 2 ^ (52 - d.log2) :=
            Nat.mul_le_mul_right _ Nat.lt_log2_self.le
        _ = 2 * hiddenBit := by
            rw [← Nat.pow_add, show d.log2 + 1 + (52 - d.log2) = 53 by omega]
            rfl

theorem exists_steps {d : Nat} (hd : d ≤ 2 * hiddenBit) {j : Nat} (hj : j ≤ 800) :
    ∃ n ≤ infiniteMagnitude, (steps n : ℚ) / stepsOfOne = (d * 2 ^ j : Nat) := by
  have hone : (stepsOfOne : ℚ) ≠ 0 := Nat.cast_ne_zero.mpr stepsOfOne_pos.ne'
  by_cases hzero : d = 0
  · refine ⟨0, Nat.zero_le _, ?_⟩
    simp [hzero, steps_zero]
  obtain ⟨shift, hshift, hlow, hhigh⟩ := exists_shift hzero hd
  have hexponent : 1074 + j - shift + shift = lastPlace + j := by
    rw [lastPlace_eq]
    omega
  refine ⟨(1074 + j - shift) * hiddenBit + d * 2 ^ shift, ?_, ?_⟩
  · have : (1074 + j - shift) * hiddenBit ≤ 1874 * hiddenBit := Nat.mul_le_mul_right _ (by omega)
    rw [infiniteMagnitude]
    omega
  · rw [steps_of_significand (.inr hlow) hhigh, div_eq_iff hone, stepsOfOne]
    have hnat : d * 2 ^ shift * 2 ^ (1074 + j - shift) = d * 2 ^ j * 2 ^ lastPlace := by
      rw [Nat.mul_assoc, ← Nat.pow_add, Nat.mul_assoc, ← Nat.pow_add, Nat.add_comm shift, hexponent,
        Nat.add_comm]
    exact_mod_cast hnat

end RelQuery.Binary64
