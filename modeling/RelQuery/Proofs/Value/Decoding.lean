import RelQuery.Proofs.Number.Whole
import RelQuery.Value.Conversion

/-!
# Integers read from values

A value is an integer when it holds one, or a real that is one exactly. The 64 bit integer is read
by a comparison of reals and a truncation, and the narrower types are read from it.
-/

set_option autoImplicit false

namespace RelQuery

namespace Value

/-- An integer of 64 bits that a value holds, as such or as a real that is exactly it. -/
inductive IsInteger : Value → Int → Prop
  | integer (n : Int64) : IsInteger (.integer n) n.toInt
  | real {x : Binary64} {n : Int} (hx : x.rational? = some (n : ℚ)) (hlow : -2 ^ 63 ≤ n)
    (hhigh : n < 2 ^ 63) : IsInteger (.real x) n

theorem asInteger?_real {x : Binary64} {m : Int64} :
    (Value.real x).asInteger? = some m ↔ x.rational? = some (m.toInt : ℚ) := by
  have htest : (x.fractionalPart.isZero && Binary64.atMost (.ofInt Int64.minValue.toInt) x &&
      x.below (.ofInt Int64.maxValue.toInt)) = true ↔
      (x.isFinite = true ∧ Binary64.steps x.magnitude % Binary64.stepsOfOne = 0) ∧
        -2 ^ 63 * (Binary64.stepsOfOne : Int) ≤ x.signedSteps ∧
          x.signedSteps < 2 ^ 63 * (Binary64.stepsOfOne : Int) := by
    rw [Bool.and_eq_true, Bool.and_eq_true, Binary64.isZero_fractionalPart, and_assoc]
    exact and_congr_right fun h => Binary64.bounds_iff h.1
  have hone : (0 : Int) < Binary64.stepsOfOne := Int.natCast_pos.mpr Binary64.stepsOfOne_pos
  rw [asInteger?, Binary64.rational?_eq_some_iff]
  constructor
  · intro h
    split at h
    · rename_i hpasses
      cases h
      obtain ⟨⟨hfinite, hwhole⟩, hlow, hhigh⟩ := htest.mp hpasses
      obtain ⟨n, hn⟩ := (Binary64.whole_iff x).mp hwhole
      rw [hn] at hlow hhigh
      refine ⟨hfinite, ?_⟩
      rw [Binary64.toInt_toInt64 hfinite hn (le_of_mul_le_mul_right hlow hone)
        (lt_of_mul_lt_mul_right hhigh hone.le), hn]
    · cases h
  · rintro ⟨hfinite, hsteps⟩
    have hlow : -2 ^ 63 ≤ m.toInt := m.le_toInt
    have hhigh : m.toInt < 2 ^ 63 := m.toInt_lt
    rw [if_pos, Option.some.injEq, ← Int64.toInt_inj]
    · exact Binary64.toInt_toInt64 hfinite hsteps hlow hhigh
    · refine htest.mpr ⟨⟨hfinite, (Binary64.whole_iff x).mpr ⟨_, hsteps⟩⟩, ?_, ?_⟩
      · rw [hsteps]
        exact Int.mul_le_mul_of_nonneg_right hlow hone.le
      · rw [hsteps]
        exact Int.mul_lt_mul_of_pos_right hhigh hone

theorem asInteger?_iff {v : Value} {n : Int} :
    (∃ m, v.asInteger? = some m ∧ m.toInt = n) ↔ v.IsInteger n := by
  cases v with
  | integer k =>
    constructor
    · rintro ⟨m, ⟨⟩, rfl⟩
      exact .integer k
    · rintro ⟨⟩
      exact ⟨k, rfl, rfl⟩
  | real x =>
    constructor
    · rintro ⟨m, hm, rfl⟩
      exact .real (asInteger?_real.mp hm) m.le_toInt m.toInt_lt
    · rintro (_ | ⟨hx, hlow, hhigh⟩)
      have hn : (Int64.ofInt n).toInt = n := Int64.toInt_ofInt_of_le hlow hhigh
      exact ⟨.ofInt n, asInteger?_real.mpr (hn.symm ▸ hx), hn⟩
  | null | text | blob =>
    constructor
    · rintro ⟨m, ⟨⟩, -⟩
    · rintro ⟨⟩

end Value

/-- A value is read as a type, and what is read stands for the integer. -/
def Decodes {α : Type} [OfValue α] (toInt : α → Int) (v : Value) (n : Int) : Prop :=
  ∃ a : α, OfValue.ofValue? v = some a ∧ toInt a = n

section

variable {v : Value} {n : Int}

theorem decodes_iff {α : Type} [OfValue α] {toInt : α → Int} (ofInt : Int → α) (P : Int → Prop)
    [DecidablePred P]
    (hread : ∀ v : Value, (OfValue.ofValue? v : Option α) = v.asInteger?.bind fun m =>
      if P m.toInt then some (ofInt m.toInt) else none)
    (hinverse : ∀ n : Int, P n → n < 2 ^ 63 → toInt (ofInt n) = n) :
    Decodes toInt v n ↔ v.IsInteger n ∧ P n := by
  rw [← Value.asInteger?_iff, Decodes, hread]
  constructor
  · rintro ⟨a, ha, rfl⟩
    obtain ⟨m, hm, ha⟩ := Option.bind_eq_some_iff.mp ha
    split at ha
    · rename_i hrange
      cases ha
      rw [hinverse _ hrange m.toInt_lt]
      exact ⟨⟨m, hm, rfl⟩, hrange⟩
    · cases ha
  · rintro ⟨⟨m, hm, rfl⟩, hrange⟩
    exact ⟨ofInt m.toInt, by rw [hm, Option.bind_some, if_pos hrange],
      hinverse _ hrange m.toInt_lt⟩

theorem decodes_int32 :
    Decodes Int32.toInt v n ↔ v.IsInteger n ∧ -2 ^ 31 ≤ n ∧ n < 2 ^ 31 := by
  rw [decodes_iff Int32.ofInt
    (fun n => Int32.minValue.toInt ≤ n ∧ n ≤ Int32.maxValue.toInt) (fun _ => rfl)]
  · have hmin : Int32.minValue.toInt = -2 ^ 31 := by decide
    have hmax : Int32.maxValue.toInt = 2 ^ 31 - 1 := by decide
    rw [hmin, hmax, Int.le_sub_one_iff]
  · intro n hn _
    exact Int32.toInt_ofInt_of_le hn.1 (Int.lt_of_le_of_lt hn.2 (by decide))

theorem decodes_uint32 : Decodes (fun a : UInt32 => (a.toNat : Int)) v n ↔
    v.IsInteger n ∧ 0 ≤ n ∧ n < 2 ^ 32 := by
  rw [decodes_iff (fun n => UInt32.ofNat n.toNat)
    (fun n => 0 ≤ n ∧ n < UInt32.size) (fun _ => rfl)]
  · exact Iff.rfl
  · intro n hn _
    have hlt : n.toNat < UInt32.size := (Int.toNat_lt hn.1).mpr hn.2
    rw [UInt32.toNat_ofNat_of_lt' hlt, Int.toNat_of_nonneg hn.1]

theorem decodes_uint64 : Decodes (fun a : UInt64 => (a.toNat : Int)) v n ↔
    v.IsInteger n ∧ 0 ≤ n := by
  refine decodes_iff (fun n => UInt64.ofNat n.toNat) (0 ≤ ·) (fun _ => rfl) fun n hn hlt => ?_
  have hsize : n.toNat < UInt64.size := (Int.toNat_lt hn).mpr (Int.lt_trans hlt (by decide))
  rw [UInt64.toNat_ofNat_of_lt' hsize, Int.toNat_of_nonneg hn]

end

/-- Reading a type back from what it is stored as. -/
def ReadsBack (α : Type) [ToValue α] [OfValue α] : Prop :=
  ∀ a : α, OfValue.ofValue? (toValue a) = some a

theorem readsBack_int32 : ReadsBack Int32 := by
  intro a
  have hrange : Int32.minValue.toInt ≤ a.toInt ∧ a.toInt ≤ Int32.maxValue.toInt :=
    ⟨a.minValue_le_toInt, a.toInt_le⟩
  show (if _ then some (Int32.ofInt a.toInt64.toInt) else none) = some a
  rw [Int32.toInt_toInt64, if_pos hrange, Int32.ofInt_toInt]

theorem readsBack_uint32 : ReadsBack UInt32 := by
  intro a
  have hlt : a.toNat < 2 ^ 32 := a.toNat_lt
  have hstored : (Int64.ofNat a.toNat).toInt = a.toNat :=
    Int64.toInt_ofNat_of_lt (Nat.lt_trans hlt (by decide))
  have hrange : (0 : Int) ≤ a.toNat ∧ (a.toNat : Int) < UInt32.size :=
    ⟨Int.natCast_nonneg _, Int.ofNat_lt.mpr hlt⟩
  show (if _ then some (UInt32.ofNat (Int64.ofNat a.toNat).toInt.toNat) else none) = some a
  rw [hstored, if_pos hrange, Int.toNat_natCast, UInt32.ofNat_toNat]

theorem readsBack_bool : ReadsBack Bool
  | true => rfl
  | false => rfl

/-- Integers of each width are read exactly when a value is one in their range, and every stored
integer, truth value, text and byte list reads back. -/
theorem decoding_exact :
    (∀ (v : Value) (n : Int),
      ((∃ m, v.asInteger? = some m ∧ m.toInt = n) ↔ v.IsInteger n) ∧
      (Decodes Int64.toInt v n ↔ v.IsInteger n) ∧
      (Decodes Int32.toInt v n ↔ v.IsInteger n ∧ -2 ^ 31 ≤ n ∧ n < 2 ^ 31) ∧
      (Decodes (fun a : UInt32 => (a.toNat : Int)) v n ↔ v.IsInteger n ∧ 0 ≤ n ∧ n < 2 ^ 32) ∧
      (Decodes (fun a : UInt64 => (a.toNat : Int)) v n ↔ v.IsInteger n ∧ 0 ≤ n)) ∧
    ReadsBack Int64 ∧ ReadsBack Int32 ∧ ReadsBack UInt32 ∧ ReadsBack Bool ∧ ReadsBack String ∧
      ReadsBack (List UInt8) := by
  refine ⟨fun v n => ⟨Value.asInteger?_iff, Value.asInteger?_iff, decodes_int32, decodes_uint32,
    decodes_uint64⟩, ?_⟩
  exact ⟨fun _ => rfl, readsBack_int32, readsBack_uint32, readsBack_bool,
    fun _ => rfl, fun _ => rfl⟩

/-! Negative zero is the integer zero; two to the 63rd, a half and an infinity are none. -/

example : (Value.real ⟨0x8000000000000000⟩).asInteger? = some 0 := by decide +kernel
example : (Value.real ⟨0x43E0000000000000⟩).asInteger? = none := by decide
example : (Value.real ⟨0x3FE0000000000000⟩).asInteger? = none := by decide
example : (Value.real ⟨0x7FF0000000000000⟩).asInteger? = none := by decide

end RelQuery
