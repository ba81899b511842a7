import RelQuery.Json.Numeral
import RelQuery.Json.Token
import RelQuery.Proofs.Number.Shortest

/-!
# Numerals read back

A numeral is spelled by digits in up to three parts. The scanner reads the parts off its text, and
what they spell is one exact number.
-/

set_option autoImplicit false

namespace RelQuery.Json

def spelled (ds : List Nat) : Nat :=
  ds.foldl (fun n d => n * 10 + d) 0

def digitValues (cs : List Char) : List Nat :=
  cs.map fun c => c.toNat - 48

theorem spelled_digitValues (cs : List Char) :
    spelled (digitValues cs) = Nat.ofDigitChars 10 cs 0 := by
  rw [spelled, digitValues, List.foldl_map, Nat.ofDigitChars_eq_foldl]
  congr 1
  funext n c
  rw [Nat.mul_comm]
  rfl

theorem isDigit_iff (c : Char) : isDigit c = c.isDigit := by
  rw [isDigit, Char.isDigit]
  rfl

theorem isDigit_singleton {c : Char} (h : isDigit c = true) : ∀ d ∈ [c], isDigit d = true := by
  intro d hd
  rw [List.mem_singleton.mp hd]
  exact h

theorem isDigit_toDigits {n : Nat} {c : Char} (h : c ∈ Nat.toDigits 10 n) : isDigit c = true := by
  rw [isDigit_iff]
  exact Nat.isDigit_of_mem_toDigits (by decide) (by decide) h

theorem head_toDigits {n : Nat} (h : 0 < n) : (Nat.toDigits 10 n).head? ≠ some '0' := by
  induction n using Nat.strongRecOn with
  | ind n ih =>
    by_cases hlt : n < 10
    · rw [Nat.toDigits_of_lt_base hlt]
      have hall : ∀ d < 10, 0 < d → Nat.digitChar d ≠ '0' := by decide
      intro hhead
      exact hall n hlt h (Option.some.inj hhead)
    · have hge : 10 ≤ n := by omega
      have hhead := ih (n / 10) (by omega) (by omega)
      rw [Nat.toDigits_of_base_le (by decide) hge]
      cases hdigits : Nat.toDigits 10 (n / 10) with
      | nil => exact absurd hdigits Nat.toDigits_ne_nil
      | cons c cs =>
        rw [hdigits] at hhead
        exact hhead

namespace Numeral

def digits (n : Numeral) : Nat :=
  spelled (n.whole ++ n.fraction)

def power (n : Numeral) : Int :=
  (if n.exponentNegative then -(spelled n.exponent : Int) else spelled n.exponent) -
    n.fraction.length

/-- The number that a numeral names, without its sign. -/
def exact (n : Numeral) : ℚ :=
  n.digits * 10 ^ n.power

def nearest (n : Numeral) : Binary64 :=
  .ofFraction n.negative (n.digits * 10 ^ n.power.toNat) (10 ^ (-n.power).toNat)

theorem nearest_eq {n : Numeral} {m : Nat} (h : Binary64.RoundsTo (Binary64.halves n.exact) m) :
    n.nearest = .ofMagnitude n.negative m := by
  have hne : (10 : Nat) ^ (-n.power).toNat ≠ 0 := (Nat.pow_pos (by decide)).ne'
  apply Binary64.ofFraction_eq_of_roundsTo hne
  have hvalue : ((n.digits * 10 ^ n.power.toNat : Nat) : ℚ) / ((10 ^ (-n.power).toNat : Nat) : ℚ) =
      n.exact := by
    rw [exact, div_eq_iff (Nat.cast_ne_zero.mpr hne)]
    push_cast
    rw [mul_assoc, Shortest.ten_zpow]
  rw [hvalue]
  exact h

end Numeral

/-- The digits of a numeral in their parts; a part without digits is not written. -/
structure Spelling where
  whole : List Char
  fraction : List Char
  exponentNegative : Bool
  exponent : List Char

namespace Spelling

def text (p : Spelling) : List Char :=
  p.whole ++ (if p.fraction = [] then [] else '.' :: p.fraction) ++
    (if p.exponent = [] then [] else 'e' :: (if p.exponentNegative then '-' else '+') :: p.exponent)

def numeral (negative : Bool) (p : Spelling) : Numeral :=
  ⟨negative, digitValues p.whole, digitValues p.fraction, p.exponentNegative,
    digitValues p.exponent⟩

/-- The whole part is there and has no needless zero, and only a written exponent has a sign. -/
structure Proper (p : Spelling) : Prop where
  nonempty : p.whole ≠ []
  zero : p.whole = ['0'] ∨ p.whole.head? ≠ some '0'
  whole : ∀ c ∈ p.whole, isDigit c = true
  fraction : ∀ c ∈ p.fraction, isDigit c = true
  exponent : ∀ c ∈ p.exponent, isDigit c = true
  sign : p.exponent = [] → p.exponentNegative = false

end Spelling

/-- No numeral goes on into the text. -/
def Ends (r : List Char) : Prop :=
  ∀ c ∈ r.head?, isDigit c = false ∧ c ≠ '.' ∧ c ≠ 'e' ∧ c ≠ 'E'

theorem digitsOf_append {cs r : List Char} (hcs : ∀ c ∈ cs, isDigit c = true)
    (hr : ∀ c ∈ r.head?, isDigit c = false) :
    digitsOf (cs ++ r) = digitValues cs ∧ afterDigits (cs ++ r) = r := by
  rw [digitsOf, afterDigits, List.takeWhile_append_of_pos hcs, List.dropWhile_append_of_pos hcs]
  cases r with
  | nil => simp [digitValues]
  | cons c r =>
    have hc := hr c rfl
    simp [digitValues, hc]

theorem someDigits?_append {cs r : List Char} (hcs : ∀ c ∈ cs, isDigit c = true) (hne : cs ≠ [])
    (hr : ∀ c ∈ r.head?, isDigit c = false) :
    someDigits? (cs ++ r) = some (digitValues cs, r) := by
  obtain ⟨hdigits, hafter⟩ := digitsOf_append hcs hr
  have hsome : (digitValues cs).isEmpty = false := by
    simpa [digitValues] using hne
  rw [someDigits?, hdigits, hafter, hsome]
  rfl

theorem wholePart?_append {p : Spelling} (hp : p.Proper) {r : List Char}
    (hr : ∀ c ∈ r.head?, isDigit c = false) :
    wholePart? (p.whole ++ r) = some (digitValues p.whole, r) := by
  have hsome := someDigits?_append hp.whole hp.nonempty hr
  obtain hzero | hhead := hp.zero
  · rw [hzero]
    rfl
  · cases hwhole : p.whole with
    | nil => exact absurd hwhole hp.nonempty
    | cons c cs =>
      rw [hwhole] at hsome hhead
      have hc : c ≠ '0' := fun h => hhead (congrArg some h)
      rw [← hsome]
      simp [wholePart?, hc]

theorem fractionPart?_append {p : Spelling} (hp : p.Proper) {r : List Char}
    (hr : ∀ c ∈ r.head?, isDigit c = false ∧ c ≠ '.') :
    fractionPart? ((if p.fraction = [] then [] else '.' :: p.fraction) ++ r) =
      some (digitValues p.fraction, r) := by
  by_cases hempty : p.fraction = []
  · rw [if_pos hempty, hempty]
    cases r with
    | nil => rfl
    | cons c r => simp [fractionPart?, digitValues, (hr c rfl).2]
  · rw [if_neg hempty]
    exact someDigits?_append hp.fraction hempty fun c hc => (hr c hc).1

theorem exponentPart?_append {p : Spelling} (hp : p.Proper) {r : List Char} (hr : Ends r) :
    exponentPart? ((if p.exponent = [] then []
      else 'e' :: (if p.exponentNegative then '-' else '+') :: p.exponent) ++ r) =
        some (p.exponentNegative, digitValues p.exponent, r) := by
  by_cases hempty : p.exponent = []
  · rw [if_pos hempty, hempty, hp.sign hempty]
    cases r with
    | nil => rfl
    | cons c r =>
      obtain ⟨-, -, he, hE⟩ := hr c rfl
      simp [exponentPart?, digitValues, he, hE]
  · have hsome := someDigits?_append hp.exponent hempty fun c hc => (hr c hc).1
    rw [if_neg hempty]
    cases p.exponentNegative <;> simp [exponentPart?, hsome]

theorem scanNumeral_text {p : Spelling} (hp : p.Proper) (negative : Bool) {r : List Char}
    (hr : Ends r) :
    scanNumeral negative (p.text ++ r) = some (.number (p.numeral negative), r) := by
  have hexponent := exponentPart?_append hp hr
  generalize hlast : (if p.exponent = [] then []
    else 'e' :: (if p.exponentNegative then '-' else '+') :: p.exponent) ++ r = last at hexponent
  have hlasthead : ∀ c ∈ last.head?, isDigit c = false ∧ c ≠ '.' := by
    rw [← hlast]
    intro c hc
    by_cases hempty : p.exponent = []
    · rw [if_pos hempty] at hc
      exact ⟨(hr c hc).1, (hr c hc).2.1⟩
    · rw [if_neg hempty] at hc
      cases hc
      decide
  have hfraction := fractionPart?_append hp hlasthead
  generalize hrest : (if p.fraction = [] then [] else '.' :: p.fraction) ++ last = rest at hfraction
  have hresthead : ∀ c ∈ rest.head?, isDigit c = false := by
    rw [← hrest]
    intro c hc
    by_cases hempty : p.fraction = []
    · rw [if_pos hempty] at hc
      exact (hlasthead c hc).1
    · rw [if_neg hempty] at hc
      cases hc
      decide
  have htext : p.text ++ r = p.whole ++ rest := by
    rw [Spelling.text, ← hrest, ← hlast]
    simp only [List.append_assoc]
  rw [htext, scanNumeral, wholePart?_append hp hresthead]
  simp [hfraction, hexponent, Spelling.numeral]

theorem scanToken_of_isDigit {c : Char} (h : isDigit c = true) (r : List Char) :
    scanToken (c :: r) = scanNumeral false (c :: r) := by
  unfold scanToken
  split
  case h_12 => rfl
  all_goals
    rename_i htext
    cases htext
    exact absurd h (by decide)

theorem scanToken_text {p : Spelling} (hp : p.Proper) (negative : Bool) {r : List Char}
    (hr : Ends r) : scanToken ((if negative then ['-'] else []) ++ p.text ++ r) =
      some (.number (p.numeral negative), r) := by
  rw [← scanNumeral_text hp negative hr]
  cases negative with
  | true => rfl
  | false =>
    obtain ⟨c, cs, hwhole⟩ := List.exists_cons_of_ne_nil hp.nonempty
    have hc : isDigit c = true := hp.whole c (hwhole ▸ List.mem_cons_self)
    have htext : ∃ t, p.text ++ r = c :: t := by
      rw [Spelling.text, hwhole]
      exact ⟨_, rfl⟩
    obtain ⟨t, ht⟩ := htext
    show scanToken (p.text ++ r) = _
    rw [ht, scanToken_of_isDigit hc]

end RelQuery.Json
