import RelQuery.Number.DecimalText
import RelQuery.Proofs.Json.Documents

/-!
# Numbers as they are written

Integers are written by their digits and a sign. A real is written by its shortest decimal in one of
three layouts, each of which spells that decimal exactly and is never the text of an integer.
-/

set_option autoImplicit false

namespace RelQuery.Json

theorem le_foldl_digits (ds : List Nat) (n : Nat) : n ≤ ds.foldl (fun n d => n * 10 + d) n := by
  induction ds generalizing n with
  | nil => exact Nat.le_refl n
  | cons d ds ih => exact Nat.le_trans (by omega) (ih (n * 10 + d))

theorem takeDigits_all {limit n : Nat} {ds : List Nat}
    (h : ds.foldl (fun n d => n * 10 + d) n ≤ limit) :
    takeDigits limit n ds = (ds.foldl (fun n d => n * 10 + d) n, []) := by
  induction ds generalizing n with
  | nil => rfl
  | cons d ds ih =>
    rw [List.foldl_cons] at h ⊢
    rw [takeDigits, if_pos ((le_foldl_digits ds _).trans h)]
    exact ih h

def natural (n : Nat) : Spelling :=
  ⟨Nat.toDigits 10 n, [], false, []⟩

theorem proper_natural (n : Nat) : (natural n).Proper where
  nonempty := Nat.toDigits_ne_nil
  zero := by
    by_cases h : n = 0
    · subst h
      exact .inl rfl
    · exact .inr (head_toDigits (Nat.pos_of_ne_zero h))
  whole _ := isDigit_toDigits
  fraction := nofun
  exponent := nofun
  sign _ := rfl

def ofInt (n : Int) : Numeral :=
  (natural n.natAbs).numeral (decide (n < 0))

theorem writes_int (n : Int) : Writes n.repr.toList (.number (ofInt n)) := by
  have htext : n.repr.toList =
      (if decide (n < 0) then ['-'] else []) ++ (natural n.natAbs).text := by
    rw [toList_repr_int, Spelling.text, natural]
    simp
  rw [htext]
  exact writes_numeral (proper_natural n.natAbs) (decide (n < 0))

theorem read?_whole {n : Numeral} {word : Nat} (hfraction : n.fraction = [])
    (hexponent : n.exponent = []) (h : takeDigits largestWord 0 n.whole = (word, [])) :
    n.read? = if n.negative then
        if word = 0 ∨ Binary64.signBit < word then some (.real (.ofFraction true word 1))
        else some (.integer (-(word : Int)))
      else some (.integer word) := by
  rw [Numeral.read?, h]
  simp only [hfraction, hexponent, List.isEmpty_nil, Bool.and_self, if_true]

theorem read?_ofInt {n : Int} (hlow : -2 ^ 63 ≤ n) (hhigh : n < 2 ^ 64) :
    (ofInt n).read? = some (.integer n) := by
  have hvalue : (digitValues (Nat.toDigits 10 n.natAbs)).foldl (fun n d => n * 10 + d) 0 =
      n.natAbs := by
    have hspelled := spelled_digitValues (Nat.toDigits 10 n.natAbs)
    rw [Nat.ofDigitChars_ten_toDigits] at hspelled
    exact hspelled
  have htake : takeDigits largestWord 0 (ofInt n).whole = (n.natAbs, []) := by
    show takeDigits largestWord 0 (digitValues (Nat.toDigits 10 n.natAbs)) = _
    rw [takeDigits_all, hvalue]
    rw [hvalue, largestWord]
    omega
  rw [read?_whole rfl rfl htake, ofInt, Spelling.numeral]
  by_cases h : n < 0
  · have hword : ¬(n.natAbs = 0 ∨ Binary64.signBit < n.natAbs) := by
      rw [Binary64.signBit]
      omega
    have hsign : -(n.natAbs : Int) = n := by omega
    rw [if_pos (decide_eq_true h), if_neg hword, hsign]
  · have hsign : (n.natAbs : Int) = n := by omega
    rw [if_neg (by simpa using h), hsign]

theorem exact_numeral (p : Spelling) (negative : Bool) : (p.numeral negative).exact =
    (Nat.ofDigitChars 10 (p.whole ++ p.fraction) 0 : ℚ) *
      10 ^ ((if p.exponentNegative then -(Nat.ofDigitChars 10 p.exponent 0 : Int)
        else Nat.ofDigitChars 10 p.exponent 0) - p.fraction.length) := by
  have hdigits : digitValues p.whole ++ digitValues p.fraction =
      digitValues (p.whole ++ p.fraction) := by
    rw [digitValues, digitValues, digitValues, List.map_append]
  have hplaces : (digitValues p.fraction).length = p.fraction.length := List.length_map _
  rw [Numeral.exact, Numeral.digits, Numeral.power, Spelling.numeral, hdigits,
    spelled_digitValues, spelled_digitValues, hplaces]

/-- A text is spelled by parts that name the number `q`, and that no integer has. -/
structure Spells (p : Spelling) (text : List Char) (q : ℚ) : Prop where
  proper : p.Proper
  text : p.text = text
  exact (negative : Bool) : (p.numeral negative).exact = q
  real : p.fraction ≠ [] ∨ p.exponent ≠ []

structure Leading (digits : List Char) : Prop where
  nonempty : digits ≠ []
  digit : ∀ c ∈ digits, isDigit c = true
  head : digits.head? ≠ some '0'

theorem leading_toDigits {n : Nat} (h : 0 < n) : Leading (Nat.toDigits 10 n) :=
  ⟨Nat.toDigits_ne_nil, fun _ => isDigit_toDigits, head_toDigits h⟩

theorem isDigit_zeros {n : Nat} {c : Char} (h : c ∈ List.replicate n '0') : isDigit c = true := by
  rw [List.eq_of_mem_replicate h]
  rfl

theorem positional_below {digits : List Char} (h : Leading digits) {leading : Int}
    (hneg : leading < 0) : ∃ p, Spells p (DecimalFormat.positional digits leading)
      (Nat.ofDigitChars 10 digits 0 * 10 ^ (leading + 1 - digits.length)) := by
  refine ⟨⟨['0'], List.replicate (-leading - 1).toNat '0' ++ digits, false, []⟩,
    ⟨by simp, .inl rfl, ?_, ?_, nofun, fun _ => rfl⟩, ?_, ?_, .inl (by simp [h.nonempty])⟩
  · exact isDigit_singleton rfl
  · intro c hc
    exact (List.mem_append.mp hc).elim isDigit_zeros (h.digit c)
  · rw [DecimalFormat.positional, if_pos hneg, Spelling.text]
    simp [h.nonempty]
  · intro negative
    have hzeros : Nat.ofDigitChars 10
        (['0'] ++ (List.replicate (-leading - 1).toNat '0' ++ digits)) 0 =
          Nat.ofDigitChars 10 digits 0 := by
      simp [Nat.ofDigitChars_cons, Nat.ofDigitChars_append]
    have hpower : (0 : Int) - (List.replicate (-leading - 1).toNat '0' ++ digits).length =
        leading + 1 - digits.length := by
      rw [List.length_append, List.length_replicate]
      omega
    rw [exact_numeral]
    show ((Nat.ofDigitChars 10 _ 0 : Nat) : ℚ) * 10 ^ ((0 : Int) - _) = _
    rw [hzeros, hpower]

theorem positional_eq (digits : List Char) (n : Nat) :
    DecimalFormat.positional digits n = digits.take (n + 1) ++
      List.replicate (n + 1 - digits.length) '0' ++
        '.' :: (if (digits.drop (n + 1)).isEmpty then ['0'] else digits.drop (n + 1)) := by
  rw [DecimalFormat.positional, if_neg (by omega)]
  rfl

theorem positional_whole {digits : List Char} (h : Leading digits) {n : Nat}
    (hlen : digits.length ≤ n + 1) : ∃ p, Spells p (DecimalFormat.positional digits n)
      (Nat.ofDigitChars 10 digits 0 * 10 ^ ((n : Int) + 1 - digits.length)) := by
  refine ⟨⟨digits ++ List.replicate (n + 1 - digits.length) '0', ['0'], false, []⟩,
    ⟨?_, .inr ?_, ?_, ?_, nofun, fun _ => rfl⟩, ?_, ?_, .inl (List.cons_ne_nil _ _)⟩
  · exact List.append_ne_nil_of_left_ne_nil h.nonempty _
  · rw [List.head?_append_of_ne_nil _ h.nonempty]
    exact h.head
  · intro c hc
    exact (List.mem_append.mp hc).elim (h.digit c) isDigit_zeros
  · exact isDigit_singleton rfl
  · rw [positional_eq, List.take_of_length_le hlen, List.drop_of_length_le hlen, Spelling.text]
    simp
  · intro negative
    have hpower : ((n : Int) + 1 - digits.length) = ((n + 1 - digits.length : Nat) : Int) := by
      omega
    rw [exact_numeral]
    show ((Nat.ofDigitChars 10
        (digits ++ List.replicate (n + 1 - digits.length) '0' ++ ['0']) 0 : Nat) : ℚ) *
      10 ^ ((0 : Int) - 1) = _
    rw [hpower, zpow_natCast, Nat.ofDigitChars_append, Nat.ofDigitChars_append,
      Nat.ofDigitChars_replicate_zero, Nat.ofDigitChars_cons, Nat.ofDigitChars_nil]
    push_cast
    norm_num
    ring

theorem positional_split {digits : List Char} (h : Leading digits) {n : Nat}
    (hlen : n + 1 < digits.length) : ∃ p, Spells p (DecimalFormat.positional digits n)
      (Nat.ofDigitChars 10 digits 0 * 10 ^ ((n : Int) + 1 - digits.length)) := by
  obtain ⟨first, rest, hdigits⟩ := List.exists_cons_of_ne_nil h.nonempty
  have hdrop : digits.drop (n + 1) ≠ [] := by
    rw [Ne, List.drop_eq_nil_iff]
    omega
  refine ⟨⟨digits.take (n + 1), digits.drop (n + 1), false, []⟩,
    ⟨?_, .inr ?_, ?_, ?_, nofun, fun _ => rfl⟩, ?_, ?_, .inl hdrop⟩
  · simp [hdigits]
  · have hhead := h.head
    simpa [hdigits] using hhead
  · exact fun c hc => h.digit c (List.mem_of_mem_take hc)
  · exact fun c hc => h.digit c (List.mem_of_mem_drop hc)
  · rw [positional_eq, Nat.sub_eq_zero_of_le hlen.le, Spelling.text]
    simp [hdrop]
  · intro negative
    have hpower : (0 : Int) - (digits.drop (n + 1)).length = (n : Int) + 1 - digits.length := by
      rw [List.length_drop]
      omega
    rw [exact_numeral]
    show ((Nat.ofDigitChars 10 (digits.take (n + 1) ++ digits.drop (n + 1)) 0 : Nat) : ℚ) *
      10 ^ ((0 : Int) - (digits.drop (n + 1)).length) = _
    rw [hpower, List.take_append_drop]

theorem positional_spells {digits : List Char} (h : Leading digits) (leading : Int) :
    ∃ p, Spells p (DecimalFormat.positional digits leading)
      (Nat.ofDigitChars 10 digits 0 * 10 ^ (leading + 1 - digits.length)) := by
  by_cases hneg : leading < 0
  · exact positional_below h hneg
  · obtain ⟨n, rfl⟩ := Int.eq_ofNat_of_zero_le (Int.not_lt.mp hneg)
    by_cases hlen : digits.length ≤ n + 1
    · exact positional_whole h hlen
    · exact positional_split h (Nat.lt_of_not_le hlen)

theorem scientific_spells {digits : List Char} (h : Leading digits) {f : DecimalFormat}
    (hf : f.signedExponent = true) (leading : Int) :
    ∃ p, Spells p (f.scientific digits leading)
      (Nat.ofDigitChars 10 digits 0 * 10 ^ (leading + 1 - digits.length)) := by
  obtain ⟨first, rest, rfl⟩ := List.exists_cons_of_ne_nil h.nonempty
  refine ⟨⟨[first], rest, decide (leading < 0), Nat.toDigits 10 leading.natAbs⟩,
    ⟨List.cons_ne_nil _ _, .inr h.head, ?_, ?_, fun c hc => isDigit_toDigits hc, ?_⟩, ?_, ?_,
      .inr Nat.toDigits_ne_nil⟩
  · exact isDigit_singleton (h.digit first List.mem_cons_self)
  · exact fun c hc => h.digit c (List.mem_cons_of_mem _ hc)
  · exact fun hnil => absurd hnil Nat.toDigits_ne_nil
  · rw [DecimalFormat.scientific, Spelling.text, if_neg Nat.toDigits_ne_nil, hf]
    by_cases hsign : leading < 0
    · by_cases hrest : rest = [] <;> simp [hsign, hrest]
    · by_cases hrest : rest = [] <;> simp [hsign, hrest]
  · intro negative
    rw [exact_numeral]
    have hpower : (if decide (leading < 0) then
        -(Nat.ofDigitChars 10 (Nat.toDigits 10 leading.natAbs) 0 : Int)
          else Nat.ofDigitChars 10 (Nat.toDigits 10 leading.natAbs) 0) - rest.length =
        leading + 1 - (first :: rest).length := by
      rw [Nat.ofDigitChars_ten_toDigits, List.length_cons]
      split <;> simp only [decide_eq_true_eq] at * <;> omega
    rw [← hpower]
    rfl

theorem isEmpty_of_real {n : Numeral} (h : n.fraction ≠ [] ∨ n.exponent ≠ []) (left : List Nat) :
    (left.isEmpty && n.fraction.isEmpty && n.exponent.isEmpty) = false := by
  obtain hfraction | hexponent := h
  · simp [hfraction]
  · simp [hexponent]

theorem read?_ne_integer {n : Numeral} (h : n.fraction ≠ [] ∨ n.exponent ≠ []) (i : Int) :
    n.read? ≠ some (.integer i) := by
  rw [Numeral.read?]
  simp only [isEmpty_of_real h, Bool.false_eq_true, if_false]
  intro hread
  obtain ⟨x, -, hx⟩ := Option.map_eq_some_iff.mp hread
  cases hx

/-- A number in decimal text is spelled exactly by its shortest decimal, which rounds to it. -/
theorem unsigned_spells {f : DecimalFormat} (hf : f.signedExponent = true) (x : Binary64) :
    ∃ p q, Spells p (f.unsigned x) q ∧ Binary64.RoundsTo (Binary64.halves q) x.magnitude := by
  rw [DecimalFormat.unsigned]
  by_cases hzero : x.isZero = true
  · have hmagnitude : x.magnitude = 0 := beq_iff_eq.mp hzero
    rw [if_pos hzero, hmagnitude]
    refine ⟨⟨['0'], ['0'], false, []⟩, 0, ⟨⟨List.cons_ne_nil _ _, .inl rfl, isDigit_singleton rfl,
      isDigit_singleton rfl, nofun, fun _ => rfl⟩, rfl, ?_, .inl (List.cons_ne_nil _ _)⟩, ?_⟩
    · intro negative
      rw [exact_numeral]
      simp [Nat.ofDigitChars_cons]
    · rw [Binary64.halves, mul_zero, zero_mul]
      exact Binary64.roundsTo_zero
  · have hmagnitude : x.magnitude ≠ 0 := fun h => hzero (beq_iff_eq.mpr h)
    have hdigits := leading_toDigits (Shortest.ofPositive_digits_pos f.tie hmagnitude)
    have hround := Shortest.ofPositive_roundsTo f.tie hmagnitude
    rw [if_neg hzero]
    extract_lets d digits leading
    have hvalue : d.value =
        Nat.ofDigitChars 10 digits 0 * 10 ^ (leading + 1 - digits.length) := by
      have hpower : leading + 1 - digits.length = d.power := by
        show d.power + digits.length - 1 + 1 - digits.length = _
        omega
      rw [hpower, Nat.ofDigitChars_ten_toDigits, Decimal.value]
    rw [hvalue] at hround
    have hspells : ∃ p, Spells p (if f.smallestPositional ≤ leading ∧ leading < 16 then
        DecimalFormat.positional digits leading else f.scientific digits leading)
          (Nat.ofDigitChars 10 digits 0 * 10 ^ (leading + 1 - digits.length)) := by
      split
      · exact positional_spells hdigits leading
      · exact scientific_spells hdigits hf leading
    obtain ⟨p, hp⟩ := hspells
    exact ⟨p, _, hp, hround⟩

end RelQuery.Json
