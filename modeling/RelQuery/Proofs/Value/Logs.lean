import RelQuery.Proofs.Text.Escapes
import RelQuery.Value.Display

/-!
# Logs of arguments read back

Each value of a log begins with what tells its class and ends where its own text says, or in front
of what is no digit. So a list of values is read off its log one value after the other, and lists
without reals that have one log are one list.
-/

set_option autoImplicit false

namespace RelQuery.Value

open Text (IsQuote)

def naturalShown? (cs : List Char) : Option (Nat × List Char) :=
  if (cs.takeWhile Char.isDigit).isEmpty then none
  else some (Nat.ofDigitChars 10 (cs.takeWhile Char.isDigit) 0, cs.dropWhile Char.isDigit)

def integerShown? : List Char → Option (Int × List Char)
  | '-' :: cs => (naturalShown? cs).map fun p => (-(p.1 : Int), p.2)
  | cs => (naturalShown? cs).map fun p => ((p.1 : Int), p.2)

/-- The value that a log goes on with and the text after it. Reals are not read. -/
def shown? : List Char → Option (Value × List Char)
  | 'N' :: 'U' :: 'L' :: 'L' :: cs => some (.null, cs)
  | '"' :: cs => (Text.textInside? '"' cs).map fun p => (.text (String.ofList p.1), p.2)
  | 'x' :: '\'' :: cs =>
    (Text.bytesOfHex? (cs.takeWhile (· != '\''))).map fun bytes =>
      (.blob bytes, (cs.dropWhile (· != '\'')).drop 1)
  | cs => (integerShown? cs).bind fun p => (int64? p.1).map fun n => (.integer n, p.2)

def itemsShown? : Nat → List Char → Option (List Value)
  | 0, _ => none
  | n + 1, cs =>
    match shown? cs with
    | some (v, [']']) => some [v]
    | some (v, ',' :: ' ' :: rest) => (itemsShown? n rest).map (v :: ·)
    | _ => none

def ofDisplayList? (log : String) : Option (List Value) :=
  match log.toList with
  | ['[', ']'] => some []
  | '[' :: cs => itemsShown? cs.length cs
  | _ => none

def Ends (rest : List Char) : Prop :=
  ∀ c ∈ rest.head?, c.isDigit = false

theorem naturalShown?_toDigits (n : Nat) {rest : List Char} (h : Ends rest) :
    naturalShown? (Nat.toDigits 10 n ++ rest) = some (n, rest) := by
  have hdigits : ∀ c ∈ Nat.toDigits 10 n, c.isDigit = true := fun c hc =>
    Nat.isDigit_of_mem_toDigits (by decide) (by decide) hc
  have hrest : rest.takeWhile Char.isDigit = [] ∧ rest.dropWhile Char.isDigit = rest := by
    cases rest with
    | nil => exact ⟨rfl, rfl⟩
    | cons c rest => simp [h c rfl]
  rw [naturalShown?, List.takeWhile_append_of_pos hdigits, List.dropWhile_append_of_pos hdigits,
    hrest.1, hrest.2, List.append_nil, Nat.ofDigitChars_ten_toDigits]
  simp [Nat.toDigits_ne_nil]

theorem exists_toDigits (n : Nat) : ∃ c cs, Nat.toDigits 10 n = c :: cs ∧ c.isDigit = true := by
  obtain ⟨c, cs, hcs⟩ := List.exists_cons_of_ne_nil (@Nat.toDigits_ne_nil n 10)
  exact ⟨c, cs, hcs, Nat.isDigit_of_mem_toDigits (by decide) (by decide)
    (hcs ▸ List.mem_cons_self)⟩

theorem integerShown?_repr (n : Int) {rest : List Char} (h : Ends rest) :
    integerShown? (n.repr.toList ++ rest) = some (n, rest) := by
  have hread := naturalShown?_toDigits n.natAbs h
  rw [toList_repr_int]
  by_cases hn : n < 0
  · have hvalue : -(n.natAbs : Int) = n := by omega
    rw [if_pos hn]
    show (naturalShown? (Nat.toDigits 10 n.natAbs ++ rest)).map _ = _
    rw [hread, Option.map_some, hvalue]
  · have hvalue : (n.natAbs : Int) = n := by omega
    obtain ⟨c, cs, hcs, hc⟩ := exists_toDigits n.natAbs
    have hsign : c ≠ '-' := by
      rintro rfl
      cases hc
    have hunsigned : integerShown? (c :: (cs ++ rest)) =
        (naturalShown? (c :: (cs ++ rest))).map fun p => ((p.1 : Int), p.2) := by
      simp [integerShown?, hsign]
    rw [if_neg hn, List.nil_append]
    rw [hcs, List.cons_append] at hread ⊢
    rw [hunsigned, hread, Option.map_some, hvalue]

theorem shown?_number {c : Char} (hc : c ≠ 'N' ∧ c ≠ '"' ∧ c ≠ 'x') (cs : List Char) :
    shown? (c :: cs) =
      (integerShown? (c :: cs)).bind fun p => (int64? p.1).map fun n => (.integer n, p.2) := by
  simp [shown?, hc.1, hc.2.1, hc.2.2]

theorem exists_repr (n : Int) : ∃ c cs, n.repr.toList = c :: cs ∧
    c ≠ 'N' ∧ c ≠ '"' ∧ c ≠ 'x' := by
  rw [toList_repr_int]
  by_cases hn : n < 0
  · exact ⟨'-', _, by rw [if_pos hn]; rfl, by decide⟩
  · obtain ⟨c, cs, hcs, hc⟩ := exists_toDigits n.natAbs
    rw [if_neg hn, List.nil_append]
    refine ⟨c, cs, hcs, ?_, ?_, ?_⟩ <;>
    · rintro rfl
      cases hc

theorem shown?_integer (n : Int64) {rest : List Char} (h : Ends rest) :
    shown? ((display (.integer n)).toList ++ rest) = some (.integer n, rest) := by
  have hread := integerShown?_repr n.toInt h
  obtain ⟨c, cs, hcs, hc⟩ := exists_repr n.toInt
  rw [display]
  rw [hcs, List.cons_append] at hread ⊢
  rw [shown?_number hc, hread, Option.bind_some, int64?_toInt]
  rfl

theorem shown?_text (s : String) (rest : List Char) :
    shown? ((display (.text s)).toList ++ rest) = some (.text s, rest) := by
  have htext : (display (.text s)).toList ++ rest =
      '"' :: (s.toList.flatMap (Text.escapeChar '"') ++ '"' :: rest) := by
    simp [display, Text.escape, Text.escapeFor]
  rw [htext, shown?, Text.textInside?_escaped (.inl rfl), Option.map_some, String.ofList_toList]

theorem ne_of_mem_hexBytes {bytes : List UInt8} {c : Char} (h : c ∈ Text.hexBytes bytes) :
    c ≠ '\'' := by
  obtain ⟨b, -, hc⟩ := List.mem_flatMap.mp h
  have hb : b.toNat < 256 := b.toNat_lt
  obtain rfl | hc := List.mem_cons.mp hc
  · exact (Text.hexDigit_plain (.inr rfl) (by omega)).1
  · rw [List.mem_singleton.mp hc]
    exact (Text.hexDigit_plain (.inr rfl) (by omega)).1

theorem shown?_blob (bytes : List UInt8) (rest : List Char) :
    shown? ((display (.blob bytes)).toList ++ rest) = some (.blob bytes, rest) := by
  have htext : (display (.blob bytes)).toList ++ rest =
      'x' :: '\'' :: (Text.hexBytes bytes ++ '\'' :: rest) := by
    simp [display]
  have hhex : ∀ c ∈ Text.hexBytes bytes, (c != '\'') = true := fun c hc =>
    bne_iff_ne.mpr (ne_of_mem_hexBytes hc)
  rw [htext, shown?, List.takeWhile_append_of_pos hhex, List.dropWhile_append_of_pos hhex]
  simp [Text.bytesOfHex?_hexBytes]

/-- Every value but a real is read back from what is shown for it, in front of what is no digit. -/
theorem shown?_display {v : Value} (hv : ∀ x, v ≠ .real x) {rest : List Char} (h : Ends rest) :
    shown? (v.display.toList ++ rest) = some (v, rest) := by
  cases v with
  | null => rfl
  | integer n => exact shown?_integer n h
  | real x => exact absurd rfl (hv x)
  | text s => exact shown?_text s rest
  | blob bytes => exact shown?_blob bytes rest

def RealFree (values : List Value) : Prop :=
  ∀ v ∈ values, ∀ x, v ≠ .real x

def shownItems (values : List Value) : List Char :=
  [',', ' '].intercalate (values.map fun v => v.display.toList) ++ [']']

theorem toList_displayList (values : List Value) :
    (displayList values).toList = '[' :: shownItems values := by
  simp [displayList, shownItems, String.toList_intercalate, Function.comp_def]

theorem shownItems_cons (v w : Value) (vs : List Value) :
    shownItems (v :: w :: vs) = v.display.toList ++ ',' :: ' ' :: shownItems (w :: vs) := by
  simp [shownItems, List.intercalate_cons_cons]

theorem itemsShown?_shownItems {v : Value} {vs : List Value} (h : RealFree (v :: vs)) {n : Nat}
    (hn : vs.length < n) : itemsShown? n (shownItems (v :: vs)) = some (v :: vs) := by
  induction vs generalizing v n with
  | nil =>
    cases n with
    | zero => cases hn
    | succ n =>
      have hends : Ends [']'] := by simp [Ends]
      have hread := shown?_display (h v List.mem_cons_self) hends
      have htext : shownItems [v] = v.display.toList ++ [']'] := by simp [shownItems]
      rw [htext, itemsShown?, hread]
      rfl
  | cons w vs ih =>
    cases n with
    | zero => cases hn
    | succ n =>
      have hends : ∀ cs, Ends (',' :: cs) := by simp [Ends]
      have hread := shown?_display (h v List.mem_cons_self) (hends (' ' :: shownItems (w :: vs)))
      have hw : RealFree (w :: vs) := fun u hu => h u (List.mem_cons_of_mem v hu)
      rw [shownItems_cons, itemsShown?, hread]
      show (itemsShown? n (shownItems (w :: vs))).map (v :: ·) = _
      rw [ih hw (Nat.lt_of_succ_lt_succ hn)]
      rfl

theorem length_lt_shownItems (v : Value) (vs : List Value) :
    vs.length < (shownItems (v :: vs)).length := by
  induction vs generalizing v with
  | nil => simp [shownItems]
  | cons w vs ih =>
    have hlt := ih w
    rw [shownItems_cons, List.length_append, List.length_cons, List.length_cons, List.length_cons]
    omega

theorem ofDisplayList?_displayList {values : List Value} (h : RealFree values) :
    ofDisplayList? (displayList values) = some values := by
  rw [ofDisplayList?, toList_displayList]
  cases values with
  | nil => rfl
  | cons v vs =>
    have hread := itemsShown?_shownItems h (length_lt_shownItems v vs)
    -- The bracket alone shows no value, so a log with values is not taken for the empty one.
    have hitems : shownItems (v :: vs) ≠ [']'] := by
      intro hempty
      rw [hempty] at hread
      cases hread
    split
    · rename_i htext
      exact absurd (List.cons.inj htext).2 hitems
    · rename_i cs _ htext
      cases htext
      exact hread
    · rename_i hnone
      exact absurd rfl (hnone _)

/-- Escaped text has no control character, and the quotes in it are taken by backslashes, so it
reads back as the text between its quotes. Arguments without reals read back from their log, which
no other list of such arguments has. -/
theorem logs_unambiguous {quote : Char} (hq : IsQuote quote) (s : String) {vs ws : List Value}
    (hv : RealFree vs) (hw : RealFree ws) :
    Text.Enclosable quote (Text.escapeFor quote s) ∧
    Text.unescape? quote (Text.escapeFor quote s) = some s ∧
    ofDisplayList? (displayList vs) = some vs ∧
    (displayList vs = displayList ws ↔ vs = ws) := by
  refine ⟨Text.enclosable_escapeFor hq s, Text.unescape?_escapeFor hq s,
    ofDisplayList?_displayList hv, ?_, congrArg displayList⟩
  intro heq
  have hread := ofDisplayList?_displayList hv
  rw [heq, ofDisplayList?_displayList hw] at hread
  exact (Option.some.inj hread).symm

/-- A text that shows the end of its own quotes and further values. -/
def pretender : List Value :=
  [.text "a\", NULL, x'00", .blob [0xDE, 0xAD], .integer (-3), .null]

def imitated : List Value :=
  [.text "a", .null, .blob [0x00], .blob [0xDE, 0xAD], .integer (-3), .null]

theorem pretender_read : IsQuote '\'' ∧ RealFree pretender ∧ RealFree imitated ∧
    Text.escapeFor '\'' "it's\n" = "it\\'s\\n" ∧
    Text.unescape? '\'' (Text.escapeFor '\'' "it's\n") = some "it's\n" ∧
    displayList pretender = "[\"a\\\", NULL, x'00\", x'dead', -3, NULL]" ∧
    displayList imitated = "[\"a\", NULL, x'00', x'dead', -3, NULL]" ∧
    ofDisplayList? (displayList pretender) = some pretender ∧
    displayList pretender ≠ displayList imitated := by
  have hquote : IsQuote '\'' := .inr rfl
  have hfree : RealFree pretender := by simp [RealFree, pretender]
  have hfree' : RealFree imitated := by simp [RealFree, imitated]
  obtain ⟨-, hunescape, hread, hunique⟩ := logs_unambiguous hquote "it's\n" hfree hfree'
  refine ⟨hquote, hfree, hfree', by decide, hunescape, by decide, by decide, hread, ?_⟩
  exact fun h => absurd (hunique.mp h) (by decide)

end RelQuery.Value
