import Mathlib.Algebra.Ring.Parity
import RelQuery.Text.Quoted

/-!
# Escaped text read back

Each character of an escaped text is a block of its own: the character itself, or a backslash and
what names the character. A block never ends in a backslash that takes the character after it, so
blocks are read one by one, and the only quotes between them are those that a backslash takes.
-/

set_option autoImplicit false

namespace RelQuery.Text

def IsQuote (quote : Char) : Prop :=
  quote = '"' ∨ quote = '\''

def named? (quote e : Char) : Option Char :=
  if e = '\\' ∨ e = quote then some e
  else if e = 'n' then some '\n'
  else if e = 'r' then some '\r'
  else if e = 't' then some '\t'
  else none

/-- The text that a quote has opened, up to the first quote that no backslash takes, and what
stands after that quote. -/
def textInside? (quote : Char) : List Char → Option (List Char × List Char)
  | [] => none
  | '\\' :: 'u' :: a :: b :: c :: d :: cs =>
    (hexNat? [a, b, c, d]).bind fun n =>
      (textInside? quote cs).map fun p => (Char.ofNat n :: p.1, p.2)
  | '\\' :: e :: cs =>
    (named? quote e).bind fun c => (textInside? quote cs).map fun p => (c :: p.1, p.2)
  | c :: cs =>
    if c = quote then some ([], cs) else (textInside? quote cs).map fun p => (c :: p.1, p.2)

def unescape? (quote : Char) (s : String) : Option String :=
  match textInside? quote (s.toList ++ [quote]) with
  | some (cs, []) => some (String.ofList cs)
  | _ => none

def trailingBackslashes (cs : List Char) : Nat :=
  (cs.reverse.takeWhile (· == '\\')).length

/-- A text that stays on one line and can be put between quotes: a quote in it is taken by the
last of an odd run of backslashes, and the quote that closes it is not. -/
structure Enclosable (quote : Char) (s : String) : Prop where
  printable : ∀ c ∈ s.toList, isControl c = false
  guarded : ∀ before after, s.toList = before ++ quote :: after →
    Odd (trailingBackslashes before)
  closed : Even (trailingBackslashes s.toList)

inductive Block (quote : Char) : Char → List Char → Prop
  | named {c e : Char} (h : named? quote e = some c) : Block quote c ['\\', e]
  | coded {c : Char} (h : c.toNat < 256) :
    Block quote c ['\\', 'u', '0', '0', hexDigit (c.toNat / 16), hexDigit (c.toNat % 16)]
  | plain {c : Char} (hslash : c ≠ '\\') (hquote : c ≠ quote) (hcontrol : isControl c = false) :
    Block quote c [c]

theorem toNat_lt_of_isControl {c : Char} (h : isControl c = true) : c.toNat < 256 := by
  simp only [isControl, Bool.or_eq_true, Bool.and_eq_true, decide_eq_true_eq] at h
  omega

theorem block_escapeChar {quote : Char} (hq : IsQuote quote) (c : Char) :
    Block quote c (escapeChar quote c) := by
  unfold escapeChar
  split_ifs with hslash hquote hline hreturn htab hcontrol
  · exact .named (by rw [hslash, named?, if_pos (.inl rfl)])
  · exact .named (by rw [named?, if_pos (.inr hquote)])
  · obtain rfl | rfl := hq <;> exact .named (by rw [hline]; rfl)
  · obtain rfl | rfl := hq <;> exact .named (by rw [hreturn]; rfl)
  · obtain rfl | rfl := hq <;> exact .named (by rw [htab]; rfl)
  · exact .coded (toNat_lt_of_isControl hcontrol)
  · exact .plain hslash hquote (Bool.eq_false_iff.mpr hcontrol)

theorem hexDigit_plain {quote : Char} (hq : IsQuote quote) {n : Nat} (h : n < 16) :
    hexDigit n ≠ quote ∧ hexDigit n ≠ '\\' ∧ isControl (hexDigit n) = false := by
  have hall : ∀ n < 16, hexDigit n ≠ '"' ∧ hexDigit n ≠ '\'' ∧ hexDigit n ≠ '\\' ∧
      isControl (hexDigit n) = false := by
    decide
  obtain ⟨hdouble, hsingle, hslash, hcontrol⟩ := hall n h
  obtain rfl | rfl := hq
  · exact ⟨hdouble, hslash, hcontrol⟩
  · exact ⟨hsingle, hslash, hcontrol⟩

theorem mem_of_coded {n : Nat} (h : n < 256) {d : Char}
    (hd : d ∈ ['\\', 'u', '0', '0', hexDigit (n / 16), hexDigit (n % 16)]) :
    d ∈ ['\\', 'u', '0'] ∨ ∃ m < 16, d = hexDigit m := by
  simp only [List.mem_cons, List.not_mem_nil, or_false] at hd
  obtain rfl | rfl | rfl | rfl | rfl | rfl := hd
  · exact .inl (by decide)
  · exact .inl (by decide)
  · exact .inl (by decide)
  · exact .inl (by decide)
  · exact .inr ⟨n / 16, by omega, rfl⟩
  · exact .inr ⟨n % 16, by omega, rfl⟩

theorem mem_of_named? {quote e c : Char} (h : named? quote e = some c) :
    e ∈ ['\\', quote, 'n', 'r', 't'] := by
  unfold named? at h
  split_ifs at h with hself hline hreturn htab
  · obtain rfl | rfl := hself <;> simp
  all_goals simp_all

theorem even_trailing_append {cs : List Char} (h : Even (trailingBackslashes cs)) (ds : List Char) :
    Even (trailingBackslashes (cs ++ ds)) ↔ Even (trailingBackslashes ds) := by
  rw [trailingBackslashes, List.reverse_append, List.takeWhile_append]
  split
  · rename_i hall
    have hds : trailingBackslashes ds = ds.reverse.length := hall
    rw [List.length_append, ← hds, Nat.even_add]
    exact ⟨fun hiff => hiff.mpr h, fun hds => iff_of_true hds h⟩
  · exact Iff.rfl

namespace Block

variable {quote c : Char} {block : List Char}

theorem printable (hq : IsQuote quote) (h : Block quote c block) :
    ∀ d ∈ block, isControl d = false := by
  cases h with
  | named h =>
    have hall : ∀ e ∈ ['\\', quote, 'n', 'r', 't'], isControl e = false := by
      obtain rfl | rfl := hq <;> simp [isControl]
    have hname := hall _ (mem_of_named? h)
    intro d hd
    obtain rfl | hd := List.mem_cons.mp hd
    · rfl
    · rw [List.mem_singleton.mp hd]
      exact hname
  | coded h =>
    have hstart : ∀ d ∈ ['\\', 'u', '0'], isControl d = false := by simp [isControl]
    intro d hd
    obtain hd | ⟨m, hm, rfl⟩ := mem_of_coded h hd
    · exact hstart d hd
    · exact (hexDigit_plain hq hm).2.2
  | plain _ _ hcontrol => simpa using hcontrol

theorem even_trailing (hq : IsQuote quote) (h : Block quote c block) :
    Even (trailingBackslashes block) := by
  cases h with
  | @named e h =>
    by_cases he : e = '\\'
    · subst he
      exact ⟨1, rfl⟩
    · simp [trailingBackslashes, he]
  | coded h =>
    have hlow := (hexDigit_plain hq (n := c.toNat % 16) (by omega)).2.1
    simp [trailingBackslashes, hlow]
  | plain hslash => simp [trailingBackslashes, hslash]

theorem before_quote (hq : IsQuote quote) (h : Block quote c block) {before after : List Char}
    (hsplit : block = before ++ quote :: after) : before = ['\\'] := by
  have hmem : quote ∈ block := hsplit ▸ List.mem_append_right _ List.mem_cons_self
  have hslash : '\\' ≠ quote := by obtain rfl | rfl := hq <;> decide
  cases h with
  | @named e h =>
    obtain ⟨-, heq⟩ | ⟨cs, rfl, htail⟩ := List.append_eq_cons_iff.mp hsplit.symm
    · cases heq
      exact absurd rfl hslash
    · obtain ⟨rfl, -⟩ | ⟨ds, rfl, hnil⟩ := List.append_eq_cons_iff.mp htail.symm
      · rfl
      · simp at hnil
  | coded h =>
    have hstart : quote ∉ ['\\', 'u', '0'] := by obtain rfl | rfl := hq <;> decide
    obtain hd | ⟨m, hm, heq⟩ := mem_of_coded h hmem
    · exact absurd hd hstart
    · exact absurd heq.symm (hexDigit_plain hq hm).1
  | plain _ hquote => exact absurd (List.mem_singleton.mp hmem).symm hquote

theorem read (hq : IsQuote quote) (h : Block quote c block) (rest : List Char) :
    textInside? quote (block ++ rest) =
      (textInside? quote rest).map fun p => (c :: p.1, p.2) := by
  have hslash : '\\' ≠ quote := by obtain rfl | rfl := hq <;> decide
  cases h with
  | @named e h =>
    have hunicode : e ≠ 'u' := by
      rintro rfl
      obtain rfl | rfl := hq <;> cases h
    simp [textInside?, hunicode, h]
  | coded h => simp [textInside?, hexNat?_zero, hexNat?_hexDigits h]
  | plain hslash hquote => simp [textInside?, hslash, hquote]

end Block

section

variable {quote : Char}

theorem even_trailing_flatMap (hq : IsQuote quote) (cs : List Char) :
    Even (trailingBackslashes (cs.flatMap (escapeChar quote))) := by
  induction cs with
  | nil => exact ⟨0, rfl⟩
  | cons c cs ih =>
    rw [List.flatMap_cons,
      even_trailing_append ((block_escapeChar hq c).even_trailing hq)]
    exact ih

/-- A quote of an escaped text belongs to the block of some character, and all blocks before that
one end in even runs. -/
theorem odd_trailing_before_quote (hq : IsQuote quote) {cs before after : List Char}
    (h : cs.flatMap (escapeChar quote) = before ++ quote :: after) :
    Odd (trailingBackslashes before) := by
  induction cs generalizing before with
  | nil => simp at h
  | cons c cs ih =>
    have hblock := block_escapeChar hq c
    rw [List.flatMap_cons] at h
    -- A quote behind the block of `c` has the run that it has among the later blocks.
    have hbeyond : ∀ {ds : List Char}, cs.flatMap (escapeChar quote) = ds ++ quote :: after →
        Odd (trailingBackslashes (escapeChar quote c ++ ds)) := by
      intro ds hds
      rw [← Nat.not_even_iff_odd, even_trailing_append (hblock.even_trailing hq),
        Nat.not_even_iff_odd]
      exact ih hds
    obtain ⟨ds, rfl, hds⟩ | ⟨ds, hds, hrest⟩ := List.append_eq_append_iff.mp h
    · exact hbeyond hds
    · cases ds with
      | nil =>
        have hwhole := @hbeyond [] hrest.symm
        rw [hds, List.append_nil, List.append_nil] at hwhole
        exact hwhole
      | cons d ds =>
        cases hrest
        rw [hblock.before_quote hq hds]
        exact ⟨0, rfl⟩

theorem textInside?_escaped (hq : IsQuote quote) (cs rest : List Char) :
    textInside? quote (cs.flatMap (escapeChar quote) ++ quote :: rest) = some (cs, rest) := by
  induction cs with
  | nil =>
    have hslash : quote ≠ '\\' := by obtain rfl | rfl := hq <;> decide
    simp [textInside?, hslash]
  | cons c cs ih =>
    rw [List.flatMap_cons, List.append_assoc, (block_escapeChar hq c).read hq, ih]
    rfl

theorem enclosable_escapeFor (hq : IsQuote quote) (s : String) :
    Enclosable quote (escapeFor quote s) where
  printable := by
    intro d hd
    rw [escapeFor, String.toList_ofList, List.mem_flatMap] at hd
    obtain ⟨c, -, hd⟩ := hd
    exact (block_escapeChar hq c).printable hq d hd
  guarded := by
    intro before after h
    rw [escapeFor, String.toList_ofList] at h
    exact odd_trailing_before_quote hq h
  closed := by
    rw [escapeFor, String.toList_ofList]
    exact even_trailing_flatMap hq s.toList

theorem unescape?_escapeFor (hq : IsQuote quote) (s : String) :
    unescape? quote (escapeFor quote s) = some s := by
  rw [unescape?, escapeFor, String.toList_ofList, textInside?_escaped hq]
  exact congrArg some String.ofList_toList

end

end RelQuery.Text
