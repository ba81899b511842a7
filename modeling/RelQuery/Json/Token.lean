import RelQuery.Json.Basic
import RelQuery.Text.Hex

/-!
# Words of a JSON text
-/

set_option autoImplicit false

namespace RelQuery.Json

inductive Token
  | openBrace
  | closeBrace
  | openBracket
  | closeBracket
  | colon
  | comma
  | null
  | bool (b : Bool)
  | number (n : Numeral)
  | string (s : Chars)

/-- A piece of a string: a character, or the code of a `u` escape. -/
inductive Piece
  | char (c : Char)
  | code (n : Nat)

/-- The characters that the pieces name. Two codes that form a surrogate pair are one
character, any other surrogate names none. -/
def pieceChars? : List Piece → Option (List Char)
  | [] => some []
  | .char c :: r => (pieceChars? r).map (c :: ·)
  | .code n :: .code m :: r =>
    if 0xD800 ≤ n ∧ n < 0xDC00 then
      if 0xDC00 ≤ m ∧ m < 0xE000 then
        (pieceChars? r).map (Char.ofNat ((n - 0xD800) * 0x400 + (m - 0xDC00) + 0x10000) :: ·)
      else none
    else if 0xDC00 ≤ n ∧ n < 0xE000 then none
    else (pieceChars? (.code m :: r)).map (Char.ofNat n :: ·)
  | .code n :: r =>
    if 0xD800 ≤ n ∧ n < 0xE000 then none else (pieceChars? r).map (Char.ofNat n :: ·)

def isDigit (c : Char) : Bool :=
  '0' ≤ c && c ≤ '9'

def simpleEscape? : Char → Option Char
  | '"' => some '"'
  | '\\' => some '\\'
  | '/' => some '/'
  | 'b' => some (Char.ofNat 8)
  | 'f' => some (Char.ofNat 12)
  | 'n' => some '\n'
  | 'r' => some '\r'
  | 't' => some '\t'
  | _ => none

/-- The pieces up to the closing quote, and the text after it. Control characters have to be
escaped. -/
def scanString : List Char → Option (List Piece × List Char)
  | [] => none
  | '"' :: r => some ([], r)
  | '\\' :: 'u' :: a :: b :: c :: d :: r => do
    let n ← Text.hexNat? [a, b, c, d]
    let (ps, rest) ← scanString r
    pure (.code n :: ps, rest)
  | '\\' :: e :: r => do
    let c ← simpleEscape? e
    let (ps, rest) ← scanString r
    pure (.char c :: ps, rest)
  | c :: r =>
    if c.toNat < 0x20 ∨ c = '\\' then none
    else (scanString r).map fun (ps, rest) => (.char c :: ps, rest)

def digitsOf (s : List Char) : List Nat :=
  (s.takeWhile isDigit).map fun c => c.toNat - 48

def afterDigits (s : List Char) : List Char :=
  s.dropWhile isDigit

def someDigits? (s : List Char) : Option (List Nat × List Char) :=
  if (digitsOf s).isEmpty then none else some (digitsOf s, afterDigits s)

def wholePart? : List Char → Option (List Nat × List Char)
  | '0' :: r => some ([0], r)
  | s => someDigits? s

def fractionPart? : List Char → Option (List Nat × List Char)
  | '.' :: r => someDigits? r
  | s => some ([], s)

def exponentPart? : List Char → Option (Bool × List Nat × List Char)
  | c :: r =>
    if c = 'e' ∨ c = 'E' then
      match r with
      | '-' :: r => (someDigits? r).map (true, ·)
      | '+' :: r => (someDigits? r).map (false, ·)
      | r => (someDigits? r).map (false, ·)
    else some (false, [], c :: r)
  | [] => some (false, [], [])

def scanNumeral (negative : Bool) (s : List Char) : Option (Token × List Char) := do
  let (whole, s) ← wholePart? s
  let (fraction, s) ← fractionPart? s
  let (sign, exponent, s) ← exponentPart? s
  pure (.number ⟨negative, whole, fraction, sign, exponent⟩, s)

def isBlank (c : Char) : Bool :=
  c == ' ' || c == '\n' || c == '\t' || c == '\r'

def scanToken : List Char → Option (Token × List Char)
  | '\x7b' :: r => some (.openBrace, r)
  | '\x7d' :: r => some (.closeBrace, r)
  | '[' :: r => some (.openBracket, r)
  | ']' :: r => some (.closeBracket, r)
  | ':' :: r => some (.colon, r)
  | ',' :: r => some (.comma, r)
  | '"' :: r =>
    (scanString r).map fun (ps, rest) => (.string ((pieceChars? ps).map String.ofList), rest)
  | 'n' :: 'u' :: 'l' :: 'l' :: r => some (.null, r)
  | 't' :: 'r' :: 'u' :: 'e' :: r => some (.bool true, r)
  | 'f' :: 'a' :: 'l' :: 's' :: 'e' :: r => some (.bool false, r)
  | '-' :: r => scanNumeral true r
  | s => scanNumeral false s

theorem scanString_length (s : List Char) {ps : List Piece} {r : List Char}
    (h : scanString s = some (ps, r)) : r.length < s.length := by
  fun_induction scanString s generalizing ps r with
  | case1 => simp at h
  | case2 t => simp_all
  | case3 a b c d t ih =>
    simp only [Option.bind_eq_bind, Option.pure_def, Option.bind_eq_some_iff, Option.some.injEq,
      Prod.mk.injEq, Prod.exists] at h
    obtain ⟨n, -, qs, q, hq, -, rfl⟩ := h
    have := ih hq
    simp only [List.length_cons]
    omega
  | case4 e t _ ih =>
    simp only [Option.bind_eq_bind, Option.pure_def, Option.bind_eq_some_iff, Option.some.injEq,
      Prod.mk.injEq, Prod.exists] at h
    obtain ⟨n, -, qs, q, hq, -, rfl⟩ := h
    have := ih hq
    simp only [List.length_cons]
    omega
  | case5 => simp at h
  | case6 c t _ _ _ _ ih =>
    simp only [Option.map_eq_some_iff, Prod.mk.injEq, Prod.exists] at h
    obtain ⟨qs, q, hq, -, rfl⟩ := h
    have := ih hq
    simp only [List.length_cons]
    omega

theorem afterDigits_length (s : List Char) : (afterDigits s).length ≤ s.length :=
  (List.dropWhile_sublist _).length_le

theorem someDigits_length {s r : List Char} {ds : List Nat}
    (h : someDigits? s = some (ds, r)) : r.length < s.length := by
  unfold someDigits? at h
  split at h
  · simp at h
  · rename_i hd
    simp only [Option.some.injEq, Prod.mk.injEq] at h
    obtain ⟨-, rfl⟩ := h
    cases s with
    | nil => simp [digitsOf] at hd
    | cons c s =>
      by_cases hc : isDigit c
      · have := afterDigits_length s
        simp only [afterDigits] at this ⊢
        simp [hc]
        omega
      · simp [digitsOf, hc] at hd

theorem wholePart_length {s r : List Char} {ds : List Nat}
    (h : wholePart? s = some (ds, r)) : r.length < s.length := by
  unfold wholePart? at h
  split at h
  · simp only [Option.some.injEq, Prod.mk.injEq] at h
    simp [← h.2]
  · exact someDigits_length h

theorem fractionPart_length {s r : List Char} {ds : List Nat}
    (h : fractionPart? s = some (ds, r)) : r.length ≤ s.length := by
  unfold fractionPart? at h
  split at h
  · have := someDigits_length h
    simp only [List.length_cons]
    omega
  · simp only [Option.some.injEq, Prod.mk.injEq] at h
    simp [← h.2]

theorem exponentPart_length {s r : List Char} {b : Bool} {ds : List Nat}
    (h : exponentPart? s = some (b, ds, r)) : r.length ≤ s.length := by
  unfold exponentPart? at h
  split at h
  · split at h
    · split at h <;>
        (simp only [Option.map_eq_some_iff, Prod.mk.injEq, Prod.exists] at h
         obtain ⟨es, q, hq, -, -, rfl⟩ := h
         have := someDigits_length hq
         simp only [List.length_cons] at this ⊢
         omega)
    · simp only [Option.some.injEq, Prod.mk.injEq] at h
      simp [← h.2.2]
  · simp only [Option.some.injEq, Prod.mk.injEq] at h
    simp [← h.2.2]

theorem scanNumeral_length {b : Bool} {s r : List Char} {t : Token}
    (h : scanNumeral b s = some (t, r)) : r.length < s.length := by
  simp only [scanNumeral, Option.bind_eq_bind, Option.pure_def, Option.bind_eq_some_iff,
    Option.some.injEq, Prod.mk.injEq, Prod.exists] at h
  obtain ⟨ds, s₁, h₁, fs, s₂, h₂, e, es, s₃, h₃, -, rfl⟩ := h
  have := wholePart_length h₁
  have := fractionPart_length h₂
  have := exponentPart_length h₃
  omega

theorem scanToken_length {s r : List Char} {t : Token}
    (h : scanToken s = some (t, r)) : r.length < s.length := by
  unfold scanToken at h
  split at h
  case h_7 =>
    simp only [Option.map_eq_some_iff, Prod.mk.injEq, Prod.exists] at h
    obtain ⟨ps, q, hq, -, rfl⟩ := h
    have := scanString_length _ hq
    simp only [List.length_cons]
    omega
  case h_11 =>
    have := scanNumeral_length h
    simp only [List.length_cons]
    omega
  case h_12 => exact scanNumeral_length h
  all_goals
    simp only [Option.some.injEq, Prod.mk.injEq] at h
    simp only [← h.2, List.length_cons]
    omega

def tokens? (s : List Char) : Option (List Token) :=
  match s with
  | [] => some []
  | c :: r =>
    if isBlank c then tokens? r
    else
      match _h : scanToken (c :: r) with
      | none => none
      | some (t, rest) => (tokens? rest).map (t :: ·)
termination_by s.length
decreasing_by
  · simp
  · exact scanToken_length _h

end RelQuery.Json
