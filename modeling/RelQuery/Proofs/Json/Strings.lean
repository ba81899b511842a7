import Mathlib.Data.List.Forall2
import RelQuery.Json.Quoted
import RelQuery.Json.Token

/-!
# Strings read back

Each character of a string is escaped to what names it, whatever follows, so the scanner stops at
the quote that closes the string.
-/

set_option autoImplicit false

namespace RelQuery.Json

inductive Names : Piece → Char → Prop
  | char (c : Char) : Names (.char c) c
  | code {c : Char} (h : c.toNat < 0x20) : Names (.code c.toNat) c

theorem scanString_short {e c : Char} (h : simpleEscape? e = some c) (rest : List Char) :
    scanString ('\\' :: e :: rest) = (scanString rest).map fun q => (.char c :: q.1, q.2) := by
  have hunicode : e ≠ 'u' := by
    rintro rfl
    cases h
  cases hrest : scanString rest <;> simp [scanString, hunicode, h, hrest]

theorem scanString_escapeChar (c : Char) (rest : List Char) : ∃ p, Names p c ∧
    scanString (escapeChar c ++ rest) = (scanString rest).map fun q => (p :: q.1, q.2) := by
  unfold escapeChar
  split_ifs with hquote hslash hline hreturn htab hback hfeed hcontrol
  · exact ⟨_, .char c, scanString_short (by rw [hquote]; rfl) rest⟩
  · exact ⟨_, .char c, scanString_short (by rw [hslash]; rfl) rest⟩
  · exact ⟨_, .char c, scanString_short (by rw [hline]; rfl) rest⟩
  · exact ⟨_, .char c, scanString_short (by rw [hreturn]; rfl) rest⟩
  · exact ⟨_, .char c, scanString_short (by rw [htab]; rfl) rest⟩
  · exact ⟨_, .char c, scanString_short (by rw [hback]; rfl) rest⟩
  · exact ⟨_, .char c, scanString_short (by rw [hfeed]; rfl) rest⟩
  · refine ⟨_, .code hcontrol, ?_⟩
    have hbyte : c.toNat < 256 := Nat.lt_trans hcontrol (by decide)
    cases h : scanString rest <;>
      simp [scanString, Text.hexNat?_zero, Text.hexNat?_hexDigits hbyte, h]
  · refine ⟨_, .char c, ?_⟩
    cases h : scanString rest <;> simp [scanString, hslash, hcontrol, h]

theorem scanString_quoted (s rest : List Char) : ∃ ps, List.Forall₂ Names ps s ∧
    scanString (s.flatMap escapeChar ++ '"' :: rest) = some (ps, rest) := by
  induction s with
  | nil => exact ⟨[], .nil, by simp [scanString]⟩
  | cons c s ih =>
    obtain ⟨ps, hnames, hscan⟩ := ih
    obtain ⟨p, hp, hc⟩ := scanString_escapeChar c (s.flatMap escapeChar ++ '"' :: rest)
    refine ⟨p :: ps, .cons hp hnames, ?_⟩
    rw [List.flatMap_cons, List.append_assoc, hc, hscan]
    rfl

theorem pieceChars?_code {n : Nat} (h : n < 0x20) (ps : List Piece) :
    pieceChars? (.code n :: ps) = (pieceChars? ps).map (Char.ofNat n :: ·) := by
  have hhigh : ¬(0xD800 ≤ n ∧ n < 0xDC00) := by omega
  have hlow : ¬(0xDC00 ≤ n ∧ n < 0xE000) := by omega
  have hnone : ¬(0xD800 ≤ n ∧ n < 0xE000) := by omega
  cases ps with
  | nil => simp [pieceChars?, hnone]
  | cons p ps =>
    cases p with
    | char c => simp [pieceChars?, hnone]
    | code m => rw [pieceChars?, if_neg hhigh, if_neg hlow]

theorem pieceChars?_names {ps : List Piece} {s : List Char} (h : List.Forall₂ Names ps s) :
    pieceChars? ps = some s := by
  induction h with
  | nil => rfl
  | cons hp _ ih =>
    cases hp with
    | char c => rw [pieceChars?, ih]; rfl
    | code hcontrol => rw [pieceChars?_code hcontrol, ih, Option.map_some, Char.ofNat_toNat]

theorem scanToken_quoted (s : String) (rest : List Char) :
    scanToken ((quoted s).toList ++ rest) = some (.string (some s), rest) := by
  obtain ⟨ps, hnames, hscan⟩ := scanString_quoted s.toList rest
  have htext : (quoted s).toList ++ rest =
      '"' :: (s.toList.flatMap escapeChar ++ '"' :: rest) := by
    rw [quoted, String.toList_ofList]
    simp
  rw [htext, scanToken, hscan, Option.map_some]
  simp [pieceChars?_names hnames]

end RelQuery.Json
