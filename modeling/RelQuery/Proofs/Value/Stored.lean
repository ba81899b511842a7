import RelQuery.Proofs.Json.ShortNumerals
import RelQuery.Value.Json

/-!
# Values stored as JSON read back

The text of every value is a document that holds the class of the value and its content, and every
value but a real reads back from it. The text of a finite real is exact, so the real reads back when
the reader takes the numeral to the nearest number. No other real has a numeral, and all of them
have one text.
-/

set_option autoImplicit false

namespace RelQuery

open Json (Document Numeral)

namespace Value

theorem writes_jsonField (name : String) {text : String} {d : Document}
    (h : Json.Writes text.toList d) :
    Json.Writes (jsonField name text).toList (.object [(some name, d)]) := by
  have htext : (jsonField name text).toList =
      '\x7b' :: (Json.quoted name).toList ++ ':' :: text.toList ++ ['\x7d'] := by
    simp [jsonField]
  rw [htext]
  exact Json.writes_field name h

theorem ofJson?_jsonField (name : String) {text : String} {d : Document}
    (h : Json.Writes text.toList d) : ofJson? (jsonField name text) = ofField? name d := by
  rw [ofJson?, (writes_jsonField name h).ofText?]
  rfl

theorem writes_bytes (bytes : List UInt8) :
    Json.Writes ("[" ++ String.intercalate "," (bytes.map fun b => b.toNat.repr) ++ "]").toList
      (.array (bytes.map fun b => .number (Json.ofInt b.toNat))) := by
  have hitems : List.Forall₂ Json.Writes (bytes.map fun b => b.toNat.repr.toList)
      (bytes.map fun b => Document.number (Json.ofInt b.toNat)) := by
    rw [List.forall₂_map_left_iff, List.forall₂_map_right_iff, List.forall₂_same]
    intro b _
    exact Json.writes_int b.toNat
  have hwrites := Json.writes_array hitems
  have htext : ("[" ++ String.intercalate "," (bytes.map fun b => b.toNat.repr) ++ "]").toList =
      '[' :: [','].intercalate (bytes.map fun b => b.toNat.repr.toList) ++ [']'] := by
    simp [String.toList_intercalate, Function.comp_def]
  rw [htext]
  exact hwrites

theorem read?_int64 (n : Int64) : (Json.ofInt n.toInt).read? = some (.integer n.toInt) :=
  Json.read?_ofInt n.le_toInt (Int.lt_trans n.toInt_lt (by decide))

theorem integerOf?_number {n : Numeral} {i : Int} (h : n.read? = some (.integer i)) :
    integerOf? (.number n) = some i := by
  rw [integerOf?, h]

theorem byteOf?_byte (b : UInt8) : byteOf? (.number (Json.ofInt b.toNat)) = some b := by
  have hlt : b.toNat < 256 := b.toNat_lt
  have hread : (Json.ofInt b.toNat).read? = some (.integer b.toNat) :=
    Json.read?_ofInt (by omega) (by omega)
  rw [byteOf?, integerOf?_number hread, Option.bind_some, if_pos (by omega), Int.toNat_natCast,
    UInt8.ofNat_toNat]

theorem bytesOf?_bytes (bytes : List UInt8) :
    bytesOf? (.array (bytes.map fun b => .number (Json.ofInt b.toNat))) = some bytes := by
  rw [bytesOf?]
  induction bytes with
  | nil => rfl
  | cons b bytes ih =>
    rw [List.map_cons, List.mapM_cons, byteOf?_byte, ih]
    rfl

theorem ofJson?_toJson_of_not_real {v : Value} (h : ∀ x, v ≠ .real x) :
    ofJson? v.toJson = some v := by
  cases v with
  | null =>
    rw [toJson, ofJson?, (Json.writes_quoted "Null").ofText?]
    rfl
  | integer n =>
    rw [toJson, ofJson?_jsonField _ (Json.writes_int n.toInt)]
    show ((integerOf? (.number (Json.ofInt n.toInt))).bind int64?).map _ = _
    rw [integerOf?_number (read?_int64 n), Option.bind_some, int64?_toInt]
    rfl
  | real x => exact absurd rfl (h x)
  | text s =>
    rw [toJson, ofJson?_jsonField _ (Json.writes_quoted s)]
    rfl
  | blob bytes =>
    rw [toJson, ofJson?_jsonField _ (writes_bytes bytes)]
    show (bytesOf? _).map Value.blob = _
    rw [bytesOf?_bytes]
    rfl

theorem writes_real {x : Binary64} (h : x.isFinite = true) : ∃ n : Numeral,
    Json.Writes (jsonRealFormat.render x).toList (.number n) ∧ n.nearest = x ∧
      (n.fraction ≠ [] ∨ n.exponent ≠ []) := by
  have hsigned : jsonRealFormat.signedExponent = true := rfl
  obtain ⟨p, q, hp, hround⟩ := Json.unsigned_spells hsigned x
  have htext : (jsonRealFormat.render x).toList =
      (if x.isNegative then ['-'] else []) ++ p.text := by
    rw [DecimalFormat.render, Binary64.not_isNaN_of_isFinite h, h, hp.text]
    simp
  have hmagnitude : min x.magnitude Binary64.infiniteMagnitude = x.magnitude :=
    Nat.min_eq_left (Nat.le_of_lt (of_decide_eq_true h))
  refine ⟨p.numeral x.isNegative, ?_, ?_, ?_⟩
  · rw [htext]
    exact Json.writes_numeral hp.proper x.isNegative
  · rw [Json.Numeral.nearest_eq (m := x.magnitude) (by rw [hp.exact]; exact hround)]
    apply Binary64.ext_magnitude
    · exact Binary64.isNegative_ofMagnitude _ _
    · rw [Binary64.magnitude_ofMagnitude, hmagnitude]
  · simpa [Json.Spelling.numeral, Json.digitValues] using hp.real

theorem render_of_not_finite {x : Binary64} (h : x.isFinite = false) :
    jsonRealFormat.render x = "null" := by
  rw [DecimalFormat.render, h]
  split <;> rfl

theorem realOf?_number {n : Numeral} {x : Binary64} (h : n.fraction ≠ [] ∨ n.exponent ≠ []) :
    realOf? (.number n) = some x ↔ n.read? = some (.real x) := by
  rw [realOf?]
  split
  · rename_i i hread
    exact absurd hread (Json.read?_ne_integer h i)
  · rename_i y hread
    rw [hread, Option.some.injEq, Option.some.injEq, Json.Number.real.injEq]
  · rename_i hread
    rw [hread]
    exact ⟨nofun, nofun⟩

/-- The reader takes the numeral that a real is written as to the number nearest to it. -/
def ReadsNearest (x : Binary64) : Prop :=
  ∃ n, Document.ofText? (jsonRealFormat.render x) = some (.number n) ∧
    n.read? = some (.real n.nearest)

theorem ofJson?_real {x : Binary64} :
    ofJson? (toJson (.real x)) = some (.real x) ↔ ReadsNearest x := by
  rw [toJson, ReadsNearest]
  by_cases hfinite : x.isFinite = true
  · obtain ⟨n, hwrites, hnearest, hreal⟩ := writes_real hfinite
    have hdocument := hwrites.ofText?
    rw [ofJson?_jsonField _ hwrites, hdocument]
    show (realOf? (.number n)).map Value.real = _ ↔ _
    rw [Option.map_eq_some_iff]
    constructor
    · rintro ⟨y, hy, heq⟩
      cases heq
      exact ⟨n, rfl, by rw [(realOf?_number hreal).mp hy, hnearest]⟩
    · rintro ⟨m, hm, hread⟩
      cases hm
      rw [hnearest] at hread
      exact ⟨x, (realOf?_number hreal).mpr hread, rfl⟩
  · rw [render_of_not_finite (Bool.eq_false_iff.mpr hfinite), ofJson?_jsonField _ Json.writes_null,
      Json.writes_null.ofText?]
    constructor
    · intro h
      cases h
    · rintro ⟨n, hn, -⟩
      cases hn

theorem eq_real_of_ofJson? {x : Binary64} {v : Value} (h : ofJson? (toJson (.real x)) = some v) :
    ∃ y, v = .real y := by
  have hreal : ∀ d, ofField? "Real" d = some v → ∃ y, v = .real y := by
    intro d hd
    obtain ⟨y, -, rfl⟩ := Option.map_eq_some_iff.mp
      (show (realOf? d).map Value.real = some v from hd)
    exact ⟨y, rfl⟩
  rw [toJson] at h
  by_cases hfinite : x.isFinite = true
  · obtain ⟨n, hwrites, -⟩ := writes_real hfinite
    rw [ofJson?_jsonField _ hwrites] at h
    exact hreal _ h
  · rw [render_of_not_finite (Bool.eq_false_iff.mpr hfinite),
      ofJson?_jsonField _ Json.writes_null] at h
    exact hreal _ h

theorem ofText?_real (x : Binary64) : ∃ d, Document.ofText? (toJson (.real x)) =
    some (.object [(some "Real", d)]) ∧
      (x.isFinite = false ∧ d = .null ∨ ∃ n, d = .number n ∧ n.nearest = x) := by
  rw [toJson]
  by_cases hfinite : x.isFinite = true
  · obtain ⟨n, hwrites, hnearest, -⟩ := writes_real hfinite
    exact ⟨_, (writes_jsonField _ hwrites).ofText?, .inr ⟨n, rfl, hnearest⟩⟩
  · have hnot := Bool.eq_false_iff.mpr hfinite
    rw [render_of_not_finite hnot]
    exact ⟨_, (writes_jsonField _ Json.writes_null).ofText?, .inl ⟨hnot, rfl⟩⟩

def Unwritten : Value → Prop
  | .real x => x.isFinite = false
  | _ => False

theorem toJson_of_unwritten {v : Value} (h : v.Unwritten) : v.toJson = jsonField "Real" "null" := by
  cases v with
  | real x => rw [toJson, render_of_not_finite h]
  | null | integer | text | blob => cases h

theorem eq_of_toJson_real {x y : Binary64} (h : toJson (.real x) = toJson (.real y)) :
    x = y ∨ x.isFinite = false ∧ y.isFinite = false := by
  obtain ⟨d, hd, hx⟩ := ofText?_real x
  obtain ⟨e, he, hy⟩ := ofText?_real y
  rw [h, he] at hd
  cases hd
  obtain ⟨hx, rfl⟩ | ⟨n, rfl, hx⟩ := hx
  · obtain ⟨hy, -⟩ | ⟨n, hn, -⟩ := hy
    · exact .inr ⟨hx, hy⟩
    · cases hn
  · obtain ⟨-, hnull⟩ | ⟨m, hm, hy⟩ := hy
    · cases hnull
    · cases hm
      exact .inl (hx.symm.trans hy)

/-- Two values of one text are one value, or both are reals without a numeral. -/
theorem toJson_eq_iff (v w : Value) :
    v.toJson = w.toJson ↔ v = w ∨ v.Unwritten ∧ w.Unwritten := by
  constructor
  · intro h
    by_cases hv : ∃ x, v = .real x
    · obtain ⟨x, rfl⟩ := hv
      by_cases hw : ∃ y, w = .real y
      · obtain ⟨y, rfl⟩ := hw
        exact (eq_of_toJson_real h).imp_left (congrArg Value.real)
      · have hread := ofJson?_toJson_of_not_real fun y hy => hw ⟨y, hy⟩
        exact absurd (eq_real_of_ofJson? (h ▸ hread)) hw
    · have hread := ofJson?_toJson_of_not_real fun x hx => hv ⟨x, hx⟩
      by_cases hw : ∃ y, w = .real y
      · obtain ⟨y, rfl⟩ := hw
        exact absurd (eq_real_of_ofJson? (h ▸ hread)) hv
      · have hread' := ofJson?_toJson_of_not_real fun y hy => hw ⟨y, hy⟩
        rw [h, hread'] at hread
        exact .inl (Option.some.inj hread).symm
  · rintro (rfl | ⟨hv, hw⟩)
    · rfl
    · rw [toJson_of_unwritten hv, toJson_of_unwritten hw]

/-- What has to hold for a value to read back: nothing, but for a real that the reader does not
round. -/
def Restored : Value → Prop
  | .real x => ReadsNearest x
  | _ => True

/-- Every value reads back from its text, a finite real when the reader takes its exact numeral to
the nearest number, as it does for a short one. The reals that are not finite do not read back, and
are the only values that share a text. -/
theorem stored_reads_back (v w : Value) :
    (ofJson? v.toJson = some v ↔ v.Restored) ∧
    (v.toJson = w.toJson ↔ v = w ∨ v.Unwritten ∧ w.Unwritten) ∧
    (v.Unwritten → ofJson? v.toJson = none) ∧
    ∀ x, v = .real x → x.isFinite = true → ∃ n : Numeral,
      Document.ofText? (jsonRealFormat.render x) = some (.number n) ∧ n.nearest = x ∧
        (n.Short → v.Restored) := by
  refine ⟨?_, toJson_eq_iff v w, fun hv => ?_, ?_⟩
  · cases v with
    | real x => exact ofJson?_real
    | null | integer | text | blob =>
      exact iff_of_true (ofJson?_toJson_of_not_real nofun) trivial
  · rw [toJson_of_unwritten hv, ofJson?_jsonField _ Json.writes_null]
    rfl
  · rintro x rfl hfinite
    obtain ⟨n, hwrites, hnearest, hreal⟩ := writes_real hfinite
    refine ⟨n, hwrites.ofText?, hnearest, fun hshort => ⟨n, hwrites.ofText?, ?_⟩⟩
    exact Json.read?_short hshort hreal (hnearest.symm ▸ hfinite)

theorem fraction_written : Document.ofText? (jsonRealFormat.render ⟨0x3E5AD7F29ABCAF48⟩) =
    some (.number ⟨false, [2], [5], true, [8]⟩) := by
  have hproper : Json.Spelling.Proper ⟨['2'], ['5'], true, ['8']⟩ :=
    ⟨List.cons_ne_nil _ _, .inr (by decide), Json.isDigit_singleton rfl, Json.isDigit_singleton rfl,
      Json.isDigit_singleton rfl, nofun⟩
  have hdigits : jsonRealFormat.unsigned ⟨0x3E5AD7F29ABCAF48⟩ =
      ['2', '.', '5', 'e', '-', '8'] := by decide +kernel
  have htext : (jsonRealFormat.render ⟨0x3E5AD7F29ABCAF48⟩).toList =
      (if false then ['-'] else []) ++ Json.Spelling.text ⟨['2'], ['5'], true, ['8']⟩ := by
    rw [DecimalFormat.render, hdigits]
    decide
  have hwrites := Json.writes_numeral hproper false
  rw [← htext] at hwrites
  exact hwrites.ofText?

theorem fraction_restored :
    ofJson? (toJson (.real ⟨0x3E5AD7F29ABCAF48⟩)) = some (.real ⟨0x3E5AD7F29ABCAF48⟩) ∧
      toJson (.real ⟨0x3E5AD7F29ABCAF48⟩) ≠ toJson (.real ⟨0x7FF0000000000000⟩) ∧
      ofJson? (toJson (.real ⟨0x7FF0000000000000⟩)) = none := by
  obtain ⟨hiff, htext, -, hfinite⟩ :=
    stored_reads_back (.real ⟨0x3E5AD7F29ABCAF48⟩) (.real ⟨0x7FF0000000000000⟩)
  obtain ⟨-, -, hinfinite, -⟩ := stored_reads_back (.real ⟨0x7FF0000000000000⟩) .null
  obtain ⟨n, hn, -, hshort⟩ := hfinite _ rfl (by decide)
  cases fraction_written.symm.trans hn
  refine ⟨hiff.mpr (hshort ⟨?_, ?_, ?_⟩), fun h => ?_, hinfinite ?_⟩
  · decide
  · decide
  · decide
  · obtain heq | ⟨hunwritten, -⟩ := htext.mp h
    · exact absurd heq (by decide)
    · cases (show Binary64.isFinite _ = false from hunwritten)
  · show Binary64.isFinite _ = false
    decide

/-- Both infinities are written as null, and neither reads back. -/
theorem infinity_not_restored :
    toJson (.real ⟨0x7FF0000000000000⟩) = toJson (.real ⟨0xFFF0000000000000⟩) ∧
      Value.real ⟨0x7FF0000000000000⟩ ≠ .real ⟨0xFFF0000000000000⟩ ∧
      ofJson? (toJson (.real ⟨0x7FF0000000000000⟩)) ≠ some (.real ⟨0x7FF0000000000000⟩) := by
  have hinfinite : (Value.real ⟨0x7FF0000000000000⟩).Unwritten := by
    show Binary64.isFinite _ = false
    decide
  refine ⟨?_, by decide, ?_⟩
  · rw [toJson_of_unwritten hinfinite, toJson_of_unwritten (v := .real ⟨0xFFF0000000000000⟩)]
    show Binary64.isFinite _ = false
    decide
  · rw [toJson_of_unwritten hinfinite, ofJson?_jsonField _ Json.writes_null]
    nofun

end Value

end RelQuery
