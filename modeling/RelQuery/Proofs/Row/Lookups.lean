import RelQuery.Engine.Basic
import RelQuery.Proofs.Row.Resolution

/-!
# Lookups that agree

A statement and a literal row search their columns from the left, every other row looks the name up
in an index of folded names. Which name is found is told here by the characters alone: two names are
one when they differ in the case of ASCII letters at most.
-/

set_option autoImplicit false

namespace RelQuery

namespace Text

/-- A character twice, or an ASCII letter in its two cases. -/
inductive OneLetter : Char → Char → Prop
  | same (c : Char) : OneLetter c c
  | lowered {c d : Char} (hc : 'A' ≤ c ∧ c ≤ 'Z') (h : d.toNat = c.toNat + 32) : OneLetter c d
  | raised {c d : Char} (hd : 'A' ≤ d ∧ d ≤ 'Z') (h : c.toNat = d.toNat + 32) : OneLetter c d

/-- The two names have as many characters, and in each place one letter. -/
def CaseVariant (s t : String) : Prop :=
  List.Forall₂ OneLetter s.toList t.toList

theorem capital_iff (c : Char) : ('A' ≤ c ∧ c ≤ 'Z') ↔ 65 ≤ c.toNat ∧ c.toNat ≤ 90 := by
  rw [Char.le_def, Char.le_def, UInt32.le_iff_toNat_le, UInt32.le_iff_toNat_le]
  rfl

theorem toNat_toLower (c : Char) :
    c.toLower.toNat = if 65 ≤ c.toNat ∧ c.toNat ≤ 90 then c.toNat + 32 else c.toNat := by
  have hiff : (c.val ≥ 'A'.val ∧ c.val ≤ 'Z'.val) ↔ 65 ≤ c.toNat ∧ c.toNat ≤ 90 := by
    rw [ge_iff_le, UInt32.le_iff_toNat_le, UInt32.le_iff_toNat_le]
    rfl
  delta Char.toLower
  by_cases h : 65 ≤ c.toNat ∧ c.toNat ≤ 90
  · rw [dif_pos (hiff.mpr h), if_pos h]
    show (c.val.toNat + 32) % 2 ^ 32 = c.toNat + 32
    exact Nat.mod_eq_of_lt (by change c.toNat + 32 < _; omega)
  · rw [dif_neg (mt hiff.mp h), if_neg h]

theorem oneLetter_iff (c d : Char) : OneLetter c d ↔ c.toLower = d.toLower := by
  rw [← Char.toNat_inj, toNat_toLower, toNat_toLower]
  constructor
  · intro h
    cases h with
    | same => rfl
    | lowered hc h =>
      rw [capital_iff] at hc
      split_ifs <;> omega
    | raised hd h =>
      rw [capital_iff] at hd
      split_ifs <;> omega
  · intro h
    split_ifs at h with hc hd hd
    · rw [show c = d from Char.toNat_inj.mp (by omega)]
      exact .same d
    · exact .lowered ((capital_iff c).mpr hc) h.symm
    · exact .raised ((capital_iff d).mpr hd) h
    · rw [show c = d from Char.toNat_inj.mp h]
      exact .same d

theorem caseVariant_iff (s t : String) : CaseVariant s t ↔ foldCase s = foldCase t := by
  rw [CaseVariant, foldCase, foldCase, String.ofList_inj]
  generalize s.toList = cs, t.toList = ds
  induction cs generalizing ds with
  | nil => cases ds <;> simp
  | cons c cs ih => cases ds <;> simp [oneLetter_iff, ih]

/-- The least index of a name that is a variant of the one looked up, and nothing if no name is. -/
inductive Found (names : List String) (name : String) : Option Nat → Prop
  | at {i : Nat} {n : String} (hn : names[i]? = some n) (h : CaseVariant n name)
    (least : ∀ (j : Nat) (m : String), names[j]? = some m → CaseVariant m name → i ≤ j) :
    Found names name (some i)
  | nowhere (h : ∀ n ∈ names, ¬CaseVariant n name) : Found names name none

theorem found_iff {names : List String} {name : String} {found : Option Nat} :
    Found names name found ↔ position names name = found := by
  cases found with
  | none =>
    rw [position_eq_none_iff]
    simp only [ne_eq, ← caseVariant_iff]
    exact ⟨fun | .nowhere h => h, .nowhere⟩
  | some i =>
    rw [position_eq_some_iff]
    constructor
    · rintro (⟨hn, h, least⟩ | _)
      refine ⟨⟨_, hn, (caseVariant_iff _ _).mp h⟩, fun j hj m hm hsame => ?_⟩
      exact absurd (least j m hm ((caseVariant_iff m name).mpr hsame)) (Nat.not_le_of_lt hj)
    · rintro ⟨⟨n, hn, hsame⟩, hfirst⟩
      refine .at hn ((caseVariant_iff n name).mpr hsame) fun j m hm h =>
        Nat.le_of_not_lt fun hj => ?_
      exact hfirst j hj m hm ((caseVariant_iff m name).mp h)

theorem position_caseVariant {name name' : String} (h : CaseVariant name name')
    (names : List String) : position names name' = position names name := by
  simp only [position]
  congr 1
  funext n
  rw [Bool.eq_iff_iff, sameName_iff, sameName_iff, (caseVariant_iff name name').mp h]

end Text

theorem Layout.indexOf?_eq_position (l : Layout) (name : String) :
    l.indexOf? name = Text.position l.names name :=
  NameIndex.find?_ofNames l.names name

theorem Row.exists_adapt_identity (r : Row) :
    ∃ a, r.adapt .identity = .ok a ∧ a.columnNames = r.columnNames := by
  obtain ⟨layout, hlayout⟩ : ∃ layout,
      Shape.spanLayout r.columnNames 0 r.columnNames.length = .ok layout :=
    Shape.spanLayout_ok ⟨Nat.zero_le _, Nat.le_refl _⟩
  refine ⟨.adapted r ⟨layout, []⟩, Row.adapt_eq_ok.mpr ⟨_, ?_, rfl⟩, ?_⟩
  · rw [Shape.resolve, hlayout]
    rfl
  · show layout.names = _
    rw [Row.names_of_span hlayout, Nat.sub_zero, List.drop_zero, List.take_length]

/-- One index is found of one name in one list of columns: by the index of folded names, by a
layout, by a statement and by a row of whatever storage, seen in full or not, and in whatever ASCII
case the name is asked for. It is the least index of a name with the same letters. -/
theorem lookups_agree (names : List String) (name : String) :
    ∃ found, Text.Found names name found ∧ (∀ other, Text.Found names name other → other = found) ∧
      ∀ name', Text.CaseVariant name name' →
        (NameIndex.ofNames names).find? name' = found ∧
        (∀ l : Layout, l.names = names → l.indexOf? name' = found) ∧
        (∀ s : Statement, s.columns = names → s.indexOf? name' = found) ∧
        ∀ r : Row, r.columnNames = names → r.indexOf? name' = found ∧
          ∃ a, r.adapt .identity = .ok a ∧ a.indexOf? name' = found := by
  refine ⟨Text.position names name, Text.found_iff.mpr rfl, ?_, fun name' hname => ?_⟩
  · intro other hother
    exact (Text.found_iff.mp hother).symm
  · rw [← Text.position_caseVariant hname names]
    refine ⟨NameIndex.find?_ofNames names name', ?_, ?_, ?_⟩
    · rintro l rfl
      exact l.indexOf?_eq_position name'
    · rintro s rfl
      rfl
    · rintro r rfl
      obtain ⟨a, ha, hnames⟩ := r.exists_adapt_identity
      refine ⟨r.indexOf?_eq_position name', a, ha, ?_⟩
      rw [a.indexOf?_eq_position, hnames]

/-- Columns of which two differ in the case of ASCII letters and two in that of another letter. -/
def accented : List String := ["É", "id", "ID", "é"]

theorem accented_found : Text.Found accented "id" (some 1) ∧
    (Row.live (accented.map .text) accented).indexOf? "iD" = some 1 ∧
    (Row.literal (accented.map fun n => (n, .text n))).indexOf? "iD" = some 1 ∧
    (Statement.mk "SELECT 1" accented 0).indexOf? "iD" = some 1 ∧
    Text.Found accented "é" (some 3) ∧
    (Row.literal (accented.map fun n => (n, .text n))).indexOf? "é" = some 3 := by
  obtain ⟨i, hi, -, hid⟩ := lookups_agree accented "id"
  obtain ⟨j, hj, -, haccent⟩ := lookups_agree accented "é"
  obtain ⟨hindex, -, hstatement, hrow⟩ := hid "iD" ((Text.caseVariant_iff _ _).mpr (by decide))
  obtain ⟨hindex', -, -, hrow'⟩ := haccent "é" ((Text.caseVariant_iff _ _).mpr rfl)
  obtain rfl : i = some 1 := hindex.symm.trans (by decide)
  obtain rfl : j = some 3 := hindex'.symm.trans (by decide)
  exact ⟨hi, (hrow _ rfl).1, (hrow _ rfl).1, hstatement _ rfl, hj, (hrow' _ rfl).1⟩

end RelQuery
