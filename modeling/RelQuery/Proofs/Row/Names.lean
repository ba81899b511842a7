import RelQuery.Row.Basic

/-!
# Columns by name

A name is looked up in an index of folded names, or by a search from the left. Both find the first
column that has the name up to ASCII case, so that a lookup on a row depends on its column names
only.
-/

set_option autoImplicit false

namespace RelQuery

namespace Text

/-- The place of the first name that is equal to `name` up to ASCII case. -/
structure Leftmost (names : List String) (name : String) (i : Nat) : Prop where
  found : ∃ n, names[i]? = some n ∧ foldCase n = foldCase name
  first : ∀ j < i, ∀ n, names[j]? = some n → foldCase n ≠ foldCase name

variable {names : List String} {name : String} {i : Nat}

theorem Leftmost.lt (h : Leftmost names name i) : i < names.length := by
  obtain ⟨n, hn, -⟩ := h.found
  exact (List.getElem?_eq_some_iff.mp hn).1

theorem position_eq_some_iff : position names name = some i ↔ Leftmost names name i := by
  rw [position, List.findIdx?_eq_some_iff_getElem]
  simp only [sameName_iff]
  constructor
  · rintro ⟨hi, hsame, hfirst⟩
    refine ⟨⟨names[i], List.getElem?_eq_getElem hi, hsame⟩, fun j hj n hn => ?_⟩
    obtain ⟨hlt, rfl⟩ := List.getElem?_eq_some_iff.mp hn
    exact hfirst j hj
  · rintro ⟨⟨n, hn, hsame⟩, hfirst⟩
    obtain ⟨hi, rfl⟩ := List.getElem?_eq_some_iff.mp hn
    exact ⟨hi, hsame, fun j hj => hfirst j hj _ (List.getElem?_eq_getElem _)⟩

theorem position_eq_none_iff :
    position names name = none ↔ ∀ n ∈ names, foldCase n ≠ foldCase name := by
  rw [position, List.findIdx?_eq_none_iff]
  simp only [← Bool.not_eq_true, sameName_iff, ne_eq]

theorem position_cons (n : String) : position (n :: names) name =
    if foldCase name = foldCase n then some 0 else (position names name).map (· + 1) := by
  have hsame : sameName n name = true ↔ foldCase name = foldCase n := by
    rw [sameName_iff, eq_comm]
  rw [position, List.findIdx?_cons, position]
  simp only [hsame]

end Text

namespace NameIndex

theorem find?_enter (t : NameIndex) (n : String) (i : Nat) (name : String) :
    (t.enter n i).find? name =
      (t.find? name).or (if Text.foldCase name = Text.foldCase n then some i else none) := by
  rw [enter, find?, find?]
  split
  · rename_i hknown
    by_cases hsame : Text.foldCase name = Text.foldCase n
    · obtain ⟨entry, hmem, hentry⟩ := List.any_eq_true.mp hknown
      have hfound : (t.lookup (Text.foldCase name)).isSome := by
        rw [List.lookup_isSome_iff]
        exact ⟨entry, hmem, by rw [hsame, beq_iff_eq, ← beq_iff_eq.mp hentry]⟩
      obtain ⟨j, hj⟩ := Option.isSome_iff_exists.mp hfound
      rw [hj, Option.some_or]
    · rw [if_neg hsame, Option.or_none]
  · rw [List.lookup_append, List.lookup_cons]
    by_cases hsame : Text.foldCase name = Text.foldCase n
    · simp [hsame]
    · simp [hsame, beq_false_of_ne hsame]

theorem find?_enterAll (t : NameIndex) (names : List String) (i : Nat) (name : String) :
    (t.enterAll names i).find? name =
      (t.find? name).or ((Text.position names name).map (i + ·)) := by
  induction names generalizing t i with
  | nil => exact Option.or_none.symm
  | cons n names ih =>
    rw [enterAll, ih, find?_enter, Option.or_assoc, Text.position_cons]
    by_cases hsame : Text.foldCase name = Text.foldCase n
    · simp [hsame]
    · simp [hsame, Function.comp_def, Nat.add_assoc, Nat.add_comm 1]

theorem find?_ofNames (names : List String) (name : String) :
    (ofNames names).find? name = Text.position names name := by
  rw [ofNames, find?_enterAll]
  simp [find?]

end NameIndex

namespace Row

theorem indexOf?_eq_position (r : Row) (name : String) :
    r.indexOf? name = Text.position r.columnNames name := by
  cases r with
  | live values columns => exact NameIndex.find?_ofNames columns name
  | detached values columns => exact NameIndex.find?_ofNames columns name
  | literal pairs => rfl
  | adapted base view => exact NameIndex.find?_ofNames view.layout.names name

theorem indexOf?_eq_some_iff {r : Row} {name : String} {i : Nat} :
    r.indexOf? name = some i ↔ Text.Leftmost r.columnNames name i := by
  rw [indexOf?_eq_position, Text.position_eq_some_iff]

end Row

end RelQuery
