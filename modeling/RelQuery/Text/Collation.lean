/-!
# Collations in SQL text
-/

set_option autoImplicit false

namespace RelQuery.Text

/-- Adds a collation to the text of an expression, inside a parenthesis that closes at its
end. -/
def insertCollation (sql collation : String) : String :=
  if sql.toList.getLast? = some ')' then
    String.ofList sql.toList.dropLast ++ " COLLATE " ++ collation ++ ")"
  else sql ++ " COLLATE " ++ collation

theorem insertCollation_cases (s c : String) :
    (∃ t : String, s = t ++ ")" ∧ insertCollation s c = t ++ (" COLLATE " ++ c ++ ")")) ∨
      insertCollation s c = s ++ (" COLLATE " ++ c) := by
  unfold insertCollation
  split
  · rename_i hlast
    obtain ⟨ds, hds⟩ : ∃ ds, s.toList = ds ++ [')'] := List.getLast?_eq_some_iff.mp hlast
    refine .inl ⟨String.ofList ds, String.toList_inj.mp ?_, ?_⟩
    · rw [hds, String.toList_append, String.toList_ofList]
      rfl
    · rw [hds, List.dropLast_concat]
      simp only [String.append_assoc]
  · exact .inr (by rw [String.append_assoc])

end RelQuery.Text
