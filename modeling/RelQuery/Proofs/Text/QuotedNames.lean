import RelQuery.Text.Quoted

/-!
# Quoted identifiers read back

An identifier is read from its first quote to the quote that is not followed by another one. In the
text of a quoted name the quotes of the name come in pairs, so the reader stops at the quote that
was written last, and what it has read is the name. It reads nothing else.
-/

set_option autoImplicit false

namespace RelQuery.Text

/-- The name that a quote has opened and the text after the quote that closes it. Two quotes
stand for one. -/
def nameInside? : List Char → Option (List Char × List Char)
  | [] => none
  | '"' :: '"' :: cs => (nameInside? cs).map fun p => ('"' :: p.1, p.2)
  | '"' :: cs => some ([], cs)
  | c :: cs => (nameInside? cs).map fun p => (c :: p.1, p.2)

/-- The identifier that a text begins with and the text after it. -/
def identifier? (sql : String) : Option (String × String) :=
  match sql.toList with
  | '"' :: cs => (nameInside? cs).map fun p => (String.ofList p.1, String.ofList p.2)
  | _ => none

theorem nameInside?_closing {cs : List Char} (h : cs.head? ≠ some '"') :
    nameInside? ('"' :: cs) = some ([], cs) := by
  cases cs with
  | nil => rfl
  | cons c cs =>
    have hc : c ≠ '"' := fun hc => h (congrArg some hc)
    simp [nameInside?, hc]

theorem nameInside?_other {c : Char} (hc : c ≠ '"') (cs : List Char) :
    nameInside? (c :: cs) = (nameInside? cs).map fun p => (c :: p.1, p.2) := by
  simp [nameInside?, hc]

/-- The quotes of a name are read in pairs. Only the last quote is left without another one. -/
theorem nameInside?_doubleQuotes (name : List Char) {rest : List Char}
    (h : rest.head? ≠ some '"') : nameInside? (doubleQuotes name ++ '"' :: rest) =
      some (name, rest) := by
  induction name with
  | nil => exact nameInside?_closing h
  | cons c name ih =>
    by_cases hc : c = '"'
    · subst hc
      show nameInside? ('"' :: '"' :: (doubleQuotes name ++ '"' :: rest)) = _
      rw [nameInside?, ih]
      rfl
    · have htext : doubleQuotes (c :: name) = c :: doubleQuotes name := if_neg hc
      rw [htext, List.cons_append, nameInside?_other hc, ih]
      rfl

theorem eq_of_nameInside? {cs name rest : List Char} (h : nameInside? cs = some (name, rest)) :
    cs = doubleQuotes name ++ '"' :: rest ∧ rest.head? ≠ some '"' := by
  fun_induction nameInside? cs generalizing name rest with
  | case1 => cases h
  | case2 cs ih =>
    obtain ⟨⟨inner, after⟩, hinner, heq⟩ := Option.map_eq_some_iff.mp h
    cases heq
    obtain ⟨rfl, hrest⟩ := ih hinner
    exact ⟨rfl, hrest⟩
  | case3 cs hnext =>
    -- A second quote would have been read together with this one.
    cases h
    refine ⟨rfl, fun hhead => ?_⟩
    obtain ⟨cs, rfl⟩ := List.head?_eq_some_iff.mp hhead
    exact hnext cs rfl
  | case4 c cs _ hc ih =>
    obtain ⟨⟨inner, after⟩, hinner, heq⟩ := Option.map_eq_some_iff.mp h
    cases heq
    obtain ⟨rfl, hrest⟩ := ih hinner
    refine ⟨?_, hrest⟩
    rw [doubleQuotes, if_neg fun hq => hc hq]
    rfl

theorem toList_quoteIdentifier_append (name rest : String) : (quoteIdentifier name ++ rest).toList =
    '"' :: (doubleQuotes name.toList ++ '"' :: rest.toList) := by
  simp [quoteIdentifier]

theorem identifier?_eq_some_iff {sql name rest : String} : identifier? sql = some (name, rest) ↔
    sql = quoteIdentifier name ++ rest ∧ rest.toList.head? ≠ some '"' := by
  constructor
  · intro h
    rw [identifier?] at h
    split at h
    · rename_i cs htext
      obtain ⟨⟨inner, after⟩, hinner, heq⟩ := Option.map_eq_some_iff.mp h
      cases heq
      obtain ⟨rfl, hrest⟩ := eq_of_nameInside? hinner
      refine ⟨String.toList_injective ?_, by rwa [String.toList_ofList]⟩
      rw [toList_quoteIdentifier_append, String.toList_ofList, String.toList_ofList, htext]
    · cases h
  · rintro ⟨rfl, hrest⟩
    rw [identifier?, toList_quoteIdentifier_append]
    show (nameInside? (doubleQuotes name.toList ++ '"' :: rest.toList)).map _ = _
    rw [nameInside?_doubleQuotes name.toList hrest, Option.map_some, String.ofList_toList,
      String.ofList_toList]

theorem identifier?_quoteIdentifier (name : String) {rest : String}
    (h : rest.toList.head? ≠ some '"') :
    identifier? (quoteIdentifier name ++ rest) = some (name, rest) :=
  identifier?_eq_some_iff.mpr ⟨rfl, h⟩

theorem quoteIdentifier_append_inj {name name' rest rest' : String}
    (h : rest.toList.head? ≠ some '"') (h' : rest'.toList.head? ≠ some '"') :
    quoteIdentifier name ++ rest = quoteIdentifier name' ++ rest' ↔
      name = name' ∧ rest = rest' := by
  constructor
  · intro heq
    have hread := identifier?_quoteIdentifier name h
    rw [heq, identifier?_quoteIdentifier name' h'] at hread
    cases hread
    exact ⟨rfl, rfl⟩
  · rintro ⟨rfl, rfl⟩
    rfl

/-- What is read off a quoted name, whatever quotes are in it, is that name and nothing after it.
So names of one text are one name, also before what follows them, and no other text is read as an
identifier. -/
theorem quoted_names_delimited (name name' : String) {rest rest' : String}
    (hrest : rest.toList.head? ≠ some '"') (hrest' : rest'.toList.head? ≠ some '"') :
    identifier? (quoteIdentifier name ++ rest) = some (name, rest) ∧
    (quoteIdentifier name ++ rest = quoteIdentifier name' ++ rest' ↔
      name = name' ∧ rest = rest') ∧
    (quoteIdentifier name = quoteIdentifier name' ↔ name = name') ∧
    ∀ sql read left : String, identifier? sql = some (read, left) ↔
      sql = quoteIdentifier read ++ left ∧ left.toList.head? ≠ some '"' := by
  refine ⟨identifier?_quoteIdentifier name hrest, quoteIdentifier_append_inj hrest hrest',
    ?_, fun _ _ _ => identifier?_eq_some_iff⟩
  have hempty : "".toList.head? ≠ some '"' := by decide
  have hinj := @quoteIdentifier_append_inj name name' "" "" hempty hempty
  simpa using hinj

/-- A name that tries to close its own quotes stays a name, in front of the column it qualifies. -/
theorem closing_name_delimited :
    ".\"id\"".toList.head? ≠ some '"' ∧ "".toList.head? ≠ some '"' ∧
    quoteIdentifier "\"; DROP \"\"" ++ ".\"id\"" = "\"\"\"; DROP \"\"\"\"\".\"id\"" ∧
    identifier? (quoteIdentifier "\"; DROP \"\"" ++ ".\"id\"") =
      some ("\"; DROP \"\"", ".\"id\"") :=
  have hdot : ".\"id\"".toList.head? ≠ some '"' := by decide
  have hempty : "".toList.head? ≠ some '"' := by decide
  ⟨hdot, hempty, by decide, (quoted_names_delimited "\"; DROP \"\"" "" hdot hempty).1⟩

end RelQuery.Text
