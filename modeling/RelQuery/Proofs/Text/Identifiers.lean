import RelQuery.Proofs.Text.Parentheses

/-!
# Tokens of SQL text

A text is read from left to right as identifiers and other characters. An identifier is a single
token: it ends at the first quote that is not followed by another one. Parentheses are counted
where they stand outside of identifiers.
-/

set_option autoImplicit false

namespace RelQuery.Text

/-- A text that is read with `d` parentheses open before it and `e` open after it. It ends outside
of identifiers, and no parenthesis is closed that was not opened. -/
inductive Scans : Nat → List Char → Nat → Prop
  | nil (d : Nat) : Scans d [] d
  | identifier {d e : Nat} {name rest : List Char} (ends : rest.head? ≠ some '"')
    (h : Scans d rest e) : Scans d ('"' :: (doubleQuotes name ++ '"' :: rest)) e
  | opening {d e : Nat} {rest : List Char} (h : Scans (d + 1) rest e) : Scans d ('(' :: rest) e
  | closing {d e : Nat} {rest : List Char} (h : Scans d rest e) : Scans (d + 1) (')' :: rest) e
  | other {d e : Nat} {c : Char} {rest : List Char} (hc : c ≠ '"' ∧ c ≠ '(' ∧ c ≠ ')')
    (h : Scans d rest e) : Scans d (c :: rest) e

theorem identifier_of_after {d e : Nat} (cs : List Char)
    (h : (Place.mk true d).after cs = some ⟨false, e⟩) :
    ∃ name rest : List Char, cs = doubleQuotes name ++ '"' :: rest ∧ rest.head? ≠ some '"' ∧
      (Place.mk false d).after rest = some ⟨false, e⟩ := by
  cases cs with
  | nil => cases h
  | cons c cs =>
    by_cases hc : c = '"'
    · subst hc
      by_cases hd : cs.head? = some '"'
      · obtain ⟨rest, rfl⟩ := List.head?_eq_some_iff.mp hd
        obtain ⟨name, rest, rfl, hends, hrest⟩ := identifier_of_after rest h
        exact ⟨'"' :: name, rest, rfl, hends, hrest⟩
      · exact ⟨[], cs, rfl, hd, h⟩
    · have hnext : (Place.mk true d).next c = some ⟨true, d⟩ := by
        rw [Place.next, if_neg hc]
        rfl
      rw [Place.after, hnext] at h
      obtain ⟨name, rest, rfl, hends, hrest⟩ := identifier_of_after cs h
      refine ⟨c :: name, rest, ?_, hends, hrest⟩
      rw [doubleQuotes, if_neg hc]
      rfl
termination_by cs.length

theorem scans_of_after {d e : Nat} (cs : List Char)
    (h : (Place.mk false d).after cs = some ⟨false, e⟩) : Scans d cs e := by
  cases cs with
  | nil =>
    cases h
    exact .nil d
  | cons c cs =>
    by_cases hq : c = '"'
    · subst hq
      obtain ⟨name, rest, rfl, hends, hrest⟩ := identifier_of_after cs h
      exact .identifier hends (scans_of_after rest hrest)
    by_cases ho : c = '('
    · subst ho
      exact .opening (scans_of_after cs h)
    by_cases hc : c = ')'
    · subst hc
      cases d with
      | zero => cases h
      | succ d => exact .closing (scans_of_after cs h)
    · rw [Place.after, Place.next_flat _ ⟨hq, ho, hc⟩] at h
      exact .other ⟨hq, ho, hc⟩ (scans_of_after cs h)
termination_by cs.length

theorem after_of_scans {d e : Nat} {cs : List Char} (h : Scans d cs e) :
    (Place.mk false d).after cs = some ⟨false, e⟩ := by
  induction h with
  | nil => rfl
  | @identifier d _ name rest _ _ ih =>
    show (Place.mk true d).after (doubleQuotes name ++ '"' :: rest) = _
    rw [Place.after_append_of (Place.after_doubleQuotes d name)]
    exact ih
  | opening _ ih => exact ih
  | closing _ ih => exact ih
  | other hc _ ih =>
    rw [Place.after, Place.next_flat _ hc]
    exact ih

/-- Reading tokens and counting quotes agree on where a text ends. -/
theorem scans_iff {d e : Nat} {cs : List Char} :
    Scans d cs e ↔ (Place.mk false d).after cs = some ⟨false, e⟩ :=
  ⟨after_of_scans, scans_of_after cs⟩

/-- A text that changes nothing for what stands around it: read at any depth it ends at the same
one, and what comes after it is read as if it stood in its place. -/
structure SelfContained (s : String) : Prop where
  scans : ∀ d : Nat, Scans d s.toList d
  skipped : ∀ (p : Place) (rest : List Char), p.inside = false →
    p.after (s.toList ++ rest) = p.after rest

theorem Balanced.after_outside {cs : List Char} (h : Balanced cs) (d : Nat) :
    (Place.mk false d).after cs = some ⟨false, d⟩ := by
  induction d with
  | zero => exact h
  | succ d ih => exact Place.after_deeper ih

theorem Balanced.selfContained {s : String} (h : Balanced s.toList) : SelfContained s where
  scans := fun d => scans_iff.mpr (h.after_outside d)
  skipped := by
    rintro ⟨_, d⟩ rest rfl
    exact Place.after_append_of (h.after_outside d) rest

end RelQuery.Text
