import RelQuery.Proofs.Text.Comments

/-!
# Endings of texts and collations

A collation belongs inside of the parentheses of a text that is one group, and after every other
text. It is put before a last parenthesis wherever that one was opened. So it is at its place
exactly if the last parenthesis of the text, if the text ends in one, was opened at its beginning.
-/

set_option autoImplicit false

namespace RelQuery.Text

/-- One group: the parenthesis that closes at the end of the text was opened at its beginning. -/
def IsGroup (s : String) : Prop :=
  ∃ inner : String, Balanced inner.toList ∧ s = group inner

/-- The second text is the first one with the collation at its place. -/
inductive Collated (c : String) : String → String → Prop
  | inside {inner : String} (h : Balanced inner.toList) :
    Collated c (group inner) (group (inner ++ " COLLATE " ++ c))
  | after {s : String} (h : ¬IsGroup s) : Collated c s (s ++ " COLLATE " ++ c)

theorem isGroup_iff (s : String) : IsGroup s ↔ (ungroup? s).isSome = true := by
  constructor
  · rintro ⟨inner, h, rfl⟩
    rw [ungroup?_group h]
    rfl
  · intro h
    obtain ⟨inner, hinner⟩ := Option.isSome_iff_exists.mp h
    unfold ungroup? at hinner
    split at hinner
    · rename_i cs hcs
      split at hinner
      · rename_i hends
        obtain ⟨ds, rfl⟩ : ∃ ds, cs = ds ++ [')'] := List.getLast?_eq_some_iff.mp hends.1
        rw [List.dropLast_concat] at hinner hends
        obtain rfl := Option.some.inj hinner
        refine ⟨_, by rw [String.toList_ofList]; exact hends.2, String.toList_inj.mp ?_⟩
        rw [group_toList, String.toList_ofList, hcs]
      · cases hinner
    · cases hinner

instance (s : String) : Decidable (IsGroup s) :=
  decidable_of_iff _ (isGroup_iff s).symm

/-- Parentheses at both ends need not belong together. -/
example : IsGroup "(a + b)" ∧ ¬IsGroup "(a) + (b)" ∧ ¬IsGroup "f(a)" := by decide

theorem getLast?_group (head inner : String) :
    (head ++ group inner).toList.getLast? = some ')' := by
  rw [String.toList_append, group_toList, ← List.cons_append, ← List.append_assoc,
    List.getLast?_concat]

theorem insertCollation_paren (head inner c : String) :
    insertCollation (head ++ group inner) c = head ++ group (inner ++ " COLLATE " ++ c) := by
  have hchars : (head ++ group inner).toList.dropLast = (head ++ ("(" ++ inner)).toList := by
    rw [String.toList_append, group_toList, ← List.cons_append, ← List.append_assoc,
      List.dropLast_concat, String.toList_append, String.toList_append]
    rfl
  rw [insertCollation, if_pos (getLast?_group head inner), hchars, String.ofList_toList, group]
  simp only [String.append_assoc]

theorem insertCollation_group (inner c : String) :
    insertCollation (group inner) c = group (inner ++ " COLLATE " ++ c) := by
  have h := insertCollation_paren "" inner c
  rwa [String.empty_append, String.empty_append] at h

theorem insertCollation_plain {s : String} (h : s.toList.getLast? ≠ some ')') (c : String) :
    insertCollation s c = s ++ " COLLATE " ++ c := by
  rw [insertCollation, if_neg h]

theorem insertCollation_ne {s : String} (h : s.toList.getLast? = some ')') (c : String) :
    insertCollation s c ≠ s ++ " COLLATE " ++ c := by
  obtain ⟨cs, hcs⟩ : ∃ cs, s.toList = cs ++ [')'] := List.getLast?_eq_some_iff.mp h
  intro heq
  have hchars := congrArg String.toList heq
  rw [insertCollation, if_pos h] at hchars
  simp [hcs] at hchars

theorem collated_insertCollation_iff (s c : String) :
    Collated c s (insertCollation s c) ↔ (s.toList.getLast? = some ')' → IsGroup s) := by
  constructor
  · intro h hlast
    generalize ht : insertCollation s c = t at h
    cases h with
    | inside hinner => exact ⟨_, hinner, rfl⟩
    | after _ => exact absurd ht (insertCollation_ne hlast c)
  · intro h
    by_cases hgroup : IsGroup s
    · obtain ⟨inner, hinner, rfl⟩ := hgroup
      rw [insertCollation_group]
      exact .inside hinner
    · rw [insertCollation_plain fun hlast => hgroup (h hlast)]
      exact .after hgroup

/-- How a text ends: in parentheses around all of it, in parentheses with something before them, or
in no parenthesis. -/
inductive Ending
  | group
  | call
  | plain
deriving DecidableEq

inductive EndsAs : Ending → String → Prop
  | group {inner : String} (h : Balanced inner.toList) : EndsAs .group (Text.group inner)
  | call {head inner : String} {c : Char} (hfirst : head.toList.head? = some c) (hc : c ≠ '(')
    (hhead : Balanced head.toList) (h : Balanced inner.toList) :
    EndsAs .call (head ++ Text.group inner)
  | plain {s : String} (hlast : s.toList.getLast? ≠ some ')') (h : Balanced s.toList) :
    EndsAs .plain s

def Ending.prefixed (op : String) (k : Ending) : Ending :=
  if op = "" then k
  else
    match k with
    | .plain => .plain
    | _ => .call

namespace EndsAs

variable {s : String} {k : Ending}

theorem balanced (h : EndsAs k s) : Balanced s.toList := by
  cases h with
  | group hinner => exact balanced_group hinner
  | call _ _ hhead hinner => exact balanced_append hhead (balanced_group hinner)
  | plain _ hs => exact hs

theorem not_isGroup (h : EndsAs .call s) : ¬IsGroup s := by
  cases h with
  | @call head inner c hfirst hc =>
    rintro ⟨other, -, heq⟩
    obtain ⟨cs, hcs⟩ := List.head?_eq_some_iff.mp hfirst
    have hchars := congrArg String.toList heq
    rw [String.toList_append, hcs, group_toList other, List.cons_append] at hchars
    exact hc (List.cons.inj hchars).1

/-- Whether a collation is put at its place depends on the ending alone. -/
theorem collated_iff (h : EndsAs k s) (c : String) :
    Collated c s (insertCollation s c) ↔ k ≠ .call := by
  rw [collated_insertCollation_iff]
  cases k with
  | group =>
    cases h with
    | group hinner => exact ⟨nofun, fun _ _ => ⟨_, hinner, rfl⟩⟩
  | call =>
    have hlast : s.toList.getLast? = some ')' := by
      cases h with
      | call => exact getLast?_group _ _
    exact ⟨fun hgroup => absurd (hgroup hlast) h.not_isGroup, fun hne => absurd rfl hne⟩
  | plain =>
    cases h with
    | plain hlast => exact ⟨nofun, fun _ hparen => absurd hparen hlast⟩

theorem of_flat (h : Flat s.toList) : EndsAs .plain s :=
  .plain (fun hlast => (h _ (List.mem_of_getLast? hlast)).2.2 rfl) (.flat h)

theorem append_flat {t : String} (hs : Balanced s.toList) (ht : Flat t.toList) (hne : t ≠ "") :
    EndsAs .plain (s ++ t) := by
  refine .plain (fun hlast => ?_) (balanced_append hs (.flat ht))
  rw [String.toList_append, List.getLast?_append] at hlast
  rcases Option.or_eq_some_iff.mp hlast with hend | ⟨hend, -⟩
  · exact (ht _ (List.mem_of_getLast? hend)).2.2 rfl
  · exact hne (String.toList_eq_nil_iff.mp (List.getLast?_eq_none_iff.mp hend))

theorem identifier {t : String} (ht : Balanced t.toList) (name : String) :
    EndsAs .plain (t ++ quoteIdentifier name) := by
  refine .plain (fun hlast => ?_) (balanced_append ht (.identifier name))
  rw [String.toList_append, quoteIdentifier, String.toList_ofList, List.getLast?_append,
    List.getLast?_concat] at hlast
  cases hlast

theorem collate {c : String} (h : EndsAs k s) (hc : Flat c.toList) :
    EndsAs k (insertCollation s c) := by
  have hword : Flat " COLLATE ".toList := by decide
  have hadded : Flat (" COLLATE " ++ c).toList := by
    rw [String.toList_append]
    exact List.forall_mem_append.mpr ⟨hword, hc⟩
  cases h with
  | group hinner =>
    rw [insertCollation_group, String.append_assoc]
    exact .group (balanced_append hinner (.flat hadded))
  | call hfirst hd hhead hinner =>
    rw [insertCollation_paren, String.append_assoc]
    exact .call hfirst hd hhead (balanced_append hinner (.flat hadded))
  | plain hlast hs =>
    rw [insertCollation_plain hlast, String.append_assoc]
    exact append_flat hs hadded (by simp)

theorem before {op : String} (h : EndsAs k s) (hop : Flat op.toList) :
    EndsAs (k.prefixed op) (op ++ s) := by
  unfold Ending.prefixed
  split
  · rename_i hempty
    rwa [hempty, String.empty_append]
  rename_i hne
  obtain ⟨d, ds, hds⟩ := List.exists_cons_of_ne_nil (mt String.toList_eq_nil_iff.mp hne)
  have hfirst : op.toList.head? = some d := by rw [hds]; rfl
  have hd : d ≠ '(' := (hop d (by rw [hds]; exact List.mem_cons_self)).2.1
  cases h with
  | group hinner => exact .call hfirst hd (.flat hop) hinner
  | @call head inner _ _ _ hhead hinner =>
    rw [← String.append_assoc]
    refine .call ?_ hd (balanced_append (.flat hop) hhead) hinner
    rw [String.toList_append, hds]
    rfl
  | plain hlast hs =>
    refine .plain (fun hparen => ?_) (balanced_append (.flat hop) hs)
    rw [String.toList_append, List.getLast?_append] at hparen
    rcases Option.or_eq_some_iff.mp hparen with hend | ⟨-, hend⟩
    · exact hlast hend
    · exact (hop _ (List.mem_of_getLast? hend)).2.2 rfl

end EndsAs

theorem capitals_eq_empty_iff (name : String) : capitals name = "" ↔ name = "" := by
  have hcapital : ∀ c, capitalOf c ≠ [] := by
    have hexpansions : ∀ p ∈ capitalExpansions, p.2 ≠ [] := by decide
    intro c
    unfold capitalOf
    split
    · rename_i codes hcodes
      obtain ⟨before, after, hlist, -⟩ := List.lookup_eq_some_iff.mp hcodes
      have hne := hexpansions (c.toNat, codes) (by rw [hlist]; simp)
      simpa using hne
    · split <;> exact List.cons_ne_nil _ _
  rw [capitals, ← String.toList_eq_nil_iff, String.toList_ofList, List.flatMap_eq_nil_iff,
    ← String.toList_eq_nil_iff]
  constructor
  · intro h
    exact List.eq_nil_iff_forall_not_mem.mpr fun c hc => hcapital c (h c hc)
  · intro h
    simp [h]

end RelQuery.Text
