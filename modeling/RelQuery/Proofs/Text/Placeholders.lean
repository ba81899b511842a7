import RelQuery.Text.Collation
import RelQuery.Text.Quoted

/-!
# Placeholders in SQL text

SQL text is scanned from the left. A double quote opens or closes an identifier; a doubled one
inside an identifier does both, with nothing in between. A question mark outside identifiers is a
placeholder.
-/

set_option autoImplicit false

namespace RelQuery.Text

def endsInside : Bool → List Char → Bool
  | inside, [] => inside
  | inside, c :: cs => endsInside (if c = '"' then !inside else inside) cs

def countPlaceholders : Bool → List Char → Nat
  | _, [] => 0
  | inside, c :: cs =>
    if c = '"' then countPlaceholders (!inside) cs
    else if c = '?' ∧ inside = false then countPlaceholders inside cs + 1
    else countPlaceholders inside cs

def fillFrom : Bool → List Char → List (List Char) → List Char
  | _, [], _ => []
  | inside, c :: cs, ws =>
    if c = '"' then c :: fillFrom (!inside) cs ws
    else if c = '?' ∧ inside = false then ws.headD [c] ++ fillFrom inside cs ws.tail
    else c :: fillFrom inside cs ws

/-- The number of question marks outside double-quoted identifiers. -/
def placeholders (sql : String) : Nat :=
  countPlaceholders false sql.toList

/-- The text with the i-th replacement in the place of the i-th placeholder. -/
def fill (sql : String) (ws : List String) : String :=
  String.ofList (fillFrom false sql.toList (ws.map String.toList))

theorem endsInside_append (inside : Bool) (cs ds : List Char) :
    endsInside inside (cs ++ ds) = endsInside (endsInside inside cs) ds := by
  induction cs generalizing inside with
  | nil => rfl
  | cons c cs ih => exact ih _

theorem endsInside_of_unquoted {cs : List Char} (hq : ∀ c ∈ cs, c ≠ '"') (inside : Bool) :
    endsInside inside cs = inside := by
  induction cs with
  | nil => rfl
  | cons c cs ih =>
    rw [endsInside, if_neg (hq c List.mem_cons_self)]
    exact ih fun d hd => hq d (List.mem_cons_of_mem c hd)

theorem countPlaceholders_append (inside : Bool) (cs ds : List Char) :
    countPlaceholders inside (cs ++ ds) =
      countPlaceholders inside cs + countPlaceholders (endsInside inside cs) ds := by
  induction cs generalizing inside with
  | nil => simp [countPlaceholders, endsInside]
  | cons c cs ih =>
    rw [List.cons_append, countPlaceholders, countPlaceholders, endsInside, ih, ih]
    split
    · rfl
    · split <;> omega

/-- Two texts are filled apart when the first has a replacement for each placeholder. -/
theorem fillFrom_append (inside : Bool) (cs ds : List Char) (ws us : List (List Char))
    (h : countPlaceholders inside cs = ws.length) :
    fillFrom inside (cs ++ ds) (ws ++ us) =
      fillFrom inside cs ws ++ fillFrom (endsInside inside cs) ds us := by
  induction cs generalizing inside ws with
  | nil =>
    have hn : ws = [] := List.length_eq_zero_iff.mp h.symm
    subst hn
    rfl
  | cons c cs ih =>
    rw [countPlaceholders] at h
    rw [List.cons_append, fillFrom, fillFrom, endsInside]
    by_cases hq : c = '"'
    · simp only [hq, if_true] at h ⊢
      rw [ih _ _ h, List.cons_append]
    · by_cases hp : c = '?' ∧ inside = false
      · rw [if_neg hq, if_pos hp] at h
        cases ws with
        | nil => cases h
        | cons w ws =>
          rw [if_neg hq, if_neg hq, if_pos hp, if_pos hp, if_neg hq, List.cons_append]
          show w ++ fillFrom inside (cs ++ ds) (ws ++ us) = _
          rw [ih _ _ (Nat.succ.inj h), List.append_assoc]
          rfl
      · rw [if_neg hq, if_neg hp] at h
        rw [if_neg hq, if_neg hq, if_neg hp, if_neg hp, if_neg hq, ih _ _ h, List.cons_append]

def Bare (cs : List Char) : Prop :=
  ∀ c ∈ cs, c ≠ '?' ∧ c ≠ '"'

instance (cs : List Char) : Decidable (Bare cs) :=
  decidable_of_iff (cs.all (fun c => c != '?' && c != '"') = true) (by simp [Bare])

section

variable {cs : List Char} (hc : Bare cs)

include hc

theorem endsInside_bare (inside : Bool) : endsInside inside cs = inside :=
  endsInside_of_unquoted (fun c hmem => (hc c hmem).2) inside

theorem countPlaceholders_bare (inside : Bool) : countPlaceholders inside cs = 0 := by
  induction cs with
  | nil => rfl
  | cons c cs ih =>
    obtain ⟨hp, hq⟩ := hc c List.mem_cons_self
    rw [countPlaceholders, if_neg hq, if_neg fun h => hp h.1]
    exact ih fun d hd => hc d (List.mem_cons_of_mem c hd)

theorem fillFrom_bare (inside : Bool) (ws : List (List Char)) : fillFrom inside cs ws = cs := by
  induction cs with
  | nil => rfl
  | cons c cs ih =>
    obtain ⟨hp, hq⟩ := hc c List.mem_cons_self
    rw [fillFrom, if_neg hq, if_neg fun h => hp h.1, ih]
    exact fun d hd => hc d (List.mem_cons_of_mem c hd)

end

theorem endsInside_doubleQuotes (cs : List Char) : endsInside true (doubleQuotes cs) = true := by
  induction cs with
  | nil => rfl
  | cons c cs ih =>
    rw [doubleQuotes]
    by_cases h : c = '"'
    · rw [if_pos h, endsInside, endsInside]
      exact ih
    · rw [if_neg h, endsInside, if_neg h]
      exact ih

theorem countPlaceholders_doubleQuotes (cs : List Char) :
    countPlaceholders true (doubleQuotes cs) = 0 := by
  induction cs with
  | nil => rfl
  | cons c cs ih =>
    rw [doubleQuotes]
    by_cases h : c = '"'
    · rw [if_pos h, countPlaceholders, countPlaceholders]
      exact ih
    · rw [if_neg h, countPlaceholders, if_neg h, if_neg fun hp => Bool.noConfusion hp.2]
      exact ih

theorem fillFrom_doubleQuotes (cs : List Char) (ws : List (List Char)) :
    fillFrom true (doubleQuotes cs) ws = doubleQuotes cs := by
  induction cs with
  | nil => rfl
  | cons c cs ih =>
    rw [doubleQuotes]
    by_cases h : c = '"'
    · rw [if_pos h, fillFrom, fillFrom]
      exact congrArg ('"' :: '"' :: ·) ih
    · rw [if_neg h, fillFrom, if_neg h, if_neg fun hp => Bool.noConfusion hp.2, ih]

/-- A text that ends outside identifiers, with one replacement for each placeholder and the text
that they give. -/
structure Fills (cs : List Char) (ws : List (List Char)) (cs' : List Char) : Prop where
  closed : endsInside false cs = false
  count : countPlaceholders false cs = ws.length
  filled : fillFrom false cs ws = cs'

namespace Fills

variable {cs cs' ds ds' : List Char} {ws us : List (List Char)}

theorem bare (hc : Bare cs) : Fills cs [] cs :=
  ⟨endsInside_bare hc false, countPlaceholders_bare hc false, fillFrom_bare hc false []⟩

theorem placeholder (w : List Char) : Fills ['?'] [w] w :=
  ⟨rfl, rfl, List.append_nil w⟩

theorem append (h : Fills cs ws cs') (h' : Fills ds us ds') :
    Fills (cs ++ ds) (ws ++ us) (cs' ++ ds') := by
  refine ⟨?_, ?_, ?_⟩
  · rw [endsInside_append, h.closed, h'.closed]
  · rw [countPlaceholders_append, h.closed, h.count, h'.count, List.length_append]
  · rw [fillFrom_append false cs ds ws us h.count, h.closed, h.filled, h'.filled]

theorem identifier (name : String) :
    Fills (quoteIdentifier name).toList [] (quoteIdentifier name).toList := by
  have ho : endsInside true (doubleQuotes name.toList) = true := endsInside_doubleQuotes _
  rw [quoteIdentifier, String.toList_ofList]
  refine ⟨?_, ?_, ?_⟩
  · show endsInside true (doubleQuotes name.toList ++ ['"']) = false
    rw [endsInside_append, ho]
    rfl
  · show countPlaceholders true (doubleQuotes name.toList ++ ['"']) = 0
    rw [countPlaceholders_append, ho, countPlaceholders_doubleQuotes]
    rfl
  · show '"' :: fillFrom true (doubleQuotes name.toList ++ ['"']) ([] ++ []) = _
    rw [fillFrom_append _ _ _ _ _ (countPlaceholders_doubleQuotes _), ho, fillFrom_doubleQuotes]
    rfl

theorem of_paren (h : Fills (cs ++ [')']) ws cs') : ∃ ds, cs' = ds ++ [')'] ∧ Fills cs ws ds := by
  obtain ⟨hclosed, hcount, hfilled⟩ := h
  have hc : endsInside false cs = false := by
    rwa [endsInside_append] at hclosed
  have hn : countPlaceholders false cs = ws.length := by
    rwa [countPlaceholders_append] at hcount
  refine ⟨fillFrom false cs ws, ?_, hc, hn, rfl⟩
  have hf := fillFrom_append false cs [')'] ws [] hn
  rw [List.append_nil, hfilled, hc] at hf
  exact hf

theorem getLast_of_filled (h : Fills cs ws cs')
    (hw : ∀ w ∈ ws, w ≠ [] ∧ w.getLast? ≠ some ')') (hl : cs'.getLast? = some ')') :
    cs.getLast? = some ')' := by
  obtain ⟨hclosed, hcount, rfl⟩ := h
  rcases List.eq_nil_or_concat cs with rfl | ⟨ds, c, rfl⟩
  · cases hl
  rw [List.concat_eq_append] at hclosed hcount hl ⊢
  rw [endsInside_append] at hclosed
  rw [countPlaceholders_append] at hcount
  by_cases hq : c = '"'
  · subst hq
    have hn : countPlaceholders false ds = ws.length := hcount
    have hf := fillFrom_append false ds ['"'] ws [] hn
    rw [List.append_nil] at hf
    have he : fillFrom (endsInside false ds) ['"'] [] = ['"'] := rfl
    rw [hf, he, List.getLast?_concat] at hl
    cases hl
  have hin : endsInside false ds = false := by
    rwa [endsInside, endsInside, if_neg hq] at hclosed
  rw [hin] at hcount
  by_cases hp : c = '?'
  · subst hp
    have hn : countPlaceholders false ds + 1 = ws.length := hcount
    rcases List.eq_nil_or_concat ws with rfl | ⟨us, w, rfl⟩
    · cases hn
    rw [List.concat_eq_append] at hn hl hw
    have hus : countPlaceholders false ds = us.length := by
      rw [List.length_append] at hn
      exact Nat.succ.inj hn
    have he : fillFrom false ['?'] [w] = w := List.append_nil w
    obtain ⟨hne, hlast⟩ := hw w (by simp)
    rw [fillFrom_append false ds ['?'] us [w] hus, hin, he, List.getLast?_append,
      List.getLast?_eq_some_getLast hne, Option.some_or] at hl
    rw [List.getLast?_eq_some_getLast hne] at hlast
    exact absurd hl hlast
  · have hn : countPlaceholders false ds = ws.length := by
      rwa [countPlaceholders, countPlaceholders, if_neg hq, if_neg fun h => hp h.1] at hcount
    have hf := fillFrom_append false ds [c] ws [] hn
    have he : fillFrom false [c] [] = [c] := by
      rw [fillFrom, if_neg hq, if_neg fun h => hp h.1]
      rfl
    rw [List.append_nil, hin, he] at hf
    rw [hf, List.getLast?_concat] at hl
    rw [List.getLast?_concat, hl]

theorem eq_nil_iff (h : Fills cs ws cs') (hw : ∀ w ∈ ws, w ≠ []) : cs = [] ↔ cs' = [] := by
  obtain ⟨-, hcount, rfl⟩ := h
  cases cs with
  | nil => simp [fillFrom]
  | cons c cs =>
    rw [fillFrom]
    rw [countPlaceholders] at hcount
    split
    · simp
    · rename_i hq
      split
      · rename_i hp
        rw [if_neg hq, if_pos hp] at hcount
        cases ws with
        | nil => cases hcount
        | cons w ws => simp [hw w List.mem_cons_self]
      · simp

theorem collate {s s' c : String} (h : Fills s.toList ws s'.toList)
    (hw : ∀ w ∈ ws, w ≠ [] ∧ w.getLast? ≠ some ')')
    (hc : Bare c.toList) :
    Fills (insertCollation s c).toList ws (insertCollation s' c).toList := by
  have hword : Fills " COLLATE ".toList [] " COLLATE ".toList := bare (by decide)
  have hadd : ∀ {cs cs' : List Char}, Fills cs ws cs' →
      Fills (cs ++ " COLLATE ".toList ++ c.toList) ws (cs' ++ " COLLATE ".toList ++ c.toList) := by
    intro cs cs' hcs
    have hcol := (hcs.append hword).append (bare hc)
    rwa [List.append_nil, List.append_nil] at hcol
  unfold insertCollation
  by_cases hl : s.toList.getLast? = some ')'
  · obtain ⟨ds, hds⟩ : ∃ ds, s.toList = ds ++ [')'] := List.getLast?_eq_some_iff.mp hl
    rw [hds] at h
    obtain ⟨ds', hds', hin⟩ := h.of_paren
    have hclose : Fills [')'] [] [')'] := bare (by decide)
    have hall := (hadd hin).append hclose
    rw [List.append_nil] at hall
    rw [if_pos hl, if_pos (by rw [hds', List.getLast?_concat]), hds, hds']
    simpa [String.toList_append] using hall
  · rw [if_neg hl, if_neg fun hl' => hl (h.getLast_of_filled hw hl')]
    simpa [String.toList_append] using hadd h

end Fills

end RelQuery.Text
