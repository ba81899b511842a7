import RelQuery.Text.Collation
import RelQuery.Text.Quoted

/-!
# Parentheses in SQL text

The scan of a text keeps two things: whether it is inside an identifier, and how many parentheses
are open. A text whose scan ends where it began can stand inside any other without changing how
that one is scanned, and a separator inside of parentheses or of an identifier separates nothing.
-/

set_option autoImplicit false

namespace RelQuery.Text

structure Place where
  inside : Bool
  depth : Nat
deriving DecidableEq

namespace Place

def start : Place := ⟨false, 0⟩

def next (p : Place) (c : Char) : Option Place :=
  if c = '"' then some ⟨!p.inside, p.depth⟩
  else if p.inside then some p
  else if c = '(' then some ⟨false, p.depth + 1⟩
  else if c = ')' then if p.depth = 0 then none else some ⟨false, p.depth - 1⟩
  else some p

def after (p : Place) : List Char → Option Place
  | [] => some p
  | c :: cs => (p.next c).bind fun q => q.after cs

def deeper (p : Place) : Place := ⟨p.inside, p.depth + 1⟩

theorem after_append (p : Place) (cs ds : List Char) :
    p.after (cs ++ ds) = (p.after cs).bind fun q => q.after ds := by
  induction cs generalizing p with
  | nil => rfl
  | cons c cs ih =>
    rw [List.cons_append, after, after]
    cases p.next c with
    | none => rfl
    | some q => exact ih q

theorem after_append_of {p q : Place} {cs : List Char} (h : p.after cs = some q)
    (ds : List Char) : p.after (cs ++ ds) = q.after ds := by
  rw [after_append, h]
  rfl

theorem next_deeper {p q : Place} {c : Char} (h : p.next c = some q) :
    p.deeper.next c = some q.deeper := by
  obtain ⟨inside, depth⟩ := p
  by_cases hq : c = '"'
  · simp [next, deeper, hq] at h ⊢
    simp [← h]
  cases inside with
  | true =>
    simp [next, deeper, hq] at h ⊢
    simp [← h]
  | false =>
    by_cases ho : c = '('
    · simp [next, deeper, ho] at h ⊢
      simp [← h]
    by_cases hc : c = ')'
    · cases depth with
      | zero => simp [next, hc] at h
      | succ depth =>
        simp [next, deeper, hc] at h ⊢
        simp [← h]
    · simp [next, deeper, hq, ho, hc] at h ⊢
      simp [← h]

theorem after_deeper {p q : Place} {cs : List Char} (h : p.after cs = some q) :
    p.deeper.after cs = some q.deeper := by
  induction cs generalizing p with
  | nil =>
    cases h
    rfl
  | cons c cs ih =>
    obtain ⟨r, hr, h⟩ := Option.bind_eq_some_iff.mp h
    rw [after, next_deeper hr]
    exact ih h

end Place

/-- A text whose scan ends where it began, with every parenthesis closed after it was opened. -/
def Balanced (cs : List Char) : Prop :=
  Place.start.after cs = some .start

instance (cs : List Char) : Decidable (Balanced cs) :=
  inferInstanceAs (Decidable (Place.start.after cs = some .start))

def Flat (cs : List Char) : Prop :=
  ∀ c ∈ cs, c ≠ '"' ∧ c ≠ '(' ∧ c ≠ ')'

instance (cs : List Char) : Decidable (Flat cs) :=
  decidable_of_iff (cs.all (fun c => c != '"' && c != '(' && c != ')') = true)
    (by simp [Flat, and_assoc])

theorem Place.next_flat (p : Place) {c : Char} (h : c ≠ '"' ∧ c ≠ '(' ∧ c ≠ ')') :
    p.next c = some p := by
  rw [next, if_neg h.1, if_neg h.2.1, if_neg h.2.2, ite_self]

theorem Place.after_flat (p : Place) {cs : List Char} (h : Flat cs) : p.after cs = some p := by
  induction cs with
  | nil => rfl
  | cons c cs ih =>
    rw [after, p.next_flat (h c List.mem_cons_self)]
    exact ih fun d hd => h d (List.mem_cons_of_mem c hd)

theorem Place.after_doubleQuotes (depth : Nat) (cs : List Char) :
    (Place.mk true depth).after (doubleQuotes cs) = some ⟨true, depth⟩ := by
  induction cs with
  | nil => rfl
  | cons c cs ih =>
    rw [doubleQuotes]
    by_cases h : c = '"'
    · rw [if_pos h]
      exact ih
    · rw [if_neg h, after, next, if_neg h]
      exact ih

namespace Balanced

variable {cs ds : List Char}

theorem flat (h : Flat cs) : Balanced cs :=
  Place.start.after_flat h

theorem append (hc : Balanced cs) (hd : Balanced ds) : Balanced (cs ++ ds) := by
  rw [Balanced, Place.after_append_of hc]
  exact hd

theorem group (h : Balanced cs) : Balanced ('(' :: (cs ++ [')'])) := by
  have hin : Place.start.deeper.after cs = some Place.start.deeper := Place.after_deeper h
  show Place.start.deeper.after (cs ++ [')']) = _
  rw [Place.after_append_of hin]
  rfl

theorem identifier (name : String) : Balanced (quoteIdentifier name).toList := by
  rw [quoteIdentifier, String.toList_ofList]
  show (Place.mk true 0).after (doubleQuotes name.toList ++ ['"']) = _
  rw [Place.after_append_of (Place.after_doubleQuotes 0 name.toList)]
  rfl

theorem of_paren (h : Balanced (cs ++ [')'])) :
    Place.start.after cs = some Place.start.deeper := by
  rw [Balanced, Place.after_append] at h
  obtain ⟨⟨inside, depth⟩, hp, h⟩ := Option.bind_eq_some_iff.mp h
  rw [hp]
  cases inside with
  | true => cases h
  | false =>
    cases depth with
    | zero => cases h
    | succ depth =>
      cases h
      rfl

theorem collate {s c : String} (hs : Balanced s.toList) (hc : Flat c.toList) :
    Balanced (insertCollation s c).toList := by
  have hword : Flat " COLLATE ".toList := by decide
  rcases insertCollation_cases s c with ⟨t, rfl, hcol⟩ | hcol
  · have hinside : Place.start.after t.toList = some Place.start.deeper := by
      rw [String.toList_append] at hs
      exact hs.of_paren
    rw [hcol]
    simp only [String.toList_append, List.append_assoc]
    rw [Balanced, Place.after_append_of hinside, Place.after_append_of (Place.after_flat _ hword),
      Place.after_append_of (Place.after_flat _ hc)]
    rfl
  · rw [hcol, String.toList_append, String.toList_append]
    exact hs.append ((flat hword).append (flat hc))

end Balanced

def prepend (cs : List Char) : List (List Char) → List (List Char)
  | [] => [cs]
  | piece :: pieces => (cs ++ piece) :: pieces

def glue : List (List Char) → List (List Char) → List (List Char)
  | [], others => others
  | [piece], others => prepend piece others
  | piece :: pieces, others => piece :: glue pieces others

def cutFrom (separator : Char) (p : Place) : List Char → List (List Char)
  | [] => [[]]
  | c :: cs =>
    let pieces := cutFrom separator ((p.next c).getD p) cs
    if c = separator ∧ p = .start then [] :: pieces else prepend [c] pieces

def cut (separator : Char) (cs : List Char) : List (List Char) :=
  cutFrom separator .start cs

theorem prepend_ne_nil (cs : List Char) (pieces : List (List Char)) : prepend cs pieces ≠ [] := by
  cases pieces <;> simp [prepend]

theorem prepend_nil {pieces : List (List Char)} (h : pieces ≠ []) : prepend [] pieces = pieces := by
  cases pieces with
  | nil => exact absurd rfl h
  | cons piece pieces => rfl

theorem glue_prepend (cs : List Char) (pieces others : List (List Char)) :
    glue (prepend cs pieces) others = prepend cs (glue pieces others) := by
  match pieces, others with
  | [], _ => rfl
  | [_], [] => rfl
  | [_], _ :: _ => simp [glue, prepend]
  | _ :: _ :: _, _ => rfl

theorem glue_cons {pieces : List (List Char)} (h : pieces ≠ []) (piece : List Char)
    (others : List (List Char)) : glue (piece :: pieces) others = piece :: glue pieces others := by
  cases pieces with
  | nil => exact absurd rfl h
  | cons _ _ => rfl

theorem glue_nil_cons {pieces : List (List Char)} (h : pieces ≠ []) (others : List (List Char)) :
    glue pieces ([] :: others) = pieces ++ others := by
  induction pieces with
  | nil => exact absurd rfl h
  | cons piece pieces ih =>
    cases pieces with
    | nil => simp [glue, prepend]
    | cons second pieces =>
      rw [glue_cons (by simp), ih (by simp)]
      rfl

theorem mem_glue_singleton {pieces : List (List Char)} {cs w : List Char} (ds : List Char)
    (h : w ∈ glue pieces [cs]) : w ∈ glue pieces [ds] ∨ ∃ u, w = u ++ cs := by
  induction pieces with
  | nil => exact .inr ⟨[], List.mem_singleton.mp h⟩
  | cons piece pieces ih =>
    cases pieces with
    | nil => exact .inr ⟨piece, List.mem_singleton.mp h⟩
    | cons second pieces =>
      rcases List.mem_cons.mp h with rfl | h
      · exact .inl List.mem_cons_self
      · exact (ih h).imp_left fun hm => List.mem_cons_of_mem _ hm

theorem mem_prepend {pieces : List (List Char)} {cs w : List Char} (h : w ∈ prepend cs pieces) :
    w ∈ pieces ∨ ∃ u, w = cs ++ u := by
  cases pieces with
  | nil => exact .inr ⟨[], by simpa [prepend] using h⟩
  | cons piece pieces =>
    rcases List.mem_cons.mp h with rfl | h
    · exact .inr ⟨piece, rfl⟩
    · exact .inl (List.mem_cons_of_mem piece h)

theorem length_le_glue (pieces others : List (List Char)) :
    pieces.length ≤ (glue pieces others).length := by
  induction pieces with
  | nil => exact Nat.zero_le _
  | cons piece pieces ih =>
    cases pieces with
    | nil => cases others <;> simp [glue, prepend]
    | cons second pieces => exact Nat.succ_le_succ ih

theorem cutFrom_ne_nil (separator : Char) (p : Place) (cs : List Char) :
    cutFrom separator p cs ≠ [] := by
  cases cs with
  | nil => simp [cutFrom]
  | cons c cs =>
    rw [cutFrom]
    split
    · simp
    · exact prepend_ne_nil _ _

theorem cutFrom_append (separator : Char) {p q : Place} {cs : List Char}
    (h : p.after cs = some q) (ds : List Char) :
    cutFrom separator p (cs ++ ds) = glue (cutFrom separator p cs) (cutFrom separator q ds) := by
  induction cs generalizing p with
  | nil =>
    cases h
    exact (prepend_nil (cutFrom_ne_nil separator _ ds)).symm
  | cons c cs ih =>
    obtain ⟨r, hr, h⟩ := Option.bind_eq_some_iff.mp h
    rw [List.cons_append, cutFrom, cutFrom, hr, Option.getD_some, ih h]
    split
    · exact (glue_cons (cutFrom_ne_nil _ _ _) _ _).symm
    · exact (glue_prepend _ _ _).symm

theorem intercalate_cutFrom (separator : Char) (p : Place) (cs : List Char) :
    [separator].intercalate (cutFrom separator p cs) = cs := by
  induction cs generalizing p with
  | nil => rfl
  | cons c cs ih =>
    have hc := ih ((p.next c).getD p)
    obtain ⟨piece, pieces, hp⟩ :=
      List.exists_cons_of_ne_nil (cutFrom_ne_nil separator ((p.next c).getD p) cs)
    rw [cutFrom, hp]
    rw [hp] at hc
    split
    · rename_i hs
      rw [List.intercalate_cons_cons, hc, hs.1]
      rfl
    · cases pieces with
      | nil => simpa [prepend] using hc
      | cons second pieces =>
        rw [List.intercalate_cons_cons] at hc
        simp [prepend, List.intercalate_cons_cons, ← hc]

section

variable {separator : Char} {cs ds : List Char}

theorem cutFrom_of_not_mem (p : Place) (h : separator ∉ cs) : cutFrom separator p cs = [cs] := by
  induction cs generalizing p with
  | nil => rfl
  | cons c cs ih =>
    rw [List.mem_cons, not_or] at h
    rw [cutFrom, ih _ h.2, if_neg fun hs => h.1 hs.1.symm]
    rfl

/-- Nothing is cut inside of a parenthesis that stays open. -/
theorem cutFrom_deeper {p q : Place} (h : p.after cs = some q) :
    cutFrom separator p.deeper cs = [cs] := by
  induction cs generalizing p with
  | nil => rfl
  | cons c cs ih =>
    obtain ⟨r, hr, h⟩ := Option.bind_eq_some_iff.mp h
    rw [cutFrom, Place.next_deeper hr, Option.getD_some, ih h, if_neg]
    · rfl
    · rintro ⟨-, hs⟩
      exact Nat.succ_ne_zero _ (congrArg Place.depth hs)

theorem cutFrom_doubleQuotes (hs : separator ≠ '"') (depth : Nat) (cs : List Char) :
    cutFrom separator ⟨true, depth⟩ (doubleQuotes cs) = [doubleQuotes cs] := by
  have hin : ∀ c : Char, ¬ (c = separator ∧ Place.mk true depth = .start) := by
    rintro _ ⟨-, hp⟩
    cases hp
  have hout : ¬ ('"' = separator ∧ Place.mk false depth = .start) := fun hp => hs hp.1.symm
  induction cs with
  | nil => rfl
  | cons c cs ih =>
    rw [doubleQuotes]
    by_cases h : c = '"'
    · have ho : (Place.mk true depth).next '"' = some ⟨false, depth⟩ := rfl
      have hi : (Place.mk false depth).next '"' = some ⟨true, depth⟩ := rfl
      rw [if_pos h, cutFrom, cutFrom, if_neg (hin _), ho, Option.getD_some, if_neg hout, hi,
        Option.getD_some, ih]
      rfl
    · have hn : (Place.mk true depth).next c = some ⟨true, depth⟩ := by
        rw [Place.next, if_neg h]
        rfl
      rw [if_neg h, cutFrom, if_neg (hin _), hn, Option.getD_some, ih]
      rfl

theorem cutFrom_closing (h : Balanced cs) :
    cutFrom separator Place.start.deeper (cs ++ [')']) = [cs ++ [')']] := by
  rw [cutFrom_append separator (Place.after_deeper h), cutFrom_deeper h]
  have hp : Place.start.deeper ≠ .start := by decide
  simp [cutFrom, glue, prepend, hp]

theorem cut_append (h : Balanced cs) (ds : List Char) :
    cut separator (cs ++ ds) = glue (cut separator cs) (cut separator ds) :=
  cutFrom_append separator h ds

theorem cut_ne_nil (separator : Char) (cs : List Char) : cut separator cs ≠ [] :=
  cutFrom_ne_nil separator _ cs

theorem cut_separated (hs : separator ≠ '"' ∧ separator ≠ '(' ∧ separator ≠ ')')
    (h : Balanced cs) (ds : List Char) :
    cut separator (cs ++ separator :: ds) = cut separator cs ++ cut separator ds := by
  have hc : cut separator (separator :: ds) = [] :: cut separator ds := by
    rw [cut, cutFrom, Place.next_flat _ hs, if_pos ⟨rfl, rfl⟩]
    rfl
  rw [cut_append h, hc, glue_nil_cons (cut_ne_nil _ _)]

/-- A text that no separator in it cuts. -/
def Whole (separator : Char) (cs : List Char) : Prop :=
  cut separator cs = [cs]

instance : Decidable (Whole separator cs) :=
  inferInstanceAs (Decidable (cut separator cs = [cs]))

namespace Whole

theorem append (hb : Balanced cs) (hc : Whole separator cs) (hd : Whole separator ds) :
    Whole separator (cs ++ ds) := by
  rw [Whole, cut_append hb, hc, hd]
  rfl

theorem left {p : Place} (hp : Place.start.after cs = some p) (h : Whole separator (cs ++ ds)) :
    Whole separator cs := by
  rw [Whole, cut, cutFrom_append separator hp] at h
  have hlen := length_le_glue (cut separator cs) (cutFrom separator p ds)
  have hjoin := intercalate_cutFrom separator .start cs
  rw [cut, h, List.length_singleton] at hlen
  obtain ⟨piece, pieces, hc⟩ := List.exists_cons_of_ne_nil (cut_ne_nil separator cs)
  rw [cut] at hc
  rw [hc, List.length_cons] at hlen
  have hnil : pieces = [] := List.length_eq_zero_iff.mp (by omega)
  rw [hc, hnil] at hjoin
  rw [Whole, cut, hc, hnil, ← hjoin]
  simp

theorem of_not_mem (h : separator ∉ cs) : Whole separator cs :=
  cutFrom_of_not_mem .start h

theorem group (hs : separator ≠ '(') (h : Balanced cs) :
    Whole separator ('(' :: (cs ++ [')'])) := by
  rw [Whole, cut, cutFrom, if_neg fun hp => hs hp.1.symm]
  show prepend ['('] (cutFrom separator Place.start.deeper (cs ++ [')'])) = _
  rw [cutFrom_closing h]
  rfl

theorem identifier (hs : separator ≠ '"') (name : String) :
    Whole separator (quoteIdentifier name).toList := by
  rw [quoteIdentifier, String.toList_ofList, Whole, cut, List.cons_append, cutFrom,
    if_neg fun hp => hs hp.1.symm]
  show prepend ['"'] (cutFrom separator ⟨true, 0⟩ (doubleQuotes name.toList ++ ['"'])) = _
  rw [cutFrom_append separator (Place.after_doubleQuotes 0 name.toList),
    cutFrom_doubleQuotes hs]
  have hp : Place.mk true 0 ≠ .start := by decide
  simp [cutFrom, glue, prepend, hp]

end Whole

end

end RelQuery.Text
