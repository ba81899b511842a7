/-!
# Searching and cutting text
-/

set_option autoImplicit false

namespace RelQuery.Text

def startsWith : List Char → List Char → Bool
  | [], _ => true
  | _ :: _, [] => false
  | c :: cs, d :: ds => c == d && startsWith cs ds

def occurs (sought : List Char) : List Char → Bool
  | [] => sought.isEmpty
  | c :: cs => startsWith sought (c :: cs) || occurs sought cs

def before? (sought : List Char) : List Char → Option (List Char)
  | [] => if sought.isEmpty then some [] else none
  | c :: cs =>
    if startsWith sought (c :: cs) then some [] else (before? sought cs).map (c :: ·)

def separate {α : Type} [DecidableEq α] (separator : α) : List α → List (List α)
  | [] => [[]]
  | c :: cs =>
    if c = separator then [] :: separate separator cs
    else
      match separate separator cs with
      | piece :: pieces => (c :: piece) :: pieces
      | [] => [[c]]

theorem startsWith_iff (cs ds : List Char) : startsWith cs ds = true ↔ ∃ r, ds = cs ++ r := by
  induction cs generalizing ds with
  | nil => simp [startsWith]
  | cons c cs ih =>
    cases ds with
    | nil => simp [startsWith]
    | cons d ds =>
      simp only [startsWith, Bool.and_eq_true, beq_iff_eq, ih, List.cons_append,
        List.cons.injEq, exists_and_left]
      constructor <;> (rintro ⟨rfl, r, rfl⟩; exact ⟨rfl, r, rfl⟩)

theorem occurs_iff (sought cs : List Char) :
    occurs sought cs = true ↔ ∃ pre post, cs = pre ++ (sought ++ post) := by
  induction cs with
  | nil =>
    rw [occurs, List.isEmpty_iff]
    constructor
    · rintro rfl
      exact ⟨[], [], rfl⟩
    · rintro ⟨pre, post, h⟩
      exact (List.append_eq_nil_iff.mp (List.append_eq_nil_iff.mp h.symm).2).1
  | cons c cs ih =>
    rw [occurs, Bool.or_eq_true, startsWith_iff, ih]
    constructor
    · rintro (⟨post, h⟩ | ⟨pre, post, rfl⟩)
      · exact ⟨[], post, h⟩
      · exact ⟨c :: pre, post, rfl⟩
    · rintro ⟨_ | ⟨d, pre⟩, post, h⟩
      · exact .inl ⟨post, h⟩
      · cases h
        exact .inr ⟨pre, post, rfl⟩

theorem before?_isSome (sought cs : List Char) : (before? sought cs).isSome = occurs sought cs := by
  induction cs with
  | nil => by_cases h : sought.isEmpty <;> simp [before?, occurs, h]
  | cons c cs ih =>
    by_cases h : startsWith sought (c :: cs) <;> simp [before?, occurs, h, ih]

end RelQuery.Text
