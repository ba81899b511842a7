import RelQuery.Text.Capitals

/-!
# Letter case in names

Names are compared without regard to ASCII case; only function names are capitalised by the
full Unicode rule.
-/

set_option autoImplicit false

namespace RelQuery.Text

/-- The text with its ASCII capitals lowered; every other character stands. -/
def foldCase (s : String) : String :=
  String.ofList (s.toList.map Char.toLower)

def sameLetters : List Char → List Char → Bool
  | [], [] => true
  | c :: cs, d :: ds => c.toLower == d.toLower && sameLetters cs ds
  | _, _ => false

def sameName (s t : String) : Bool :=
  sameLetters s.toList t.toList

theorem sameLetters_iff (cs ds : List Char) :
    sameLetters cs ds = true ↔ cs.map Char.toLower = ds.map Char.toLower := by
  induction cs generalizing ds with
  | nil => cases ds <;> simp [sameLetters]
  | cons c cs ih => cases ds <;> simp [sameLetters, ih]

theorem sameName_iff (s t : String) : sameName s t = true ↔ foldCase s = foldCase t := by
  simp [sameName, foldCase, sameLetters_iff, String.ofList_inj]

def position (names : List String) (name : String) : Option Nat :=
  names.findIdx? (sameName · name)

def asciiCapitals (s : String) : List Char :=
  s.toList.map Char.toUpper

def capitalOf (c : Char) : List Char :=
  match capitalExpansions.lookup c.toNat with
  | some codes => codes.map Char.ofNat
  | none =>
    match capitalRuns.find? (·.covers c.toNat) with
    | some run => [Char.ofNat (c.toNat + run.shift).toNat]
    | none => [c]

/-- The text in capitals by the full Unicode rule, which can lengthen it. -/
def capitals (s : String) : String :=
  String.ofList (s.toList.flatMap capitalOf)

end RelQuery.Text
