import RelQuery.Row.Basic

/-!
# Equality of rows

Rows are equal when they show the same columns with the same values in order, have variants of
the same names, and the variants are equal. Columns are read pairwise from the left and no
further than the first difference.
-/

set_option autoImplicit false

namespace RelQuery

namespace Row

def sameEntries (r s : Row) : Nat → Nat → Outcome Bool
  | 0, _ => .ok true
  | n + 1, i => do
    let a ← r.columnName i
    let v ← r.value i
    let b ← s.columnName i
    let w ← s.value i
    if a = b ∧ v = w then sameEntries r s n (i + 1) else pure false

def sameColumns (r s : Row) : Outcome Bool :=
  if r.length = s.length then sameEntries r s r.length 0 else .ok false

end Row

mutual

def View.shows (base : Row) : View → Row → Outcome Bool
  | ⟨layout, variants⟩, s => do
    if ← (Row.adapted base ⟨layout, variants⟩).sameColumns s then
      if variants.map (·.1) = s.variantNames then variantsShow base variants s
      else pure false
    else pure false

def variantsShow (base : Row) : List (String × View) → Row → Outcome Bool
  | [], _ => .ok true
  | (name, view) :: rest, s =>
    match s.variant? name with
    | none => .ok false
    | some t => do
      if ← view.shows base t then variantsShow base rest s else pure false

end

namespace Row

def equals : Row → Row → Outcome Bool
  | .adapted base view, s => view.shows base s
  | r, s => do
    if ← r.sameColumns s then pure (s.variantNames = []) else pure false

/-- Equality of two rows that are possibly one: a row equals itself even where it cannot be
read. -/
def same (identical : Bool) (r s : Row) : Outcome Bool :=
  if identical then .ok true else r.equals s

end Row

end RelQuery
