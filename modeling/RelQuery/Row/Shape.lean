import RelQuery.Row.Layout

/-!
# Shapes of rows

A shape says how a base row is seen: which of its columns, under which names, and which further
views of it have names of their own. A shape knows no columns; resolved against the columns of a
base row it becomes a view. Every shape inside a shape is resolved against the same columns.
-/

set_option autoImplicit false

namespace RelQuery

inductive Shape
  | identity
  | suffix (start : Nat)
  | span (start stop : Nat)
  /-- Pairs of an exposed name and the name of a base column. -/
  | mapping (pairs : List (String × String))
  | nested (main : Shape) (variants : List (String × Shape))

/-- A shape resolved against the columns of a base row. Variants are in the order of their
names. -/
structure View where
  layout : Layout
  variants : List (String × View)

namespace View

def insertVariant (name : String) (v : View) : List (String × View) → List (String × View)
  | [] => [(name, v)]
  | (n, w) :: rest =>
    if name < n then (name, v) :: (n, w) :: rest
    else if name = n then (n, v) :: rest
    else (n, w) :: insertVariant name v rest

def variant? (v : View) (name : String) : Option View :=
  v.variants.lookup name

def variantNames (v : View) : List String :=
  v.variants.map (·.1)

end View

namespace Shape

def spanLayout (columns : List String) (start stop : Nat) : Except Refusal Layout :=
  if stop < start ∨ columns.length < stop then
    .error (.mismatch (.spanTooLong start stop columns.length))
  else
    .ok ⟨((columns.zipIdx.drop start).take (stop - start)).map fun (name, i) => (i, name)⟩

def mappedColumns (columns : List String) :
    List (String × String) → Except Refusal (List (Nat × String))
  | [] => .ok []
  | (exposed, base) :: pairs =>
    match Text.position columns base with
    | none => .error (.mismatch (.missingMappedColumn base columns))
    | some i => (mappedColumns columns pairs).map ((i, exposed) :: ·)

/-- Mapped columns stand in the order of the base row, pairs of one column as given. -/
def mappingLayout (columns : List String) (pairs : List (String × String)) :
    Except Refusal Layout :=
  (mappedColumns columns pairs).map fun found =>
    ⟨found.mergeSort fun a b => a.1 ≤ b.1⟩

mutual

def resolve (columns : List String) : Shape → Except Refusal View
  | .identity => (spanLayout columns 0 columns.length).map (⟨·, []⟩)
  | .suffix start => (spanLayout columns start columns.length).map (⟨·, []⟩)
  | .span start stop => (spanLayout columns start stop).map (⟨·, []⟩)
  | .mapping pairs => (mappingLayout columns pairs).map (⟨·, []⟩)
  | .nested main variants => do
    let view ← main.resolve columns
    let all ← resolveVariants columns variants view.variants
    pure ⟨view.layout, all⟩

/-- Adds resolved variants to those known, the last of one name standing. -/
def resolveVariants (columns : List String) :
    List (String × Shape) → List (String × View) → Except Refusal (List (String × View))
  | [], known => .ok known
  | (name, shape) :: rest, known => do
    let view ← shape.resolve columns
    resolveVariants columns rest (View.insertVariant name view known)

end

end Shape

end RelQuery
