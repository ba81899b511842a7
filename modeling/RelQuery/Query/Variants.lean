import RelQuery.Query.Build
import RelQuery.Query.Width
import RelQuery.Row.Shape

/-!
# Variants of fetched rows

A row of a query with associations shows the columns of each as a variant, nested as the
associations are. An association is shown only where its columns were selected for it and still
are.
-/

set_option autoImplicit false

namespace RelQuery.Query

def offsetsFrom (sources : Arena (Outcome Nat)) : List Item → Nat → Outcome (List Nat)
  | [], _ => .ok []
  | item :: items, start => do
    let width ← item.width sources
    let rest ← offsetsFrom sources items (start + width)
    pure (start :: rest)

/-- Whether the item that a join selected is still the star of its target. -/
def stillSelects (q : Query) (j : Join) : Bool :=
  match q.selection[j.selectionIndex]? with
  | some (.star id) => id == j.target
  | _ => false

def variantsOfJoins (sources : Arena (Outcome Nat)) (offsets : List Nat)
    (inner : SourceId → Outcome (List (String × Shape))) :
    List Join → Outcome (List (String × Shape))
  | [] => .ok []
  | j :: js => do
    let start ← Outcome.element offsets j.selectionIndex
    let width ← sources.width j.target
    let nested ← inner j.target
    let rest ← variantsOfJoins sources offsets inner js
    pure ((j.variant, .nested (.span start (start + width)) nested) :: rest)

/-- The variants of the joins that start from a source, in the order they were attached. -/
def variantsOf (q : Query) (sources : Arena (Outcome Nat)) (offsets : List Nat) :
    Nat → SourceId → Outcome (List (String × Shape))
  | 0, _ => .error .endless
  | depth + 1, origin =>
    variantsOfJoins sources offsets (variantsOf q sources offsets depth)
      (q.sources.joins.filter fun j => decide (j.origin = origin) && q.stillSelects j)

def shape? (schema : Schema) (q : Query) : Outcome (Option Shape) :=
  match q.source? with
  | none => .ok none
  | some first =>
    if q.sources.hasJoins then do
      let sources := q.sources.widths schema
      let offsets ← offsetsFrom sources q.selection 0
      let variants ← variantsOf q sources offsets q.sources.depth first
      pure (some (.nested .identity variants))
    else .ok none

end RelQuery.Query
