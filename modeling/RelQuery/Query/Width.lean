import RelQuery.Engine.Schema
import RelQuery.Query.Basic

/-!
# Number of columns

How many columns a query selects, found from the schema alone. A subquery has the columns that
it selects itself.
-/

set_option autoImplicit false

namespace RelQuery

def Item.width (sources : Arena (Outcome Nat)) : Item → Outcome Nat
  | .star id => sources.width id
  | .expr _ _ => .ok 1

def Item.totalWidth (sources : Arena (Outcome Nat)) : List Item → Nat → Outcome Nat
  | [], n => .ok n
  | item :: items, n => do
    let width ← item.width sources
    totalWidth sources items (n + width)

mutual

def Source.width (schema : Schema) : Source → Outcome Nat
  | .table name _ => Outcome.ofRefusable (schema.width name)
  | .query q _ => q.width schema

def Source.nodeWidths (schema : Schema) : List (Node Source) → List (Node (Outcome Nat))
  | [] => []
  | .leaf source :: nodes => .leaf (source.width schema) :: Source.nodeWidths schema nodes
  | .join j :: nodes => .join j :: Source.nodeWidths schema nodes

/-- The number of columns of a query; an empty selection stands for all of its root. -/
def Query.width (schema : Schema) : Query → Outcome Nat
  | ⟨selection, _, ⟨scope, nodes, root⟩, _, _, _, _, _, _⟩ =>
    if selection.isEmpty then
      match root with
      | some id => Arena.width ⟨scope, Source.nodeWidths schema nodes, root⟩ id
      | none => .ok 0
    else Item.totalWidth ⟨scope, Source.nodeWidths schema nodes, root⟩ selection 0

end

def Arena.widths (schema : Schema) (a : Arena Source) : Arena (Outcome Nat) :=
  ⟨a.scope, Source.nodeWidths schema a.nodes, a.root⟩

end RelQuery
