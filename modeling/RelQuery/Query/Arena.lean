import RelQuery.Failure
import RelQuery.Text.Case

/-!
# Sources of a query

The sources of a query are nodes of an arena. A join names its operands by ids, so attaching one
adds nodes and moves the root, and no node changes. An id holds the scope of its arena, which
copies of the arena share, and the index of its node.
-/

set_option autoImplicit false

namespace RelQuery

structure SourceId where
  scope : Nat
  index : Nat
deriving DecidableEq

inductive AssociationKind
  | belongsTo
  | hasOne
deriving DecidableEq

/-- A left join of `target` onto `base`. The foreign key pairs a column of `origin`, a source
inside `base`, with a column of `target`. The columns of the target are shown under the variant
name; they were selected by the item at `selectionIndex`. -/
structure Join where
  base : SourceId
  origin : SourceId
  target : SourceId
  foreignKey : List (String × String)
  kind : AssociationKind
  variant : String
  selectionIndex : Nat

inductive Node (α : Type)
  | leaf (source : α)
  | join (j : Join)

structure Arena (α : Type) where
  scope : Nat
  nodes : List (Node α)
  root : Option SourceId

namespace Arena

variable {α : Type}

def empty (scope : Nat) : Arena α :=
  ⟨scope, [], none⟩

def push (a : Arena α) (node : Node α) : SourceId × Arena α :=
  (⟨a.scope, a.nodes.length⟩, { a with nodes := a.nodes ++ [node] })

def setRoot (a : Arena α) (id : SourceId) : Arena α :=
  { a with root := some id }

def withRoot (scope : Nat) (node : Node α) : Arena α :=
  let (id, a) := (empty scope).push node
  a.setRoot id

/-- Whether an id was given out by this arena, or by a copy that is no longer. -/
def contains (a : Arena α) (id : SourceId) : Bool :=
  id.scope == a.scope && decide (id.index < a.nodes.length)

/-- The node at the index of an id, whatever its scope. -/
def node (a : Arena α) (id : SourceId) : Outcome (Node α) :=
  Outcome.element a.nodes id.index

def joins (a : Arena α) : List Join :=
  a.nodes.filterMap fun
    | .join j => some j
    | .leaf _ => none

def hasJoins (a : Arena α) : Bool :=
  !a.joins.isEmpty

def leftmostWithin (a : Arena α) : Nat → SourceId → Outcome SourceId
  | 0, _ => .error .endless
  | depth + 1, id => do
    match ← a.node id with
    | .join j => a.leftmostWithin depth j.base
    | .leaf _ => pure id

/-- No chain of joins in an arena is longer than the arena, unless it goes round. -/
def depth (a : Arena α) : Nat :=
  a.nodes.length + 1

def leftmost (a : Arena α) (id : SourceId) : Outcome SourceId :=
  a.leftmostWithin a.depth id

/-- Adds the leaves under an id to those seen, from left to right and each once. -/
def visitWithin (a : Arena α) : Nat → SourceId → List SourceId → Outcome (List SourceId)
  | 0, _, _ => .error .endless
  | depth + 1, id, seen => do
    match ← a.node id with
    | .join j => do
      let seen ← a.visitWithin depth j.base seen
      let seen ← a.visitWithin depth j.origin seen
      a.visitWithin depth j.target seen
    | .leaf _ => pure (if id ∈ seen then seen else seen ++ [id])

def reachable (a : Arena α) : Outcome (List SourceId) :=
  match a.root with
  | some root => a.visitWithin a.depth root []
  | none => .ok []

def widthWithin (a : Arena (Outcome Nat)) : Nat → SourceId → Outcome Nat
  | 0, _ => .error .endless
  | depth + 1, id => do
    match ← a.node id with
    | .join j => do
      let base ← a.widthWithin depth j.base
      let target ← a.widthWithin depth j.target
      pure (base + target)
    | .leaf width => width

def width (a : Arena (Outcome Nat)) (id : SourceId) : Outcome Nat :=
  a.widthWithin a.depth id

end Arena

end RelQuery
