import RelQuery.Query.Association

/-!
# Building queries

Each operation gives a new query. One that starts a query takes the scope of its ids, which no
other query may have.
-/

set_option autoImplicit false

namespace RelQuery

namespace Query

def ofSources (sources : Arena Source) (selection : List Item) : Query where
  selection := selection
  distinct := false
  sources := sources
  condition := none
  grouping := []
  having := none
  ordering := []
  reversed := false
  limit := none

def new (scope : Nat) : Query :=
  ofSources (.empty scope) []

def ofSource (scope : Nat) (source : Source) : Query :=
  let sources := Arena.withRoot scope (.leaf source)
  ofSources sources (sources.root.toList.map .star)

def table (scope : Nat) (name : String) : Query :=
  ofSource scope (.table name none)

def ofQuery (scope : Nat) (q : Query) (aliasName : Option String) : Query :=
  ofSource scope (.query q aliasName)

/-- The first source, which joins are attached to. -/
def source? (q : Query) : Option SourceId :=
  q.sources.root.bind fun root => (q.sources.leftmost root).toOption

def setAlias (aliasName : String) : Node Source → Node Source
  | .leaf source => .leaf (source.withAlias aliasName)
  | .join j => .join j

def aliased (q : Query) (aliasName : String) : Query :=
  match q.source? with
  | some id =>
    { q with sources :=
        { q.sources with nodes := q.sources.nodes.modify id.index (setAlias aliasName) } }
  | none => q

def select (q : Query) (selection : List Item) : Query :=
  { q with selection := selection }

def distinctRows (q : Query) : Query :=
  { q with distinct := true }

def conjoin (existing : Option Expr) (e : Expr) : Expr :=
  match existing with
  | some d => d.and e
  | none => e

def filter (q : Query) (e : Expr) : Query :=
  { q with condition := some (conjoin q.condition e) }

def group (q : Query) (grouping : List Expr) : Query :=
  { q with grouping := grouping }

def filterGroups (q : Query) (e : Expr) : Query :=
  { q with having := some (conjoin q.having e) }

def order (q : Query) (ordering : List SortTerm) : Query :=
  { q with ordering := ordering }

def reverse (q : Query) : Query :=
  { q with reversed := !q.reversed }

def limitTo (q : Query) (count : Nat) (offset : Option Nat) : Query :=
  { q with limit := some ⟨count, offset⟩ }

def unordered (q : Query) : Query :=
  { q with ordering := [], reversed := false }

end Query

namespace Association

mutual

/-- Joins the table of an association to the query, selects its columns last, and attaches the
associations inside it to the new source. -/
def attach : Association → SourceId → Query → Query
  | ⟨name, kind, table, aliasName, foreignKey, includes⟩, origin, q =>
    match q.sources.root with
    | none => q
    | some base =>
      let (target, sources) := q.sources.push (.leaf (.table table aliasName))
      let (root, sources) := sources.push
        (.join ⟨base, origin, target, foreignKey, kind, name, q.selection.length⟩)
      attachAll includes target
        { q with selection := q.selection ++ [.star target], sources := sources.setRoot root }

def attachAll : List Association → SourceId → Query → Query
  | [], _, q => q
  | a :: as, origin, q => attachAll as origin (a.attach origin q)

end

end Association

namespace Query

/-- Joins an association to the first source. A query without sources stays as it is. -/
def including (q : Query) (a : Association) : Query :=
  match q.source? with
  | some origin => a.attach origin q
  | none => q

end Query

end RelQuery
