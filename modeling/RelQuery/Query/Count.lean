import RelQuery.Query.Build

/-!
# Count queries

The query that counts the rows of another one. A count over the same source is used where it
gives the number of rows; any other query is counted as a subquery.
-/

set_option autoImplicit false

namespace RelQuery.Query

def countWrapped (scope : Nat) (q : Query) : Query :=
  { ofSource scope (.query q.unordered none) with selection := [.expr .countAll none] }

def countBy (q : Query) (e : Expr) : Query :=
  q.unordered.select [.expr e none]

def rootTable? (q : Query) : Option SourceId :=
  match q.sources.root with
  | none => none
  | some root =>
    match q.sources.node root with
    | .ok (.leaf (.table _ _)) => some root
    | _ => none

/-- The query that counts the rows of `q`; `scope` is taken if it needs a source of its own. -/
def countQueryIn (scope : Nat) (q : Query) : Query :=
  if !q.grouping.isEmpty || q.limit.isSome then countWrapped scope q
  else
    match rootTable? q with
    | none => countWrapped scope q
    | some root =>
      match q.selection with
      | [.star id] =>
        if id = root ∧ q.distinct = false then countBy q .countAll else countWrapped scope q
      | [.expr e _] =>
        if q.distinct then
          countBy { q with distinct := false } (.countDistinct e)
        else countBy q .countAll
      | _ => if q.distinct then countWrapped scope q else countBy q .countAll

def countQuery (q : Query) : Query :=
  q.countQueryIn (q.sources.scope + 1)

end RelQuery.Query
