import RelQuery.Query.Bindings
import RelQuery.Query.Context

/-!
# FROM clauses

A join is written after its base as a LEFT JOIN of its target, with one equality for each pair of
its foreign key.
-/

set_option autoImplicit false

namespace RelQuery

inductive SourceSql
  | table (name : String)
  | query (sql : Rendering String)

namespace Context

/-- Refuses the first column that a table does not have; other sources are not checked. -/
def checkKeyColumns (ctx : Context) (j : Join) (id : SourceId) (columns : List String) :
    Outcome Unit := do
  match ← ctx.sources.node id with
  | .leaf (.table table _) => do
    let known ← Outcome.ofRefusable (ctx.schema.columns table)
    match columns.find? fun column => (Text.position known column).isNone with
    | some column => .error (.refused (.mismatch (.missingKeyColumn j.variant table column)))
    | none => pure ()
  | _ => pure ()

def checkForeignKey (ctx : Context) (j : Join) : Outcome Unit := do
  if j.foreignKey.isEmpty then .error (.refused (.mismatch (.emptyForeignKey j.variant)))
  else
    ctx.checkKeyColumns j j.origin (j.foreignKey.map (·.1))
    ctx.checkKeyColumns j j.target (j.foreignKey.map (·.2))

def keySql (ctx : Context) (target origin : String) (pair : String × String) : String :=
  ctx.quote target ++ "." ++ ctx.quote pair.2 ++ " = " ++
    ctx.quote origin ++ "." ++ ctx.quote pair.1

def joinCondition (ctx : Context) (j : Join) : Outcome String := do
  let target ← ctx.sourceName j.target
  let origin ← ctx.sourceName j.origin
  pure (String.intercalate " AND " (j.foreignKey.map (ctx.keySql target origin)))

/-- A leaf of the FROM clause. A table is given its name after it when they differ. -/
def leafSql (ctx : Context) (id : SourceId) : SourceSql → Rendering String
  | .table table => do
    let name ← Rendering.ofOutcome (ctx.sourceName id)
    pure (if name = table then ctx.quote table else ctx.quote table ++ " " ++ ctx.quote name)
  | .query render => do
    let sql ← render
    match ctx.names[id.index]? with
    | some (some name) => pure ("(" ++ sql ++ ") AS " ++ ctx.quote name)
    | _ => pure ("(" ++ sql ++ ")")

def fromWithin (ctx : Context) (leaves : Arena SourceSql) : Nat → SourceId → Rendering String
  | 0, _ => throw .endless
  | depth + 1, id => do
    match ← Rendering.ofOutcome (leaves.node id) with
    | .leaf leaf => ctx.leafSql id leaf
    | .join j => do
      Rendering.ofOutcome (ctx.checkForeignKey j)
      let base ← ctx.fromWithin leaves depth j.base
      let target ← ctx.fromWithin leaves depth j.target
      let condition ← Rendering.ofOutcome (ctx.joinCondition j)
      pure (base ++ " LEFT JOIN " ++ target ++ " ON " ++ condition)

/-- The FROM clause under an id. The key of a join is checked before its operands are written. -/
def fromSql (ctx : Context) (leaves : Arena SourceSql) (id : SourceId) : Rendering String :=
  ctx.fromWithin leaves leaves.depth id

def fromClause (ctx : Context) (leaves : Arena SourceSql) : Rendering (Option String) :=
  match leaves.root with
  | some id => some <$> ctx.fromSql leaves id
  | none => pure none

end Context

end RelQuery
