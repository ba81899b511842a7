import RelQuery.Query.Clauses
import RelQuery.Query.FromClause
import RelQuery.Query.Polarity
import RelQuery.Text.Collation

/-!
# SQL text of queries

Rendering writes a value as a placeholder and binds it, in the order of the text. A comparison
with null is written as a test for null.
-/

set_option autoImplicit false

namespace RelQuery

mutual

def Expr.render (ctx : Context) (p : Polarity) : Expr → Rendering String
  | .literal sql => pure (p.wrap sql)
  | .value v =>
    match v with
    | .null => pure (p.wrap "NULL")
    | v => do
      let placeholder ← Rendering.bindValue v
      pure (p.wrap placeholder)
  | .column qualifier name => do
    let sql ← Rendering.ofOutcome (ctx.columnSql qualifier name)
    pure (p.wrap sql)
  | .collate e collation => do
    let sql ← e.render ctx .plain
    pure (p.wrap (Text.insertCollation sql collation))
  | .not e => e.render ctx p.flip
  | .compare c left right =>
    if right.isNull then do
      let sql ← left.render ctx .plain
      pure ("(" ++ sql ++ " " ++ (p.comparison c).nullTest ++ ")")
    else if left.isNull then do
      let sql ← right.render ctx .plain
      pure ("(" ++ sql ++ " " ++ (p.comparison c).nullTest ++ ")")
    else do
      let l ← left.render ctx .plain
      let r ← right.render ctx .plain
      pure ("(" ++ l ++ " " ++ (p.comparison c).sql ++ " " ++ r ++ ")")
  | .prefixOp op e => do
    let sql ← e.render ctx .plain
    pure (p.wrap (op ++ sql))
  | .infixOp op left right => do
    let l ← left.render ctx .plain
    let r ← right.render ctx .plain
    pure (p.wrap ("(" ++ l ++ " " ++ op ++ " " ++ r ++ ")"))
  | .inList e candidates =>
    if candidates.isEmpty then pure p.emptyMembership
    else do
      let sql ← e.render ctx .plain
      let list ← Expr.renderAll ctx candidates
      pure ("(" ++ sql ++ " " ++ p.membership ++ " (" ++ commaSeparated list ++ "))")
  | .inQuery e q => do
    let sql ← e.render ctx .plain
    let inner ← q.clauses ctx.schema
    pure ("(" ++ sql ++ " " ++ p.membership ++ " (" ++ inner.sql ++ "))")
  | .existsIn q => do
    let inner ← q.clauses ctx.schema
    pure ("(" ++ p.existence ++ " (" ++ inner.sql ++ "))")
  | .between e low high => do
    let sql ← e.render ctx .plain
    let l ← low.render ctx .plain
    let h ← high.render ctx .plain
    pure (p.wrap ("(" ++ sql ++ " BETWEEN " ++ l ++ " AND " ++ h ++ ")"))
  | .function name arguments => do
    let list ← Expr.renderAll ctx arguments
    pure (p.wrap (Text.capitals name ++ "(" ++ commaSeparated list ++ ")"))
  | .countAll => pure (p.wrap "COUNT(*)")
  | .count e => do
    let sql ← e.render ctx .plain
    pure (p.wrap ("COUNT(" ++ sql ++ ")"))
  | .countDistinct e => do
    let sql ← e.render ctx .plain
    pure (p.wrap ("COUNT(DISTINCT " ++ sql ++ ")"))

def Expr.renderAll (ctx : Context) : List Expr → Rendering (List String)
  | [] => pure []
  | e :: es => do
    let sql ← e.render ctx .plain
    let rest ← Expr.renderAll ctx es
    pure (sql :: rest)

def Expr.renderClause (ctx : Context) (keyword : String) : Option Expr → Rendering String
  | none => pure ""
  | some e => do
    let sql ← e.render ctx .plain
    pure (" " ++ keyword ++ " " ++ sql)

def Item.render (ctx : Context) : Item → Rendering String
  | .star id => Rendering.ofOutcome (ctx.starSql id)
  | .expr e aliasName => do
    let sql ← e.render ctx .plain
    match aliasName with
    | some aliasName => pure (sql ++ " AS " ++ ctx.quote aliasName)
    | none => pure sql

def Item.renderAll (ctx : Context) : List Item → Rendering (List String)
  | [] => pure []
  | item :: items => do
    let sql ← item.render ctx
    let rest ← Item.renderAll ctx items
    pure (sql :: rest)

def SortTerm.render (ctx : Context) (reversed : Bool) : SortTerm → Rendering String
  | ⟨e, direction⟩ => do
    let sql ← e.render ctx .plain
    pure (sql ++ (if reversed then direction.reversed else direction).sql)

def SortTerm.renderAll (ctx : Context) (reversed : Bool) :
    List SortTerm → Rendering (List String)
  | [] => pure []
  | term :: terms => do
    let sql ← term.render ctx reversed
    let rest ← SortTerm.renderAll ctx reversed terms
    pure (sql :: rest)

def Source.sql (schema : Schema) : Source → SourceSql
  | .table name _ => .table name
  | .query q _ => .query (Clauses.sql <$> q.clauses schema)

def Source.nodesSql (schema : Schema) : List (Node Source) → List (Node SourceSql)
  | [] => []
  | .leaf source :: nodes => .leaf (source.sql schema) :: Source.nodesSql schema nodes
  | .join j :: nodes => .join j :: Source.nodesSql schema nodes

def Query.clauses (schema : Schema) : Query → Rendering Clauses
  | ⟨selection, distinct, ⟨scope, nodes, root⟩, condition, grouping, having, ordering,
      reversed, limit⟩ =>
    if selection.isEmpty && root.isNone then throw (.refused .emptySelection)
    else do
      let ctx ← Rendering.ofOutcome (Context.of schema ⟨scope, nodes, root⟩)
      let bare ← Rendering.ofOutcome (selectsBareStar selection ⟨scope, nodes, root⟩)
      let items ← (if bare then pure ["*"] else Item.renderAll ctx selection)
      let source ← ctx.fromClause ⟨scope, Source.nodesSql schema nodes, root⟩
      let condition ← Expr.renderClause ctx "WHERE" condition
      let groups ← Expr.renderAll ctx grouping
      let having ← Expr.renderClause ctx "HAVING" having
      let order ←
        (if reversed && ordering.isEmpty then Rendering.ofOutcome ctx.reversedRowId
        else commaSeparated <$> SortTerm.renderAll ctx reversed ordering)
      pure ⟨distinct, items, source, condition, groups, having, order, limit⟩

end

def Query.render (schema : Schema) (q : Query) : Rendering String :=
  Clauses.sql <$> q.clauses schema

end RelQuery
