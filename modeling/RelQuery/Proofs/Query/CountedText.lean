import RelQuery.Proofs.Query.ArenaInvariant
import RelQuery.Proofs.Query.CountedRows

/-!
# Text of count queries

A count query is the text of the query in parentheses after `SELECT COUNT(*) FROM`, or the text of
the query with the count in the place of what it selects. Neither holds the ordering of the query.
-/

set_option autoImplicit false

namespace RelQuery

open Rendering

def Clauses.restSql (c : Clauses) : String :=
  c.sourceSql ++ c.condition ++ c.groupSql ++ c.having ++ c.orderSql ++ c.limitSql

theorem Clauses.sql_eq (c : Clauses) : c.sql =
    "SELECT " ++ (if c.distinct then "DISTINCT " else "") ++ commaSeparated c.items ++
      c.restSql := by
  simp only [Clauses.sql, Clauses.restSql, String.append_assoc]

namespace Query

def rest (schema : Schema) (ctx : Context) (q : Query) : Rendering String := do
  let source ← ctx.fromClause (q.sources.sqls schema)
  let condition ← Expr.renderClause ctx "WHERE" q.condition
  let groups ← Expr.renderAll ctx q.grouping
  let having ← Expr.renderClause ctx "HAVING" q.having
  let order ←
    (if q.reversed && q.ordering.isEmpty then ofOutcome ctx.reversedRowId
    else commaSeparated <$> SortTerm.renderAll ctx q.reversed q.ordering)
  pure (Clauses.restSql ⟨q.distinct, [], source, condition, groups, having, order, q.limit⟩)

variable {schema : Schema} {ctx : Context} {q : Query}

theorem render_eq (hne : (q.selection.isEmpty && q.sources.root.isNone) = false)
    (hctx : Context.of schema q.sources = .ok ctx) {bare : Bool}
    (hbare : selectsBareStar q.selection q.sources = .ok bare) :
    q.render schema = (if bare then pure ["*"] else Item.renderAll ctx q.selection) >>= fun items =>
      (fun text => "SELECT " ++ (if q.distinct then "DISTINCT " else "") ++ commaSeparated items ++
        text) <$> q.rest schema ctx := by
  rw [render, clauses_eq, hne, hctx, hbare]
  show Clauses.sql <$> ((if bare then pure ["*"] else Item.renderAll ctx q.selection) >>= _) = _
  simp only [rest, map_eq_pure_bind, bind_assoc, pure_bind, Clauses.sql_eq, Clauses.restSql,
    Clauses.sourceSql, Clauses.groupSql, Clauses.orderSql, Clauses.limitSql]

end Query

end RelQuery
