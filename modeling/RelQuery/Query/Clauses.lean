import RelQuery.Query.Basic

/-!
# Clauses of a SELECT
-/

set_option autoImplicit false

namespace RelQuery

def commaSeparated (parts : List String) : String :=
  String.intercalate ", " parts

/-- The clauses of one SELECT as text. A condition has its keyword already. -/
structure Clauses where
  distinct : Bool
  items : List String
  source : Option String
  condition : String
  groups : List String
  having : String
  order : String
  limit : Option Limit

namespace Clauses

def sourceSql (c : Clauses) : String :=
  match c.source with
  | some sql => " FROM " ++ sql
  | none => ""

def groupSql (c : Clauses) : String :=
  if c.groups.isEmpty then "" else " GROUP BY " ++ commaSeparated c.groups

/-- An order without text is no clause. -/
def orderSql (c : Clauses) : String :=
  if c.order = "" then "" else " ORDER BY " ++ c.order

def limitSql (c : Clauses) : String :=
  match c.limit with
  | some l => " LIMIT " ++ l.sql
  | none => ""

def sql (c : Clauses) : String :=
  "SELECT " ++ (if c.distinct then "DISTINCT " else "") ++ commaSeparated c.items ++
    c.sourceSql ++ c.condition ++ c.groupSql ++ c.having ++ c.orderSql ++ c.limitSql

end Clauses

end RelQuery
