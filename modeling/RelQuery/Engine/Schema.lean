import RelQuery.Failure

/-!
# Schemas

What the rendering of a query asks of a database: the columns of a table, whether its rows have
a row id, and how an identifier is quoted.
-/

set_option autoImplicit false

namespace RelQuery

structure Schema where
  columns : String → Except Refusal (List String)
  hasRowId : String → Except Refusal Bool
  quote : String → String

def Schema.width (schema : Schema) (table : String) : Except Refusal Nat :=
  (schema.columns table).map List.length

end RelQuery
