import RelQuery.Query.Arena
import RelQuery.Value.Basic

/-!
# Queries

Expressions, the items of a SELECT list, sort terms, sources and queries, which hold one another.
All are plain values; an id inside an expression is checked when the query is rendered.
-/

set_option autoImplicit false

namespace RelQuery

inductive Comparison
  | equal
  | notEqual
  | is
  | isNot
deriving DecidableEq

/-- What a column name stands behind: a source of the query, or a name written as it is. -/
inductive Qualifier
  | source (id : SourceId)
  | named (name : String)
deriving DecidableEq

inductive Direction
  | unstated
  | ascending
  | descending
deriving DecidableEq

structure Limit where
  count : Nat
  offset : Option Nat
deriving DecidableEq

mutual

inductive Expr
  /-- SQL written as it is. -/
  | literal (sql : String)
  | value (v : Value)
  | column (qualifier : Option Qualifier) (name : String)
  | collate (e : Expr) (collation : String)
  | not (e : Expr)
  | compare (c : Comparison) (left right : Expr)
  | prefixOp (op : String) (e : Expr)
  | infixOp (op : String) (left right : Expr)
  | inList (e : Expr) (candidates : List Expr)
  | inQuery (e : Expr) (q : Query)
  | existsIn (q : Query)
  | between (e low high : Expr)
  | function (name : String) (arguments : List Expr)
  | countAll
  | count (e : Expr)
  | countDistinct (e : Expr)

inductive Item
  | star (id : SourceId)
  | expr (e : Expr) (aliasName : Option String)

inductive SortTerm
  | mk (e : Expr) (direction : Direction)

inductive Source
  | table (name : String) (aliasName : Option String)
  | query (q : Query) (aliasName : Option String)

structure Query where
  selection : List Item
  distinct : Bool
  sources : Arena Source
  condition : Option Expr
  grouping : List Expr
  having : Option Expr
  ordering : List SortTerm
  reversed : Bool
  limit : Option Limit

end

namespace Comparison

def opposite : Comparison → Comparison
  | .equal => .notEqual
  | .notEqual => .equal
  | .is => .isNot
  | .isNot => .is

def sql : Comparison → String
  | .equal => "="
  | .notEqual => "<>"
  | .is => "IS"
  | .isNot => "IS NOT"

def nullTest : Comparison → String
  | .equal | .is => "IS NULL"
  | .notEqual | .isNot => "IS NOT NULL"

theorem opposite_opposite (c : Comparison) : c.opposite.opposite = c := by
  cases c <;> rfl

end Comparison

namespace Direction

def reversed : Direction → Direction
  | .unstated => .descending
  | .ascending => .descending
  | .descending => .ascending

def sql : Direction → String
  | .unstated => ""
  | .ascending => " ASC"
  | .descending => " DESC"

end Direction

def Limit.sql (l : Limit) : String :=
  match l.offset with
  | some offset => l.count.repr ++ " OFFSET " ++ offset.repr
  | none => l.count.repr

inductive BinaryOp
  | less
  | lessEqual
  | greater
  | greaterEqual
  | like
  | and
  | or
  | add
  | subtract
deriving DecidableEq

def BinaryOp.sql : BinaryOp → String
  | .less => "<"
  | .lessEqual => "<="
  | .greater => ">"
  | .greaterEqual => ">="
  | .like => "LIKE"
  | .and => "AND"
  | .or => "OR"
  | .add => "+"
  | .subtract => "-"

namespace Expr

def binary (op : BinaryOp) (left right : Expr) : Expr :=
  .infixOp op.sql left right

def and (left right : Expr) : Expr :=
  .binary .and left right

def minus (e : Expr) : Expr :=
  .prefixOp "-" e

def isNull : Expr → Bool
  | .value .null => true
  | _ => false

end Expr

def SortTerm.reversed : SortTerm → SortTerm
  | ⟨e, direction⟩ => ⟨e, direction.reversed⟩

/-- The name that a source goes by where no other has it. -/
def Source.declaredName : Source → Option String
  | .table name aliasName => some (aliasName.getD name)
  | .query _ aliasName => aliasName

def Source.withAlias (aliasName : String) : Source → Source
  | .table name _ => .table name (some aliasName)
  | .query q _ => .query q (some aliasName)

end RelQuery
