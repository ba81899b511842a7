import RelQuery.Engine.Basic
import RelQuery.Text.Quoted
import RelQuery.Text.Search

/-!
# Engines with a catalog

An engine that keeps, for each table and view, its definition as SQL text and the list of its
columns. Columns that a star does not expand to are marked. It runs only statements that give
their arguments back as rows.
-/

set_option autoImplicit false

namespace RelQuery

inductive EntryKind
  | table
  | view
deriving DecidableEq

structure CatalogEntry where
  kind : EntryKind
  name : String
  definition : Option String

structure CatalogColumn where
  name : String
  hidden : Int

/-- Rows given back by a statement that was prepared for them. -/
structure Echo where
  columns : List String
  rows : List (List Value)

namespace Echo

def selectRow (columns : List String) : List String :=
  columns.map fun column => "? AS " ++ Text.quoteIdentifier column

def sql (e : Echo) : String :=
  match e.rows with
  | [] =>
    "SELECT " ++ String.intercalate ", "
      (e.columns.map fun column => "NULL AS " ++ Text.quoteIdentifier column) ++ " WHERE 0"
  | _ :: rest =>
    String.intercalate " UNION ALL "
      (("SELECT " ++ String.intercalate ", " (selectRow e.columns)) ::
        rest.map fun row => "SELECT " ++ String.intercalate ", " (row.map fun _ => "?"))

def arguments (e : Echo) : List Value :=
  e.rows.flatten

/-- A value as the engine gives it back; no number is stored as null. -/
def stored : Value → Value
  | .real x => if x.isNaN then .null else .real x
  | v => v

end Echo

structure CatalogEngine where
  entries : List CatalogEntry
  columns : List (String × List CatalogColumn)
  echo : Option Echo

namespace CatalogEngine

/-- The columns that a star of the table expands to. A name with a NUL in it cannot be asked
for. -/
def tableColumns (e : CatalogEngine) (table : String) : Except Refusal (List String) :=
  if Char.ofNat 0 ∈ table.toList then .error (.engine none)
  else
    match e.columns.find? (Text.sameName ·.1 table) with
    | some (_, column :: columns) =>
      .ok (((column :: columns).filter (·.hidden != 1)).map (·.name))
    | _ => .error (.mismatch (.noSuchTable table))

/-- Whether a definition has the words that take the row id away, wherever they stand. -/
def withoutRowId (definition : String) : Bool :=
  Text.occurs "WITHOUT ROWID".toList (Text.asciiCapitals definition)

def hasRowId (e : CatalogEngine) (table : String) : Except Refusal Bool :=
  match e.entries.find? (Text.sameName ·.name table) with
  | some ⟨.view, _, _⟩ => .ok false
  | some ⟨.table, _, definition⟩ => .ok (!withoutRowId (definition.getD ""))
  | none => .error (.mismatch (.noSuchTable table))

def prepare (e : CatalogEngine) (sql : String) : Except Refusal Statement :=
  match e.echo with
  | some echo =>
    if sql = echo.sql ∧ echo.columns ≠ [] then .ok ⟨sql, echo.columns, 0⟩
    else .error (.engine none)
  | none => .error (.engine none)

def run (e : CatalogEngine) : Except Refusal Cursor :=
  match e.echo with
  | some echo => .ok ⟨echo.rows.map (·.map Echo.stored), none, 0⟩
  | none => .error (.engine none)

def engine (e : CatalogEngine) : Engine where
  name := "SqliteMemory"
  schema := ⟨e.tableColumns, e.hasRowId, Text.quoteIdentifier⟩
  prepare := e.prepare
  run _ _ := e.run

end CatalogEngine

end RelQuery
