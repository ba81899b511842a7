import RelQuery.Engine.Basic
import RelQuery.Text.Quoted

/-!
# Scripted engines

An engine whose tables and results are written down in advance. The text of a statement picks
the script with that text, or else the first script for any text.
-/

set_option autoImplicit false

namespace RelQuery

structure ScriptedTable where
  name : String
  columns : List String
  hasRowId : Bool

structure ResultScript where
  sql : Option String
  columns : List String
  rows : List (List Value)
  prepareError : Option String
  cursorError : Option String
  stepError : Option (Nat × String)

inductive Quoting
  | doubled
  | backticks

structure ScriptedEngine where
  tables : List ScriptedTable
  scripts : List ResultScript
  quoting : Quoting

namespace ScriptedEngine

def table (e : ScriptedEngine) (name : String) : Except Refusal ScriptedTable :=
  match e.tables.find? (Text.sameName ·.name name) with
  | some t => .ok t
  | none => .error (.mismatch (.noSuchTable name))

def schema (e : ScriptedEngine) : Schema where
  columns name := (e.table name).map (·.columns)
  hasRowId name := (e.table name).map (·.hasRowId)
  quote :=
    match e.quoting with
    | .doubled => Text.quoteIdentifier
    | .backticks => Text.quoteWithBackticks

def scriptFor? (e : ScriptedEngine) (sql : String) : Option Nat :=
  match e.scripts.findIdx? (·.sql = some sql) with
  | some i => some i
  | none => e.scripts.findIdx? (·.sql.isNone)

def prepare (e : ScriptedEngine) (sql : String) : Except Refusal Statement :=
  match (e.scriptFor? sql).bind fun i => e.scripts[i]?.map (i, ·) with
  | some (i, script) =>
    match script.prepareError with
    | some message => .error (.engine message)
    | none => .ok ⟨sql, script.columns, i⟩
  | none => .error (.engine ("not scripted: " ++ sql))

/-- A run shows the rows that the script has at that time. -/
def run (e : ScriptedEngine) (s : Statement) : Except Refusal Cursor :=
  match e.scripts[s.handle]? with
  | some script =>
    match script.cursorError with
    | some message => .error (.engine message)
    | none =>
      .ok ⟨script.rows, script.stepError.map fun (n, message) => (n, .engine message), 0⟩
  | none => .error (.engine none)

def engine (e : ScriptedEngine) : Engine where
  name := "Script"
  schema := e.schema
  prepare := e.prepare
  run s _ := e.run s

def setRows (e : ScriptedEngine) (rows : List (List Value)) : ScriptedEngine :=
  { e with scripts := e.scripts.modify 0 fun script => { script with rows := rows } }

end ScriptedEngine

end RelQuery
