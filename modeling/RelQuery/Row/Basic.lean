import RelQuery.Row.Shape
import RelQuery.Value.Conversion

/-!
# Rows

A row lists named values. It is live while it shows the current step of a cursor, detached once
copied, literal when built from pairs, and adapted when it is a view of another row. A live or
detached row takes its columns from the statement, and its values can be fewer.
-/

set_option autoImplicit false

namespace RelQuery

inductive Row
  | live (values : List Value) (columns : List String)
  | detached (values : List Value) (columns : List String)
  | literal (pairs : List (String × Value))
  | adapted (base : Row) (view : View)

namespace Row

def empty : Row := .literal []

def columnNames : Row → List String
  | .live _ columns => columns
  | .detached _ columns => columns
  | .literal pairs => pairs.map (·.1)
  | .adapted _ view => view.layout.names

def length (r : Row) : Nat :=
  r.columnNames.length

def isEmpty (r : Row) : Bool :=
  r.length == 0

def columnName (r : Row) (i : Nat) : Outcome String :=
  match r.columnNames[i]? with
  | some name => .ok name
  | none => .error (.gaveUp (.indexOutOfRange i r.length))

/-- The leftmost column of a name. A literal row is searched, the others look the name up. -/
def indexOf? : Row → String → Option Nat
  | .live _ columns, name => (NameIndex.ofNames columns).find? name
  | .detached _ columns, name => (NameIndex.ofNames columns).find? name
  | .literal pairs, name => Text.position (pairs.map (·.1)) name
  | .adapted _ view, name => view.layout.indexOf? name

def hasColumn (r : Row) (name : String) : Bool :=
  (r.indexOf? name).isSome

/-- The value at an index that is in range. An adapted row trusts its base. -/
def stored : Row → Nat → Outcome Value
  | .live values _, i => Outcome.element values i
  | .detached values _, i => Outcome.element values i
  | .literal pairs, i => (Outcome.element pairs i).map (·.2)
  | .adapted base view, i => do
    let j ← view.layout.baseIndex i
    if j < base.length then base.stored j
    else .error (.gaveUp (.indexOutOfRange j base.length))

def tryValue (r : Row) (i : Nat) : Outcome Value :=
  if i < r.length then r.stored i
  else .error (.refused (.indexOutOfRange i r.length))

/-- The value at an index that is trusted to be in range. -/
def value (r : Row) (i : Nat) : Outcome Value :=
  (r.tryValue i).trusted

def valueNamed? (r : Row) (name : String) : Outcome (Option Value) :=
  match r.indexOf? name with
  | some i => (r.value i).map some
  | none => .ok none

def valuesFrom (r : Row) : Nat → Nat → Outcome (List Value)
  | 0, _ => .ok []
  | n + 1, i => do
    let v ← r.value i
    let vs ← r.valuesFrom n (i + 1)
    pure (v :: vs)

def values (r : Row) : Outcome (List Value) :=
  r.valuesFrom r.length 0

def entries (r : Row) : Outcome (List (String × Value)) :=
  r.values.map (r.columnNames.zip ·)

def adapt (r : Row) (shape : Shape) : Outcome Row := do
  let view ← Outcome.ofRefusable (shape.resolve r.columnNames)
  pure (.adapted r view)

def variant? : Row → String → Option Row
  | .adapted base view, name => (view.variant? name).map (.adapted base ·)
  | _, _ => none

def variantNames : Row → List String
  | .adapted _ view => view.variantNames
  | _ => []

def copy : Row → Row
  | .live values columns => .detached values columns
  | .detached values columns => .detached values columns
  | .literal pairs => .literal pairs
  | .adapted base view => .adapted base.copy view

def isLive : Row → Bool
  | .live _ _ => true
  | .adapted base _ => base.isLive
  | _ => false

def displayEntry (entry : String × Value) : String :=
  " " ++ entry.1 ++ ":" ++ entry.2.display

def display (r : Row) : Outcome String :=
  r.entries.map fun es => "<Row" ++ String.join (es.map displayEntry) ++ ">"

end Row

end RelQuery
