import RelQuery.Failure

/-!
# Arguments bound while a query is rendered

Rendering appends one argument for each placeholder that it writes. What was bound stays bound
when rendering fails later.
-/

set_option autoImplicit false

namespace RelQuery

structure Bindings where
  values : List Value
deriving DecidableEq

namespace Bindings

def empty : Bindings := ⟨[]⟩

def length (b : Bindings) : Nat :=
  b.values.length

def isEmpty (b : Bindings) : Bool :=
  b.values.isEmpty

/-- Appends a value; the text is its placeholder. -/
def push (b : Bindings) (v : Value) : String × Bindings :=
  ("?", ⟨b.values ++ [v]⟩)

end Bindings

/-- Renders a text, binding arguments on the way. -/
abbrev Rendering (α : Type) := ExceptT Failure (StateM Bindings) α

namespace Rendering

def bindValue (v : Value) : Rendering String :=
  modifyGet fun b => b.push v

def ofOutcome {α : Type} (r : Outcome α) : Rendering α :=
  ExceptT.mk (pure r)

def runFrom {α : Type} (r : Rendering α) (b : Bindings) : Outcome α × Bindings :=
  r.run b

end Rendering

end RelQuery
