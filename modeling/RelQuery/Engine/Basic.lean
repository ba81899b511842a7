import RelQuery.Engine.Schema
import RelQuery.Text.Case

/-!
# Engines

An engine prepares SQL text into a statement and runs the statement with arguments. A run gives
a cursor over a fixed list of rows, which can fail at one of its steps.
-/

set_option autoImplicit false

namespace RelQuery

structure Statement where
  sql : String
  columns : List String
  handle : Nat
deriving DecidableEq

def Statement.indexOf? (s : Statement) (name : String) : Option Nat :=
  Text.position s.columns name

structure Cursor where
  rows : List (List Value)
  failure : Option (Nat × Refusal)
  steps : Nat

namespace Cursor

/-- One step: the row of that number, or nothing past the last. A step that fails uses up its
row. -/
def step (c : Cursor) : Except Refusal (Option (List Value)) × Cursor :=
  let next := { c with steps := c.steps + 1 }
  match c.failure with
  | some (n, cause) => if n = c.steps then (.error cause, next) else (.ok c.rows[c.steps]?, next)
  | none => (.ok c.rows[c.steps]?, next)

def remaining (c : Cursor) : Nat :=
  c.rows.length - c.steps

theorem step_steps (c : Cursor) : c.step.2.steps = c.steps + 1 := by
  unfold step
  split <;> (try split) <;> rfl

theorem step_rows (c : Cursor) : c.step.2.rows = c.rows := by
  unfold step
  split <;> (try split) <;> rfl

theorem remaining_lt_of_step {c : Cursor} {row : List Value} (h : c.step.1 = .ok (some row)) :
    c.step.2.remaining < c.remaining := by
  have hrow : c.rows[c.steps]? = some row := by
    unfold step at h
    split at h
    · split at h
      · simp at h
      · simpa using h
    · simpa using h
  have hlt : c.steps < c.rows.length := (List.getElem?_eq_some_iff.mp hrow).1
  unfold remaining
  rw [step_steps, step_rows]
  omega

end Cursor

structure Engine where
  name : String
  schema : Schema
  prepare : String → Except Refusal Statement
  run : Statement → List Value → Except Refusal Cursor

end RelQuery
