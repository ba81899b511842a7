import RelQuery.Engine.Basic
import RelQuery.Query.Count
import RelQuery.Query.Request
import RelQuery.Row.Access

/-!
# Fetching rows

A request is compiled, prepared, and its shape resolved against the columns of the statement,
once. The sequence that results can be run any number of times, each time from the start. A
session keeps the engine as it stands and the calls that were made to it.
-/

set_option autoImplicit false

namespace RelQuery

inductive EngineCall
  | prepare (sql : String)
  | run (arguments : List Value)

structure Session where
  engine : Engine
  calls : List EngineCall

abbrev Fetch (α : Type) := ExceptT Failure (StateM Session) α

namespace Fetch

def ofOutcome {α : Type} (r : Outcome α) : Fetch α :=
  ExceptT.mk (pure r)

def record (call : EngineCall) : Fetch Unit :=
  modify fun s => { s with calls := s.calls ++ [call] }

end Fetch

/-- A prepared request. -/
structure RowSequence where
  statement : Statement
  arguments : List Value
  view : Option View

structure Pass where
  cursor : Cursor
  columns : List String
  view : Option View

def fetch (r : Request) : Fetch RowSequence := do
  let engine := (← get).engine
  let compiled ← Fetch.ofOutcome (r.compile engine.schema)
  Fetch.record (.prepare compiled.sql)
  let statement ← Fetch.ofOutcome (Outcome.ofRefusable (engine.prepare compiled.sql))
  match ← Fetch.ofOutcome (r.shape? engine.schema) with
  | some shape => do
    let view ← Fetch.ofOutcome (Outcome.ofRefusable (shape.resolve statement.columns))
    pure ⟨statement, compiled.arguments, some view⟩
  | none => pure ⟨statement, compiled.arguments, none⟩

def RowSequence.start (s : RowSequence) : Fetch Pass := do
  let engine := (← get).engine
  Fetch.record (.run s.arguments)
  let cursor ← Fetch.ofOutcome (Outcome.ofRefusable (engine.run s.statement s.arguments))
  pure ⟨cursor, s.statement.columns, s.view⟩

namespace Pass

def row (p : Pass) (values : List Value) : Row :=
  match p.view with
  | some view => .adapted (.live values p.columns) view
  | none => .live values p.columns

def next (p : Pass) : Outcome (Option Row) × Pass :=
  let (step, cursor) := p.cursor.step
  ((Outcome.ofRefusable step).map (·.map p.row), { p with cursor := cursor })

/-- Copies of the rows up to the end or the first failure. -/
def drain (p : Pass) : Outcome (List Row) :=
  match _h : p.cursor.step with
  | (.error cause, _) => .error (.refused cause)
  | (.ok none, _) => .ok []
  | (.ok (some values), cursor) =>
    ({ p with cursor := cursor }.drain).map ((p.row values).copy :: ·)
termination_by p.cursor.remaining
decreasing_by
  have hstep : p.cursor.step.1 = .ok (some values) := by rw [_h]
  simpa [_h] using Cursor.remaining_lt_of_step hstep

end Pass

def fetchAll (r : Request) : Fetch (List Row) := do
  let sequence ← fetch r
  let pass ← sequence.start
  Fetch.ofOutcome pass.drain

def fetchOne (r : Request) : Fetch (Option Row) := do
  let sequence ← fetch r
  let pass ← sequence.start
  let row ← Fetch.ofOutcome pass.next.1
  pure (row.map Row.copy)

/-- The number of rows of a query, which its count query holds as the only value. -/
def fetchCount (q : Query) : Fetch Int64 := do
  match ← fetchOne (.query q.countQuery) with
  | some row => do
    let n ← Fetch.ofOutcome (row.get? Int64 0)
    pure (n.getD 0)
  | none => pure 0

end RelQuery
