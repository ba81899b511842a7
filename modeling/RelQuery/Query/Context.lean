import RelQuery.Engine.Schema
import RelQuery.Query.Basic
import RelQuery.Query.Names

/-!
# Names inside one SELECT

Columns and stars are qualified by the resolved names of the sources. The source of another query
has no name here, and neither has a join or a subquery without an alias.
-/

set_option autoImplicit false

namespace RelQuery

structure Context where
  schema : Schema
  sources : Arena Source
  names : List (Option String)

namespace Context

/-- Names are resolved once, before anything is written. -/
def of (schema : Schema) (sources : Arena Source) : Outcome Context :=
  (sources.resolveNames Source.declaredName).map (⟨schema, sources, ·⟩)

def quote (ctx : Context) (name : String) : String :=
  ctx.schema.quote name

def sourceName (ctx : Context) (id : SourceId) : Outcome String :=
  if ctx.sources.contains id then
    match ctx.names[id.index]? with
    | some (some name) => .ok name
    | some none => .error (.refused (.mismatch .namelessSource))
    | none => .error .outOfBounds
  else .error (.refused (.mismatch .foreignSource))

def columnSql (ctx : Context) (qualifier : Option Qualifier) (name : String) : Outcome String :=
  match qualifier with
  | none => .ok (ctx.quote name)
  | some (.named source) => .ok (ctx.quote source ++ "." ++ ctx.quote name)
  | some (.source id) => do
    let source ← ctx.sourceName id
    pure (ctx.quote source ++ "." ++ ctx.quote name)

def starWithin (ctx : Context) : Nat → SourceId → Outcome String
  | 0, _ => .error .endless
  | depth + 1, id => do
    match ← ctx.sources.node id with
    | .join j => do
      let base ← ctx.starWithin depth j.base
      let target ← ctx.starWithin depth j.target
      pure (base ++ ", " ++ target)
    | .leaf _ => do
      let name ← ctx.sourceName id
      pure (ctx.quote name ++ ".*")

/-- All columns of a source; those of a join are the columns of its operands. -/
def starSql (ctx : Context) (id : SourceId) : Outcome String :=
  ctx.starWithin ctx.sources.depth id

/-- The order that stands for a reversed query without one: by descending row id of its first
source. -/
def reversedRowId (ctx : Context) : Outcome String := do
  match ctx.sources.root with
  | none => .error (.refused (.unsupportedReversal .noSource))
  | some root => do
    let id ← ctx.sources.leftmost root
    match ← ctx.sources.node id with
    | .leaf (.table table _) => do
      let hasRowId ← Outcome.ofRefusable (ctx.schema.hasRowId table)
      if hasRowId then
        let columns ← Outcome.ofRefusable (ctx.schema.columns table)
        if (Text.position columns "_rowid_").isSome then
          .error (.refused (.unsupportedReversal (.shadowedRowId table)))
        else
          let name ← ctx.sourceName id
          pure (ctx.quote name ++ "._rowid_ DESC")
      else .error (.refused (.unsupportedReversal (.noRowId table)))
    | _ => .error (.refused (.unsupportedReversal .subquery))

end Context

/-- Whether the selection is written as a bare star: it is empty, or the star of the only
source. -/
def selectsBareStar (selection : List Item) (sources : Arena Source) : Outcome Bool :=
  match sources.root with
  | none => .ok false
  | some root =>
    match selection with
    | [] => .ok true
    | [.star id] =>
      if id = root then
        (sources.node root).map fun
          | .join _ => false
          | .leaf _ => true
      else .ok false
    | _ => .ok false

end RelQuery
