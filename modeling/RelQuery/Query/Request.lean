import RelQuery.Query.Render
import RelQuery.Query.Variants

/-!
# Requests

A request is a query, or SQL text with its arguments and perhaps a shape for its rows.
-/

set_option autoImplicit false

namespace RelQuery

structure Compiled where
  sql : String
  arguments : List Value
deriving DecidableEq

def Compiled.display (c : Compiled) : String :=
  if c.arguments.isEmpty then c.sql else c.sql ++ " " ++ Value.displayList c.arguments

inductive Request
  | query (q : Query)
  | sql (text : String) (arguments : List Value) (shape : Option Shape)

namespace Request

def render (schema : Schema) : Request → Rendering String
  | .query q => q.render schema
  | .sql text arguments _ => do
    modify fun b => ⟨b.values ++ arguments⟩
    pure text

def compile (schema : Schema) (r : Request) : Outcome Compiled :=
  let (text, bound) := (r.render schema).runFrom .empty
  text.map (⟨·, bound.values⟩)

def shape? (schema : Schema) : Request → Outcome (Option Shape)
  | .query q => q.shape? schema
  | .sql _ _ shape => .ok shape

end Request

end RelQuery
