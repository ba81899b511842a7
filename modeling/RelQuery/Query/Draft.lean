import RelQuery.Query.Count

/-!
# Drafts of queries

A draft is a query as the list of operations that build it. An operation can give an id a name,
by which later parts of any draft refer to it, and a finished query can be named and started
from again. Building a draft gives every new query a scope of its own.
-/

set_option autoImplicit false

namespace RelQuery.Draft

/-- The id that an operation names: of the first source, of the root, or of an operand of the
join that was attached as the `n`-th. -/
inductive Part
  | source
  | root
  | base (n : Nat)
  | origin (n : Nat)
  | target (n : Nat)

mutual

inductive Term
  | literal (sql : String)
  | value (v : Value)
  | column (name : String)
  | qualified (qualifier name : String)
  | marked (mark name : String)
  | collate (t : Term) (collation : String)
  | not (t : Term)
  | minus (t : Term)
  | compare (c : Comparison) (left right : Term)
  | binary (op : BinaryOp) (left right : Term)
  | prefixOp (op : String) (t : Term)
  | infixOp (op : String) (left right : Term)
  | inList (t : Term) (candidates : List Term)
  | inQuery (t : Term) (q : Script)
  | existsIn (q : Script)
  | between (t low high : Term)
  | function (name : String) (arguments : List Term)
  | countAll
  | count (t : Term)
  | countDistinct (t : Term)

inductive Choice
  | star (mark : String)
  | term (t : Term) (aliasName : Option String)

inductive Order
  | term (t : Term) (direction : Direction)
  | reversed (o : Order)

inductive Start
  | new
  | table (name : String)
  | query (q : Script) (aliasName : Option String)
  | named (name : String)

inductive Step
  | aliased (aliasName : String)
  | select (selection : List Choice)
  | distinct
  | filter (t : Term)
  | group (grouping : List Term)
  | having (t : Term)
  | order (ordering : List Order)
  | reverse
  | limit (count : Nat) (offset : Option Nat)
  | including (a : Association)
  | countQuery
  | mark (name : String) (part : Part)

inductive Script
  | mk (start : Start) (steps : List Step)

end

/-- The least scope that is free, the marked ids and the named queries, the last ones first. -/
structure Workspace where
  nextScope : Nat
  marks : List (String × SourceId)
  queries : List (String × Query)

inductive Unknown
  | mark (name : String)
  | query (name : String)
  | part
deriving DecidableEq

abbrev Build (α : Type) := StateT Workspace (Except Unknown) α

def Workspace.empty (scope : Nat) : Workspace :=
  ⟨scope, [], []⟩

def freshScope : Build Nat :=
  modifyGet fun w => (w.nextScope, { w with nextScope := w.nextScope + 1 })

def setMark (name : String) (id : SourceId) : Build Unit :=
  modify fun w => { w with marks := (name, id) :: w.marks }

def setQuery (name : String) (q : Query) : Build Unit :=
  modify fun w => { w with queries := (name, q) :: w.queries }

def getMark (name : String) : Build SourceId := do
  match (← get).marks.lookup name with
  | some id => pure id
  | none => throw (.mark name)

def getQuery (name : String) : Build Query := do
  match (← get).queries.lookup name with
  | some q => pure q
  | none => throw (.query name)

def Part.find? (part : Part) (q : Query) : Option SourceId :=
  match part with
  | .source => q.source?
  | .root => q.sources.root
  | .base n => (q.sources.joins[n]?).map (·.base)
  | .origin n => (q.sources.joins[n]?).map (·.origin)
  | .target n => (q.sources.joins[n]?).map (·.target)

mutual

def Term.build : Term → Build Expr
  | .literal sql => pure (.literal sql)
  | .value v => pure (.value v)
  | .column name => pure (.column none name)
  | .qualified qualifier name => pure (.column (some (.named qualifier)) name)
  | .marked mark name => do
    let id ← getMark mark
    pure (.column (some (.source id)) name)
  | .collate t collation => do
    let e ← t.build
    pure (.collate e collation)
  | .not t => do
    let e ← t.build
    pure (.not e)
  | .minus t => do
    let e ← t.build
    pure e.minus
  | .compare c left right => do
    let l ← left.build
    let r ← right.build
    pure (.compare c l r)
  | .binary op left right => do
    let l ← left.build
    let r ← right.build
    pure (.binary op l r)
  | .prefixOp op t => do
    let e ← t.build
    pure (.prefixOp op e)
  | .infixOp op left right => do
    let l ← left.build
    let r ← right.build
    pure (.infixOp op l r)
  | .inList t candidates => do
    let e ← t.build
    let es ← Term.buildAll candidates
    pure (.inList e es)
  | .inQuery t q => do
    let e ← t.build
    let q ← q.build
    pure (.inQuery e q)
  | .existsIn q => do
    let q ← q.build
    pure (.existsIn q)
  | .between t low high => do
    let e ← t.build
    let l ← low.build
    let h ← high.build
    pure (.between e l h)
  | .function name arguments => do
    let es ← Term.buildAll arguments
    pure (.function name es)
  | .countAll => pure .countAll
  | .count t => do
    let e ← t.build
    pure (.count e)
  | .countDistinct t => do
    let e ← t.build
    pure (.countDistinct e)

def Term.buildAll : List Term → Build (List Expr)
  | [] => pure []
  | t :: ts => do
    let e ← t.build
    let es ← Term.buildAll ts
    pure (e :: es)

def Choice.build : Choice → Build Item
  | .star mark => do
    let id ← getMark mark
    pure (.star id)
  | .term t aliasName => do
    let e ← t.build
    pure (.expr e aliasName)

def Choice.buildAll : List Choice → Build (List Item)
  | [] => pure []
  | c :: cs => do
    let item ← c.build
    let items ← Choice.buildAll cs
    pure (item :: items)

def Order.build : Order → Build SortTerm
  | .term t direction => do
    let e ← t.build
    pure ⟨e, direction⟩
  | .reversed o => do
    let term ← o.build
    pure term.reversed

def Order.buildAll : List Order → Build (List SortTerm)
  | [] => pure []
  | o :: os => do
    let term ← o.build
    let terms ← Order.buildAll os
    pure (term :: terms)

def Start.build : Start → Build Query
  | .new => do
    let scope ← freshScope
    pure (.new scope)
  | .table name => do
    let scope ← freshScope
    pure (.table scope name)
  | .query q aliasName => do
    let q ← q.build
    let scope ← freshScope
    pure (.ofQuery scope q aliasName)
  | .named name => getQuery name

def Step.build (q : Query) : Step → Build Query
  | .aliased aliasName => pure (q.aliased aliasName)
  | .select selection => do
    let items ← Choice.buildAll selection
    pure (q.select items)
  | .distinct => pure q.distinctRows
  | .filter t => do
    let e ← t.build
    pure (q.filter e)
  | .group grouping => do
    let es ← Term.buildAll grouping
    pure (q.group es)
  | .having t => do
    let e ← t.build
    pure (q.filterGroups e)
  | .order ordering => do
    let terms ← Order.buildAll ordering
    pure (q.order terms)
  | .reverse => pure q.reverse
  | .limit count offset => pure (q.limitTo count offset)
  | .including a => pure (q.including a)
  | .countQuery => do
    let scope ← freshScope
    pure (q.countQueryIn scope)
  | .mark name part =>
    match part.find? q with
    | some id => do
      setMark name id
      pure q
    | none => throw .part

def Step.buildAll (q : Query) : List Step → Build Query
  | [] => pure q
  | s :: ss => do
    let q ← s.build q
    Step.buildAll q ss

def Script.build : Script → Build Query
  | .mk start steps => do
    let q ← start.build
    Step.buildAll q steps

end

inductive Member
  | table (name : String) (aliasName : Option String)
  | query (q : Script) (aliasName : Option String)
  | join (base origin target : String) (foreignKey : List (String × String)) (variant : String)

def Member.build : Member → Build (Node Source)
  | .table name aliasName => pure (.leaf (.table name aliasName))
  | .query q aliasName => do
    let q ← q.build
    pure (.leaf (.query q aliasName))
  | .join base origin target foreignKey variant => do
    let base ← getMark base
    let origin ← getMark origin
    let target ← getMark target
    pure (.join ⟨base, origin, target, foreignKey, .hasOne, variant, 0⟩)

end RelQuery.Draft
