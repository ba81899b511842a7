import RelQuery.Proofs.Query.Arguments
import RelQuery.Proofs.Text.Comments
import RelQuery.Query.Polarity

/-!
# Parts of a query

The expressions that a text is written from: an expression with all that stand in it, subqueries
included. The operand of a membership in an empty list is not written, and neither is a source that
the root of its query does not reach.
-/

set_option autoImplicit false

namespace RelQuery

mutual

def Expr.parts : Expr → List Expr
  | .literal sql => [.literal sql]
  | .value v => [.value v]
  | .column qualifier name => [.column qualifier name]
  | .collate e collation => .collate e collation :: e.parts
  | .not e => .not e :: e.parts
  | .compare c left right => .compare c left right :: (left.parts ++ right.parts)
  | .prefixOp op e => .prefixOp op e :: e.parts
  | .infixOp op left right => .infixOp op left right :: (left.parts ++ right.parts)
  | .inList e candidates =>
    .inList e candidates ::
      if candidates.isEmpty then [] else e.parts ++ Expr.partsAll candidates
  | .inQuery e q => .inQuery e q :: (e.parts ++ q.parts)
  | .existsIn q => .existsIn q :: q.parts
  | .between e low high => .between e low high :: (e.parts ++ (low.parts ++ high.parts))
  | .function name arguments => .function name arguments :: Expr.partsAll arguments
  | .countAll => [.countAll]
  | .count e => .count e :: e.parts
  | .countDistinct e => .countDistinct e :: e.parts

def Expr.partsAll : List Expr → List Expr
  | [] => []
  | e :: es => e.parts ++ Expr.partsAll es

def Expr.partsOption : Option Expr → List Expr
  | none => []
  | some e => e.parts

def Item.parts : Item → List Expr
  | .star _ => []
  | .expr e _ => e.parts

def Item.partsAll : List Item → List Expr
  | [] => []
  | item :: items => item.parts ++ Item.partsAll items

def SortTerm.parts : SortTerm → List Expr
  | ⟨e, _⟩ => e.parts

def SortTerm.partsAll : List SortTerm → List Expr
  | [] => []
  | term :: terms => term.parts ++ SortTerm.partsAll terms

def Source.parts : Source → List Expr
  | .table _ _ => []
  | .query q _ => q.parts

def Source.nodeParts : List (Node Source) → List (Node (List Expr))
  | [] => []
  | .leaf source :: nodes => .leaf source.parts :: Source.nodeParts nodes
  | .join j :: nodes => .join j :: Source.nodeParts nodes

def Query.parts : Query → List Expr
  | ⟨selection, _, ⟨scope, nodes, root⟩, condition, grouping, having, ordering, _, _⟩ =>
    Item.partsAll selection ++ Arena.gather ⟨scope, Source.nodeParts nodes, root⟩ ++
      Expr.partsOption condition ++ Expr.partsAll grouping ++ Expr.partsOption having ++
      SortTerm.partsAll ordering

end

def Arena.parts (a : Arena Source) : Arena (List Expr) :=
  ⟨a.scope, Source.nodeParts a.nodes, a.root⟩

theorem Query.parts_eq (q : Query) :
    q.parts = Item.partsAll q.selection ++ q.sources.parts.gather ++
      Expr.partsOption q.condition ++ Expr.partsAll q.grouping ++ Expr.partsOption q.having ++
      SortTerm.partsAll q.ordering := by
  obtain ⟨_, _, ⟨_, _, _⟩, _, _, _, _, _, _⟩ := q
  rfl

theorem Source.nodeParts_eq (nodes : List (Node Source)) :
    Source.nodeParts nodes = nodes.map (Node.recast id Source.parts) :=
  eq_map_of_cons rfl (fun node _ => by cases node <;> rfl) nodes

theorem Arena.node_parts (a : Arena Source) (x : SourceId) :
    a.parts.node x = (a.node x).map (Node.recast id Source.parts) := by
  rw [parts, Source.nodeParts_eq]
  exact Arena.node_recast a x

namespace Expr

/-- Made by the operators and functions of the builder: no text is written as it is, a minus sign is
the only prefix, and no name has a character of a comment in it. -/
def FromOperators : Expr → Prop
  | .literal _ => False
  | .prefixOp op _ => op = "-"
  | .infixOp op _ _ => ∃ o : BinaryOp, op = o.sql
  | .collate _ collation => Text.Tame collation
  | .function name _ => Text.Tame name
  | _ => True

def ClosesQuotes : Expr → Prop
  | .collate _ collation => Text.Closed collation
  | .function name _ => Text.Closed name
  | _ => True

/-- Whether the text of an expression begins with its minus sign: a negated negation and a
collation write nothing before it. -/
def leads : Polarity → Expr → Bool
  | p, .not e => e.leads p.flip
  | .plain, .collate e _ => e.leads .plain
  | .plain, .prefixOp _ _ => true
  | _, _ => false

/-- A prefix before a text that begins with a minus sign. -/
def doublesMinus : Expr → Bool
  | .prefixOp _ e => e.leads .plain
  | _ => false

theorem doublesMinus_of_isNull {e : Expr} (h : e.isNull = true) :
    e.parts.any doublesMinus = false := by
  cases e with
  | value v => rfl
  | _ => cases h

end Expr

end RelQuery
