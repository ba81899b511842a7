import RelQuery.Proofs.Condition.Truth
import RelQuery.Proofs.Query.Fragments
import RelQuery.Proofs.Text.Words

/-!
# Conditions and their written forms

A condition is an expression built by NOT, AND and OR from comparisons, ranges, memberships and
existences, over any expressions as operands. Its meaning is that of three-valued logic. What is
written for it is a form: the tree that the parentheses of the text spell out, with the texts of
the operands at its leaves and the arguments of their placeholders.
-/

set_option autoImplicit false

namespace RelQuery

inductive Condition
  | not (c : Condition)
  | junction (j : Junction) (left right : Condition)
  | compare (c : Comparison) (left right : Expr)
  | test (t : BinaryTest) (left right : Expr)
  | between (e low high : Expr)
  | inList (e : Expr) (candidates : List Expr)
  | inQuery (e : Expr) (q : Query)
  | existsIn (q : Query)

namespace Condition

def expr : Condition → Expr
  | .not c => .not c.expr
  | .junction j left right => .binary j.op left.expr right.expr
  | .compare c left right => .compare c left right
  | .test t left right => .binary t.op left right
  | .between e low high => .between e low high
  | .inList e candidates => .inList e candidates
  | .inQuery e q => .inQuery e q
  | .existsIn q => .existsIn q

def operands : Condition → List Expr
  | .not c => c.operands
  | .junction _ left right => left.operands ++ right.operands
  | .compare _ left right => [left, right]
  | .test _ left right => [left, right]
  | .between e low high => [e, low, high]
  | .inList e candidates => e :: candidates
  | .inQuery e _ => [e]
  | .existsIn _ => []

/-- Three-valued truth. A comparison with a null literal asks whether the other side is null. -/
def meaning (V : Assignment Expr Query) : Condition → Truth
  | .not c => (c.meaning V).not
  | .junction j left right => j.truth (left.meaning V) (right.meaning V)
  | .compare c left right =>
    if right.isNull then V.nullTest c left
    else if left.isNull then V.nullTest c right
    else V.compare c left right
  | .test t left right => V.related (.test t) left right
  | .between e low high => V.between e low high
  | .inList e candidates => V.inList e candidates
  | .inQuery e q => V.inQuery e q
  | .existsIn q => V.existsIn q

end Condition

/-- An assignment to written operands that gives them what another one gives to the operands. -/
structure Assignment.Reads (ctx : Context) (I : Assignment Fragment Fragment)
    (V : Assignment Expr Query) : Prop where
  null : V.value (.value .null) = .null
  value : ∀ {e : Expr} {x : Fragment}, e.LowersTo ctx x → I.value x = V.value e
  holds : ∀ (r : Relation) {e e' : Expr} {x y : Fragment}, e.LowersTo ctx x → e'.LowersTo ctx y →
    I.holds r x y = V.holds r e e'
  rows : ∀ {q : Query} {x : Fragment}, q.LowersTo ctx.schema x → I.rows x = V.rows q
  found : ∀ {e : Expr} {q : Query} {x y : Fragment}, e.LowersTo ctx x → q.LowersTo ctx.schema y →
    I.found x y = V.found e q

def Assignment.through (ctx : Context) (I : Assignment Fragment Fragment) :
    Assignment Expr Query where
  value := fun e => I.value (e.written ctx)
  holds := fun r e e' => I.holds r (e.written ctx) (e'.written ctx)
  rows := fun q => I.rows (q.written ctx.schema)
  found := fun e q => I.found (e.written ctx) (q.written ctx.schema)

theorem Expr.null_lowers (ctx : Context) : (Expr.value .null).LowersTo ctx ⟨"NULL", []⟩ :=
  Rendering.appends_pure "NULL"

theorem Assignment.reads_through (ctx : Context) {I : Assignment Fragment Fragment}
    (h : I.value ⟨"NULL", []⟩ = .null) : I.Reads ctx (I.through ctx) where
  null := (congrArg I.value (Expr.null_lowers ctx).written).trans h
  value := fun hx => (congrArg I.value hx.written).symm
  holds := by
    intro r e e' x y hx hy
    show _ = I.holds r (e.written ctx) (e'.written ctx)
    rw [hx.written, hy.written]
  rows := fun hx => (congrArg I.rows hx.written).symm
  found := by
    intro e q x y hx hy
    show _ = I.found (e.written ctx) (q.written ctx.schema)
    rw [hx.written, hy.written]

theorem Assignment.Reads.null_written {ctx : Context} {I : Assignment Fragment Fragment}
    {V : Assignment Expr Query} (h : I.Reads ctx V) : I.value ⟨"NULL", []⟩ = .null :=
  (h.value (Expr.null_lowers ctx)).trans h.null

inductive Form
  | constant (b : Bool)
  | negation (t : Form)
  | junction (j : Junction) (left right : Form)
  | compare (c : Comparison) (left right : Fragment)
  | test (t : BinaryTest) (left right : Fragment)
  | between (x low high : Fragment)
  | inList (p : Polarity) (x : Fragment) (candidates : List Fragment)
  | inQuery (p : Polarity) (x q : Fragment)
  | existsIn (p : Polarity) (q : Fragment)
deriving DecidableEq

namespace Form

def text : Form → String
  | .constant b => if b then "1" else "0"
  | .negation t => Text.group ("NOT " ++ t.text)
  | .junction j left right => Text.group (left.text ++ " " ++ j.op.sql ++ " " ++ right.text)
  | .compare c left right => Text.group (left.text ++ " " ++ c.sql ++ " " ++ right.text)
  | .test t left right => Text.group (left.text ++ " " ++ t.op.sql ++ " " ++ right.text)
  | .between x low high =>
    Text.group (x.text ++ " BETWEEN " ++ low.text ++ " AND " ++ high.text)
  | .inList p x candidates =>
    Text.group (x.text ++ " " ++ p.membership ++ " " ++
      Text.group (commaSeparated (candidates.map Fragment.text)))
  | .inQuery p x q => Text.group (x.text ++ " " ++ p.membership ++ " " ++ Text.group q.text)
  | .existsIn p q => Text.group (p.existence ++ " " ++ Text.group q.text)

def fragments : Form → List Fragment
  | .constant _ => []
  | .negation t => t.fragments
  | .junction _ left right => left.fragments ++ right.fragments
  | .compare _ left right => [left, right]
  | .test _ left right => [left, right]
  | .between x low high => [x, low, high]
  | .inList _ x candidates => x :: candidates
  | .inQuery _ x q => [x, q]
  | .existsIn _ q => [q]

def arguments (t : Form) : List Value :=
  t.fragments.flatMap Fragment.arguments

def fragment (t : Form) : Fragment :=
  ⟨t.text, t.arguments⟩

def truth (I : Assignment Fragment Fragment) : Form → Truth
  | .constant b => .ofBool b
  | .negation t => (t.truth I).not
  | .junction j left right => j.truth (left.truth I) (right.truth I)
  | .compare c left right => I.compare c left right
  | .test t left right => I.related (.test t) left right
  | .between x low high => I.between x low high
  | .inList p x candidates => p.truth (I.inList x candidates)
  | .inQuery p x q => p.truth (I.inQuery x q)
  | .existsIn p q => p.truth (I.existsIn q)

end Form

end RelQuery
