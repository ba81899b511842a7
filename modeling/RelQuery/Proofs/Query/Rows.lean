import Mathlib.Data.List.Dedup
import RelQuery.Proofs.Query.Recast

/-!
# Rows of a query

What a query yields over given tables, clause by clause: the rows of its FROM clause that pass the
condition, in groups, and one row for each group that passes HAVING, each once where the query is
distinct, and cut to its limit. An aggregate stands for a value of its whole group. With an
aggregate and without GROUP BY there is one group of all rows; without either, each row is a group
by itself. The order of rows is left open, so the ordering of a query is not read.
-/

set_option autoImplicit false

namespace RelQuery

mutual

def Expr.aggregates : Expr → Bool
  | .literal _ => false
  | .value _ => false
  | .column _ _ => false
  | .collate e _ => e.aggregates
  | .not e => e.aggregates
  | .compare _ left right => left.aggregates || right.aggregates
  | .prefixOp _ e => e.aggregates
  | .infixOp _ left right => left.aggregates || right.aggregates
  | .inList e candidates => e.aggregates || Expr.anyAggregates candidates
  | .inQuery e _ => e.aggregates
  | .existsIn _ => false
  | .between e low high => e.aggregates || low.aggregates || high.aggregates
  | .function _ arguments => Expr.anyAggregates arguments
  | .countAll => true
  | .count _ => true
  | .countDistinct _ => true

def Expr.anyAggregates : List Expr → Bool
  | [] => false
  | e :: es => e.aggregates || Expr.anyAggregates es

end

/-- The expressions of the SELECT list and of HAVING, where an aggregate makes one group of all
rows. -/
def Query.groupExprs (q : Query) : List Expr :=
  q.selection.filterMap (fun
    | .star _ => none
    | .expr e _ => some e) ++ q.having.toList

def Query.aggregates (q : Query) : Bool :=
  q.groupExprs.any Expr.aggregates

/-- What tables hold and expressions are worth in an engine, where `ρ` are the rows of FROM
clauses. A row by itself is a group of one. Values that the engine takes for one are one. -/
structure Reading (ρ : Type) where
  table : String → List ρ
  /-- A row of a subquery as a row of a FROM clause. -/
  derived : List Value → ρ
  /-- The rows of joined sources, from those of the leaves. -/
  joined : Arena (List ρ) → List ρ
  /-- The only row of a query without sources. -/
  blank : ρ
  /-- The columns of a source in a group. -/
  columns : SourceId → List ρ → List Value
  value : Expr → List ρ → Value
  passes : Expr → List ρ → Bool
  /-- Whether there are aggregates of the engine in an expression, as functions or in raw SQL. -/
  aggregates : Expr → Bool

def Value.ofCount (n : Nat) : Value :=
  .integer (.ofNat n)

namespace Reading

variable {ρ : Type}

def present (m : Reading ρ) (e : Expr) (group : List ρ) : List Value :=
  (group.map fun row => m.value e [row]).filter fun v => !v.isNull

def worth (m : Reading ρ) (group : List ρ) : Expr → Value
  | .countAll => .ofCount group.length
  | .count e => .ofCount (m.present e group).length
  | .countDistinct e => .ofCount (m.present e group).dedup.length
  | e => m.value e group

def itemValues (m : Reading ρ) (group : List ρ) : Item → List Value
  | .star id => m.columns id group
  | .expr e _ => [m.worth group e]

/-- The row of a group. An empty selection stands for the star of the root. -/
def rowOf (m : Reading ρ) (selection : List Item) (root : Option SourceId) (group : List ρ) :
    List Value :=
  (if selection.isEmpty then root.toList.map .star else selection).flatMap (m.itemValues group)

def groups (m : Reading ρ) (q : Query) (rows : List ρ) : List (List ρ) :=
  if q.grouping.isEmpty then
    if q.aggregates || q.groupExprs.any m.aggregates then [rows] else rows.map ([·])
  else
    let key := fun row => q.grouping.map (m.value · [row])
    (rows.map key).dedup.map fun k => rows.filter fun row => key row = k

def fromRows (m : Reading ρ) (a : Arena (List ρ)) : List ρ :=
  match a.root with
  | none => [m.blank]
  | some root =>
    match a.node root with
    | .ok (.leaf rows) => rows
    | _ => m.joined a

def cut (limit : Option Limit) (rows : List (List Value)) : List (List Value) :=
  match limit with
  | some l => (rows.drop (l.offset.getD 0)).take l.count
  | none => rows

def yielding (m : Reading ρ) (q : Query) (rows : List ρ) : List (List ρ) :=
  (m.groups q (rows.filter fun row => q.condition.all (m.passes · [row]))).filter fun group =>
    q.having.all (m.passes · group)

def yields (m : Reading ρ) (q : Query) (rows : List ρ) : List (List Value) :=
  let found := (m.yielding q rows).map (m.rowOf q.selection q.sources.root)
  cut q.limit (if q.distinct then found.dedup else found)

end Reading

mutual

def Source.rows {ρ : Type} (m : Reading ρ) : Source → List ρ
  | .table name _ => m.table name
  | .query q _ => (q.rows m).map m.derived

def Source.nodeRows {ρ : Type} (m : Reading ρ) : List (Node Source) → List (Node (List ρ))
  | [] => []
  | .leaf source :: nodes => .leaf (source.rows m) :: Source.nodeRows m nodes
  | .join j :: nodes => .join j :: Source.nodeRows m nodes

def Query.rows {ρ : Type} (m : Reading ρ) : Query → List (List Value)
  | ⟨selection, distinct, ⟨scope, nodes, root⟩, condition, grouping, having, ordering, reversed,
      limit⟩ =>
    m.yields ⟨selection, distinct, ⟨scope, nodes, root⟩, condition, grouping, having, ordering,
      reversed, limit⟩ (m.fromRows ⟨scope, Source.nodeRows m nodes, root⟩)

end

variable {ρ : Type}

theorem Source.nodeRows_eq (m : Reading ρ) (nodes : List (Node Source)) :
    Source.nodeRows m nodes = nodes.map (Node.recast id (Source.rows m)) :=
  eq_map_of_cons rfl (fun node _ => by cases node <;> rfl) nodes

theorem Query.rows_eq (m : Reading ρ) (q : Query) :
    q.rows m = m.yields q (m.fromRows (q.sources.recast id (Source.rows m))) := by
  obtain ⟨_, _, ⟨scope, nodes, root⟩, _, _, _, _, _, _⟩ := q
  rw [Query.rows, Source.nodeRows_eq, Arena.recast, show SourceId.rescope id = id from rfl,
    Option.map_id]
  rfl

theorem Query.rows_unordered (m : Reading ρ) (q : Query) : q.unordered.rows m = q.rows m := by
  obtain ⟨_, _, ⟨_, _, _⟩, _, _, _, _, _, _⟩ := q
  rfl

namespace Reading

theorem length_cut_le (limit : Option Limit) (rows : List (List Value)) :
    (cut limit rows).length ≤ rows.length := by
  cases limit with
  | none => exact Nat.le_refl _
  | some l =>
    rw [cut, List.length_take, List.length_drop]
    omega

theorem length_yields_le (m : Reading ρ) (q : Query) (rows : List ρ) :
    (m.yields q rows).length ≤ (m.yielding q rows).length := by
  let found := (m.yielding q rows).map (m.rowOf q.selection q.sources.root)
  calc
    (m.yields q rows).length ≤ (if q.distinct then found.dedup else found).length :=
      length_cut_le _ _
    _ ≤ found.length := by
      split
      · exact (List.dedup_sublist found).length_le
      · exact Nat.le_refl _
    _ = (m.yielding q rows).length := List.length_map _

end Reading

namespace Query

variable {m : Reading ρ} {q : Query}

theorem exists_table_of_rootTable {root : SourceId} (h : q.rootTable? = some root) :
    q.sources.root = some root ∧
      ∃ name aliasName, q.sources.node root = .ok (.leaf (.table name aliasName)) := by
  rw [rootTable?] at h
  split at h
  · cases h
  rename_i id hid
  split at h
  · rename_i name aliasName hnode
    cases h
    exact ⟨hid, name, aliasName, hnode⟩
  · cases h

theorem fromRows_of_rootTable {root : SourceId} (h : q.rootTable? = some root) :
    ∃ name, m.fromRows (q.sources.recast id (Source.rows m)) = m.table name := by
  obtain ⟨hroot, name, aliasName, hnode⟩ := exists_table_of_rootTable h
  have hleaf : (q.sources.recast id (Source.rows m)).node (root.rescope id) =
      .ok (.leaf (m.table name)) := by
    rw [Arena.node_recast, hnode]
    rfl
  refine ⟨name, ?_⟩
  rw [Reading.fromRows, show (q.sources.recast id (Source.rows m)).root = some (root.rescope id) by
    rw [Arena.recast, hroot]; rfl]
  simp only [hleaf]

def kept (m : Reading ρ) (q : Query) : List ρ :=
  (m.fromRows (q.sources.recast id (Source.rows m))).filter fun row =>
    q.condition.all (m.passes · [row])

theorem yielding_aggregated (hg : q.grouping = []) (ha : q.aggregates = true) :
    m.yielding q (m.fromRows (q.sources.recast id (Source.rows m))) =
      if q.having.all (m.passes · (q.kept m)) then [q.kept m] else [] := by
  have hgroups : ∀ rows, m.groups q rows = [rows] := fun rows => by
    simp [Reading.groups, hg, ha]
  rw [Reading.yielding, hgroups, ← kept, List.filter_singleton]
  exact cond_eq_ite _ _ _

theorem length_rows_aggregated (hg : q.grouping = []) (ha : q.aggregates = true) :
    (q.rows m).length ≤ 1 := by
  rw [rows_eq]
  refine Nat.le_trans (m.length_yields_le q _) ?_
  rw [yielding_aggregated hg ha]
  split
  · exact Nat.le_refl 1
  · exact Nat.zero_le 1

theorem rows_aggregated (hg : q.grouping = []) (ha : q.aggregates = true)
    (hl : q.limit = none) :
    q.rows m = if q.having.all (m.passes · (q.kept m)) then
      [m.rowOf q.selection q.sources.root (q.kept m)] else [] := by
  rw [rows_eq, Reading.yields, yielding_aggregated hg ha, hl]
  by_cases hpasses : q.having.all (m.passes · (q.kept m)) = true
  · rw [if_pos hpasses, if_pos hpasses]
    cases q.distinct <;> rfl
  · rw [if_neg hpasses, if_neg hpasses]
    cases q.distinct <;> rfl

end Query

end RelQuery
