import Mathlib.Logic.Function.Defs
import RelQuery.Query.Count
import RelQuery.Query.Names

/-!
# Recast queries

A recast query has an expression in the place of each value and a new number for each scope, and
is otherwise the same tree. Scopes are only compared, so a renumbering that keeps them apart is
seen by no operation on arenas, and the names of sources are the same after it.
-/

set_option autoImplicit false

namespace RelQuery

def SourceId.rescope (ρ : Nat → Nat) (id : SourceId) : SourceId :=
  ⟨ρ id.scope, id.index⟩

def Join.rescope (ρ : Nat → Nat) (j : Join) : Join :=
  { j with
    base := j.base.rescope ρ
    origin := j.origin.rescope ρ
    target := j.target.rescope ρ }

def Node.recast {α β : Type} (ρ : Nat → Nat) (f : α → β) : Node α → Node β
  | .leaf source => .leaf (f source)
  | .join j => .join (j.rescope ρ)

def Arena.recast {α β : Type} (ρ : Nat → Nat) (f : α → β) (a : Arena α) : Arena β where
  scope := ρ a.scope
  nodes := a.nodes.map (Node.recast ρ f)
  root := a.root.map (SourceId.rescope ρ)

def Qualifier.rescope (ρ : Nat → Nat) : Qualifier → Qualifier
  | .source id => .source (id.rescope ρ)
  | .named name => .named name

/-- What stands for each value, and the new number of each scope. -/
structure Recast where
  value : Value → Expr
  scope : Nat → Nat

mutual

def Expr.recast (m : Recast) : Expr → Expr
  | .literal sql => .literal sql
  | .value v => m.value v
  | .column qualifier name => .column (qualifier.map (Qualifier.rescope m.scope)) name
  | .collate e collation => .collate (e.recast m) collation
  | .not e => .not (e.recast m)
  | .compare c left right => .compare c (left.recast m) (right.recast m)
  | .prefixOp op e => .prefixOp op (e.recast m)
  | .infixOp op left right => .infixOp op (left.recast m) (right.recast m)
  | .inList e candidates => .inList (e.recast m) (Expr.recastAll m candidates)
  | .inQuery e q => .inQuery (e.recast m) (q.recast m)
  | .existsIn q => .existsIn (q.recast m)
  | .between e low high => .between (e.recast m) (low.recast m) (high.recast m)
  | .function name arguments => .function name (Expr.recastAll m arguments)
  | .countAll => .countAll
  | .count e => .count (e.recast m)
  | .countDistinct e => .countDistinct (e.recast m)

def Expr.recastAll (m : Recast) : List Expr → List Expr
  | [] => []
  | e :: es => e.recast m :: Expr.recastAll m es

def Expr.recastOption (m : Recast) : Option Expr → Option Expr
  | none => none
  | some e => some (e.recast m)

def Item.recast (m : Recast) : Item → Item
  | .star id => .star (id.rescope m.scope)
  | .expr e aliasName => .expr (e.recast m) aliasName

def Item.recastAll (m : Recast) : List Item → List Item
  | [] => []
  | item :: items => item.recast m :: Item.recastAll m items

def SortTerm.recast (m : Recast) : SortTerm → SortTerm
  | ⟨e, direction⟩ => ⟨e.recast m, direction⟩

def SortTerm.recastAll (m : Recast) : List SortTerm → List SortTerm
  | [] => []
  | term :: terms => term.recast m :: SortTerm.recastAll m terms

def Source.recast (m : Recast) : Source → Source
  | .table name aliasName => .table name aliasName
  | .query q aliasName => .query (q.recast m) aliasName

def Source.recastNodes (m : Recast) : List (Node Source) → List (Node Source)
  | [] => []
  | .leaf source :: nodes => .leaf (source.recast m) :: Source.recastNodes m nodes
  | .join j :: nodes => .join (j.rescope m.scope) :: Source.recastNodes m nodes

def Query.recast (m : Recast) : Query → Query
  | ⟨selection, distinct, ⟨scope, nodes, root⟩, condition, grouping, having, ordering,
      reversed, limit⟩ =>
    ⟨Item.recastAll m selection, distinct,
      ⟨m.scope scope, Source.recastNodes m nodes, root.map (SourceId.rescope m.scope)⟩,
      Expr.recastOption m condition, Expr.recastAll m grouping, Expr.recastOption m having,
      SortTerm.recastAll m ordering, reversed, limit⟩

end

theorem eq_map_of_cons {α β : Type} {f : α → β} {g : List α → List β} (hnil : g [] = [])
    (hcons : ∀ a as, g (a :: as) = f a :: g as) (as : List α) : g as = as.map f := by
  induction as with
  | nil => exact hnil
  | cons a as ih => rw [hcons, ih, List.map_cons]

theorem Expr.recastAll_eq_map (m : Recast) (es : List Expr) :
    Expr.recastAll m es = es.map (Expr.recast m) :=
  eq_map_of_cons rfl (fun _ _ => rfl) es

theorem Expr.recastOption_eq_map (m : Recast) (e : Option Expr) :
    Expr.recastOption m e = e.map (Expr.recast m) := by
  cases e <;> rfl

theorem Item.recastAll_eq_map (m : Recast) (items : List Item) :
    Item.recastAll m items = items.map (Item.recast m) :=
  eq_map_of_cons rfl (fun _ _ => rfl) items

theorem SortTerm.recastAll_eq_map (m : Recast) (terms : List SortTerm) :
    SortTerm.recastAll m terms = terms.map (SortTerm.recast m) :=
  eq_map_of_cons rfl (fun _ _ => rfl) terms

theorem Source.recastNodes_eq_map (m : Recast) (nodes : List (Node Source)) :
    Source.recastNodes m nodes = nodes.map (Node.recast m.scope (Source.recast m)) :=
  eq_map_of_cons rfl (fun node _ => by cases node <;> rfl) nodes

theorem Query.recast_eq (m : Recast) (q : Query) :
    q.recast m = ⟨q.selection.map (Item.recast m), q.distinct,
      q.sources.recast m.scope (Source.recast m), q.condition.map (Expr.recast m),
      q.grouping.map (Expr.recast m), q.having.map (Expr.recast m),
      q.ordering.map (SortTerm.recast m), q.reversed, q.limit⟩ := by
  obtain ⟨_, _, ⟨_, _, _⟩, _, _, _, _, _, _⟩ := q
  simp only [Query.recast, Arena.recast, Expr.recastAll_eq_map, Expr.recastOption_eq_map,
    Item.recastAll_eq_map, SortTerm.recastAll_eq_map, Source.recastNodes_eq_map]

theorem Source.declaredName_recast (m : Recast) (s : Source) :
    (s.recast m).declaredName = s.declaredName := by
  cases s <;> rfl

theorem SourceId.rescope_inj {ρ : Nat → Nat} (hρ : Function.Injective ρ) {x y : SourceId} :
    x.rescope ρ = y.rescope ρ ↔ x = y := by
  cases x
  cases y
  simp [SourceId.rescope, hρ.eq_iff]

theorem Join.rescope_id (j : Join) : j.rescope id = j := rfl

theorem SourceId.rescope_id (x : SourceId) : x.rescope id = x := rfl

namespace Arena

variable {α β : Type} {ρ : Nat → Nat} {f : α → β}

theorem node_recast (a : Arena α) (x : SourceId) :
    (a.recast ρ f).node (x.rescope ρ) = (a.node x).map (Node.recast ρ f) := by
  show Outcome.element (a.nodes.map (Node.recast ρ f)) x.index = _
  rw [Arena.node, Outcome.element, Outcome.element, List.getElem?_map]
  cases a.nodes[x.index]? <;> rfl

theorem contains_recast (hρ : Function.Injective ρ) (a : Arena α) (x : SourceId) :
    (a.recast ρ f).contains (x.rescope ρ) = a.contains x := by
  have hs : (ρ x.scope == ρ a.scope) = (x.scope == a.scope) := by
    rw [Bool.eq_iff_iff, beq_iff_eq, beq_iff_eq, hρ.eq_iff]
  simp only [contains, recast, SourceId.rescope, hs, List.length_map]

theorem depth_recast (a : Arena α) : (a.recast ρ f).depth = a.depth := by
  simp [depth, recast]

theorem joins_recast (a : Arena α) : (a.recast ρ f).joins = a.joins.map (Join.rescope ρ) := by
  simp only [joins, recast, List.filterMap_map, List.map_filterMap]
  congr 1
  funext node
  cases node <;> rfl

theorem hasJoins_recast (a : Arena α) : (a.recast ρ f).hasJoins = a.hasJoins := by
  simp [hasJoins, joins_recast]

theorem leftmostWithin_recast (a : Arena α) (n : Nat) (x : SourceId) :
    (a.recast ρ f).leftmostWithin n (x.rescope ρ) =
      (a.leftmostWithin n x).map (SourceId.rescope ρ) := by
  induction n generalizing x with
  | zero => rfl
  | succ n ih =>
    rw [leftmostWithin, leftmostWithin, node_recast]
    rcases a.node x with _ | _ | j
    · rfl
    · rfl
    · exact ih j.base

theorem leftmost_recast (a : Arena α) (x : SourceId) :
    (a.recast ρ f).leftmost (x.rescope ρ) = (a.leftmost x).map (SourceId.rescope ρ) := by
  rw [leftmost, depth_recast]
  exact leftmostWithin_recast a _ x

theorem mem_map_rescope (hρ : Function.Injective ρ) (x : SourceId) (seen : List SourceId) :
    x.rescope ρ ∈ seen.map (SourceId.rescope ρ) ↔ x ∈ seen := by
  simp [List.mem_map, SourceId.rescope_inj hρ]

theorem visitWithin_recast (hρ : Function.Injective ρ) (a : Arena α) (n : Nat) (x : SourceId)
    (seen : List SourceId) :
    (a.recast ρ f).visitWithin n (x.rescope ρ) (seen.map (SourceId.rescope ρ)) =
      (a.visitWithin n x seen).map (List.map (SourceId.rescope ρ)) := by
  induction n generalizing x seen with
  | zero => rfl
  | succ n ih =>
    rw [visitWithin, visitWithin, node_recast]
    rcases a.node x with _ | _ | j
    · rfl
    · show Except.ok _ = Except.ok _
      simp only [mem_map_rescope hρ]
      split <;> simp
    · show ((a.recast ρ f).visitWithin n (j.base.rescope ρ) _ >>= fun seen =>
        (a.recast ρ f).visitWithin n (j.origin.rescope ρ) seen >>= fun seen =>
          (a.recast ρ f).visitWithin n (j.target.rescope ρ) seen) =
        ((a.visitWithin n j.base seen >>= fun seen => a.visitWithin n j.origin seen >>= fun seen =>
          a.visitWithin n j.target seen).map _)
      rw [ih]
      rcases a.visitWithin n j.base seen with _ | seen
      · rfl
      · show ((a.recast ρ f).visitWithin n (j.origin.rescope ρ) (seen.map _) >>= _) =
          (a.visitWithin n j.origin seen >>= _).map _
        rw [ih]
        rcases a.visitWithin n j.origin seen with _ | seen
        · rfl
        · exact ih j.target seen

theorem reachable_recast (hρ : Function.Injective ρ) (a : Arena α) :
    (a.recast ρ f).reachable = a.reachable.map (List.map (SourceId.rescope ρ)) := by
  rw [reachable, reachable, depth_recast, show (a.recast ρ f).root = a.root.map _ from rfl]
  rcases a.root with _ | root
  · rfl
  · exact visitWithin_recast hρ a a.depth root []

end Arena

end RelQuery
