import RelQuery.Proofs.Query.Recast

/-!
# Values and raw parts of a query

The values of a query in the order of its text, of which those with a placeholder are its
arguments. Null is written as a word, and membership in an empty list is written without its
operand; every other value is bound. Raw parts are written as they are, without quotes.
-/

set_option autoImplicit false

namespace RelQuery

def Arena.gatherWithin {α : Type} (a : Arena (List α)) : Nat → SourceId → List α
  | 0, _ => []
  | depth + 1, id =>
    match a.node id with
    | .ok (.join j) => a.gatherWithin depth j.base ++ a.gatherWithin depth j.target
    | .ok (.leaf held) => held
    | .error _ => []

def Arena.gather {α : Type} (a : Arena (List α)) : List α :=
  match a.root with
  | some id => a.gatherWithin a.depth id
  | none => []

abbrev Slots := List (Value × Bool)

namespace Slots

def bound (slots : Slots) : List Value :=
  (slots.filter (·.2)).map (·.1)

def unbind (slots : Slots) : Slots :=
  slots.map fun slot => (slot.1, false)

theorem bound_append (slots rest : Slots) : bound (slots ++ rest) = bound slots ++ bound rest := by
  simp [bound]

theorem bound_unbind (slots : Slots) : bound slots.unbind = [] := by
  simp [bound, unbind]

end Slots

mutual

def Expr.slots : Expr → Slots
  | .literal _ => []
  | .value v => [(v, !v.isNull)]
  | .column _ _ => []
  | .collate e _ => e.slots
  | .not e => e.slots
  | .compare _ left right => left.slots ++ right.slots
  | .prefixOp _ e => e.slots
  | .infixOp _ left right => left.slots ++ right.slots
  | .inList e candidates =>
    if candidates.isEmpty then e.slots.unbind else e.slots ++ Expr.slotsAll candidates
  | .inQuery e q => e.slots ++ q.slots
  | .existsIn q => q.slots
  | .between e low high => e.slots ++ low.slots ++ high.slots
  | .function _ arguments => Expr.slotsAll arguments
  | .countAll => []
  | .count e => e.slots
  | .countDistinct e => e.slots

def Expr.slotsAll : List Expr → Slots
  | [] => []
  | e :: es => e.slots ++ Expr.slotsAll es

def Expr.slotsOption : Option Expr → Slots
  | none => []
  | some e => e.slots

def Item.slots : Item → Slots
  | .star _ => []
  | .expr e _ => e.slots

def Item.slotsAll : List Item → Slots
  | [] => []
  | item :: items => item.slots ++ Item.slotsAll items

def SortTerm.slots : SortTerm → Slots
  | ⟨e, _⟩ => e.slots

def SortTerm.slotsAll : List SortTerm → Slots
  | [] => []
  | term :: terms => term.slots ++ SortTerm.slotsAll terms

def Source.slots : Source → Slots
  | .table _ _ => []
  | .query q _ => q.slots

def Source.nodeSlots : List (Node Source) → List (Node Slots)
  | [] => []
  | .leaf source :: nodes => .leaf source.slots :: Source.nodeSlots nodes
  | .join j :: nodes => .join j :: Source.nodeSlots nodes

def Query.slots : Query → Slots
  | ⟨selection, _, ⟨scope, nodes, root⟩, condition, grouping, having, ordering, _, _⟩ =>
    Item.slotsAll selection ++ Arena.gather ⟨scope, Source.nodeSlots nodes, root⟩ ++
      Expr.slotsOption condition ++ Expr.slotsAll grouping ++ Expr.slotsOption having ++
      SortTerm.slotsAll ordering

end

def Arena.slots (a : Arena Source) : Arena Slots :=
  ⟨a.scope, Source.nodeSlots a.nodes, a.root⟩

theorem Query.slots_eq (q : Query) :
    q.slots = Item.slotsAll q.selection ++ q.sources.slots.gather ++
      Expr.slotsOption q.condition ++ Expr.slotsAll q.grouping ++ Expr.slotsOption q.having ++
      SortTerm.slotsAll q.ordering := by
  obtain ⟨_, _, ⟨_, _, _⟩, _, _, _, _, _, _⟩ := q
  rfl

theorem Source.nodeSlots_eq (nodes : List (Node Source)) :
    Source.nodeSlots nodes = nodes.map (Node.recast id Source.slots) :=
  eq_map_of_cons rfl (fun node _ => by cases node <;> rfl) nodes

theorem Arena.node_slots (a : Arena Source) (x : SourceId) :
    a.slots.node x = (a.node x).map (Node.recast id Source.slots) := by
  rw [slots, Source.nodeSlots_eq]
  exact Arena.node_recast a x

theorem Arena.gatherWithin_recast {α β : Type} {ρ : Nat → Nat} (f : α → β)
    (a : Arena (List α)) (n : Nat) (x : SourceId) :
    (a.recast ρ (List.map f)).gatherWithin n (x.rescope ρ) = (a.gatherWithin n x).map f := by
  induction n generalizing x with
  | zero => rfl
  | succ n ih =>
    rw [gatherWithin, gatherWithin, node_recast]
    rcases a.node x with _ | _ | j
    · rfl
    · rfl
    · show (a.recast ρ (List.map f)).gatherWithin n (j.base.rescope ρ) ++
        (a.recast ρ (List.map f)).gatherWithin n (j.target.rescope ρ) = _
      rw [ih, ih, List.map_append]

theorem Arena.gather_recast {α β : Type} {ρ : Nat → Nat} (f : α → β) (a : Arena (List α)) :
    (a.recast ρ (List.map f)).gather = a.gather.map f := by
  rw [gather, gather, depth_recast, show (a.recast ρ (List.map f)).root = a.root.map _ from rfl]
  rcases a.root with _ | x
  · rfl
  · exact gatherWithin_recast f a _ x

def Expr.arguments (e : Expr) : List Value := e.slots.bound

def Query.arguments (q : Query) : List Value := q.slots.bound

/-- All values of a query, those in the place of a null included. -/
def Query.values (q : Query) : List Value := q.slots.map (·.1)

mutual

/-- The parts of an expression that are written as they are: literals, operators, collations and
capitalised function names. -/
def Expr.rawParts : Expr → List String
  | .literal sql => [sql]
  | .value _ => []
  | .column _ _ => []
  | .collate e collation => e.rawParts ++ [collation]
  | .not e => e.rawParts
  | .compare _ left right => left.rawParts ++ right.rawParts
  | .prefixOp op e => op :: e.rawParts
  | .infixOp op left right => left.rawParts ++ op :: right.rawParts
  | .inList e candidates => e.rawParts ++ Expr.rawPartsAll candidates
  | .inQuery e q => e.rawParts ++ q.rawParts
  | .existsIn q => q.rawParts
  | .between e low high => e.rawParts ++ low.rawParts ++ high.rawParts
  | .function name arguments => Text.capitals name :: Expr.rawPartsAll arguments
  | .countAll => []
  | .count e => e.rawParts
  | .countDistinct e => e.rawParts

def Expr.rawPartsAll : List Expr → List String
  | [] => []
  | e :: es => e.rawParts ++ Expr.rawPartsAll es

def Expr.rawPartsOption : Option Expr → List String
  | none => []
  | some e => e.rawParts

def Item.rawParts : Item → List String
  | .star _ => []
  | .expr e _ => e.rawParts

def Item.rawPartsAll : List Item → List String
  | [] => []
  | item :: items => item.rawParts ++ Item.rawPartsAll items

def SortTerm.rawParts : SortTerm → List String
  | ⟨e, _⟩ => e.rawParts

def SortTerm.rawPartsAll : List SortTerm → List String
  | [] => []
  | term :: terms => term.rawParts ++ SortTerm.rawPartsAll terms

def Source.rawParts : Source → List String
  | .table _ _ => []
  | .query q _ => q.rawParts

def Source.rawPartsNodes : List (Node Source) → List String
  | [] => []
  | .leaf source :: nodes => source.rawParts ++ Source.rawPartsNodes nodes
  | .join _ :: nodes => Source.rawPartsNodes nodes

def Query.rawParts : Query → List String
  | ⟨selection, _, ⟨_, nodes, _⟩, condition, grouping, having, ordering, _, _⟩ =>
    Item.rawPartsAll selection ++ Source.rawPartsNodes nodes ++ Expr.rawPartsOption condition ++
      Expr.rawPartsAll grouping ++ Expr.rawPartsOption having ++ SortTerm.rawPartsAll ordering

end

theorem Expr.rawParts_of_mem {es : List Expr} {e : Expr} (he : e ∈ es) {s : String}
    (hs : s ∈ e.rawParts) : s ∈ Expr.rawPartsAll es := by
  induction es with
  | nil => cases he
  | cons e' es ih =>
    rcases List.mem_cons.mp he with rfl | he
    · exact List.mem_append_left _ hs
    · exact List.mem_append_right _ (ih he)

theorem Query.rawParts_eq (q : Query) :
    q.rawParts = Item.rawPartsAll q.selection ++ Source.rawPartsNodes q.sources.nodes ++
      Expr.rawPartsOption q.condition ++ Expr.rawPartsAll q.grouping ++
      Expr.rawPartsOption q.having ++ SortTerm.rawPartsAll q.ordering := by
  obtain ⟨_, _, ⟨_, _, _⟩, _, _, _, _, _, _⟩ := q
  rfl

end RelQuery
