import RelQuery.Proofs.Query.Arguments

/-!
# Values in the places of others

A query with other values in the places of its own, null for null, binds those of them that stand
where the query binds.
-/

set_option autoImplicit false

namespace RelQuery

def Recast.revalue (g : Value → Value) (ρ : Nat → Nat) : Recast where
  value := fun v => .value (g v)
  scope := ρ

def Slots.revalue (g : Value → Value) (slots : Slots) : Slots :=
  slots.map fun slot => (g slot.1, slot.2)

namespace Slots

variable {g : Value → Value}

theorem revalue_append (slots rest : Slots) :
    revalue g (slots ++ rest) = revalue g slots ++ revalue g rest := by
  simp [revalue]

theorem revalue_unbind (slots : Slots) :
    revalue g slots.unbind = unbind (revalue g slots) := by
  simp [revalue, unbind]

def places (slots : Slots) : List Nat :=
  (List.range slots.length).filter fun i => (slots[i]?).any (·.2)

theorem places_revalue (slots : Slots) : places (revalue g slots) = places slots := by
  simp only [places, revalue, List.length_map, List.getElem?_map, Option.any_map]

theorem places_pairwise (slots : Slots) : (places slots).Pairwise (· < ·) :=
  List.pairwise_lt_range.filter _

theorem places_cons (slot : Value × Bool) (slots : Slots) :
    places (slot :: slots) = (if slot.2 then [0] else []) ++ (places slots).map (· + 1) := by
  rw [places, List.length_cons, List.range_succ_eq_map, List.filter_cons, List.filter_map]
  cases hb : slot.2 <;> simp [places, Function.comp_def, hb]

theorem bound_eq_places (slots : Slots) :
    (bound slots).map some = (places slots).map fun p => (slots.map (·.1))[p]? := by
  induction slots with
  | nil => rfl
  | cons slot slots ih =>
    rw [places_cons, List.map_append, List.map_map]
    have hrest : (places slots).map ((fun p => ((slot :: slots).map (·.1))[p]?) ∘ (· + 1)) =
        (bound slots).map some := by
      rw [ih]
      simp [Function.comp_def]
    rw [hrest]
    cases hb : slot.2 <;> simp [bound, hb]

end Slots

section

variable {g : Value → Value} {ρ : Nat → Nat}

mutual

theorem Expr.slots_revalue (hg : ∀ v, (g v).isNull = v.isNull) :
    (e : Expr) → (e.recast (.revalue g ρ)).slots = Slots.revalue g e.slots
  | .literal _ => rfl
  | .value v => by
    show [(g v, !(g v).isNull)] = [(g v, !v.isNull)]
    rw [hg]
  | .column _ _ => rfl
  | .collate e _ => Expr.slots_revalue hg e
  | .not e => Expr.slots_revalue hg e
  | .compare _ left right => by
    rw [Expr.slots, Slots.revalue_append, ← Expr.slots_revalue hg left,
      ← Expr.slots_revalue hg right]
    rfl
  | .prefixOp _ e => Expr.slots_revalue hg e
  | .infixOp _ left right => by
    rw [Expr.slots, Slots.revalue_append, ← Expr.slots_revalue hg left,
      ← Expr.slots_revalue hg right]
    rfl
  | .inList e [] => by
    show (e.recast (.revalue g ρ)).slots.unbind = Slots.revalue g e.slots.unbind
    rw [Expr.slots_revalue hg e, Slots.revalue_unbind]
  | .inList e (candidate :: candidates) => by
    show (e.recast (.revalue g ρ)).slots ++
      Expr.slotsAll (Expr.recastAll (.revalue g ρ) (candidate :: candidates)) =
        Slots.revalue g (e.slots ++ Expr.slotsAll (candidate :: candidates))
    rw [Expr.slots_revalue hg e, Expr.slotsAll_revalue hg (candidate :: candidates),
      Slots.revalue_append]
  | .inQuery e q => by
    rw [Expr.slots, Slots.revalue_append, ← Expr.slots_revalue hg e, ← Query.slots_revalue hg q]
    rfl
  | .existsIn q => Query.slots_revalue hg q
  | .between e low high => by
    rw [Expr.slots, Slots.revalue_append, Slots.revalue_append, ← Expr.slots_revalue hg e,
      ← Expr.slots_revalue hg low, ← Expr.slots_revalue hg high]
    rfl
  | .function _ arguments => Expr.slotsAll_revalue hg arguments
  | .countAll => rfl
  | .count e => Expr.slots_revalue hg e
  | .countDistinct e => Expr.slots_revalue hg e

theorem Expr.slotsAll_revalue (hg : ∀ v, (g v).isNull = v.isNull) :
    (es : List Expr) → Expr.slotsAll (Expr.recastAll (.revalue g ρ) es) =
      Slots.revalue g (Expr.slotsAll es)
  | [] => rfl
  | e :: es => by
    rw [Expr.recastAll, Expr.slotsAll, Expr.slotsAll, Slots.revalue_append,
      Expr.slots_revalue hg e, Expr.slotsAll_revalue hg es]

theorem Expr.slotsOption_revalue (hg : ∀ v, (g v).isNull = v.isNull) :
    (e : Option Expr) → Expr.slotsOption (Expr.recastOption (.revalue g ρ) e) =
      Slots.revalue g (Expr.slotsOption e)
  | none => rfl
  | some e => Expr.slots_revalue hg e

theorem Item.slots_revalue (hg : ∀ v, (g v).isNull = v.isNull) :
    (item : Item) → (item.recast (.revalue g ρ)).slots = Slots.revalue g item.slots
  | .star _ => rfl
  | .expr e _ => Expr.slots_revalue hg e

theorem Item.slotsAll_revalue (hg : ∀ v, (g v).isNull = v.isNull) :
    (items : List Item) → Item.slotsAll (Item.recastAll (.revalue g ρ) items) =
      Slots.revalue g (Item.slotsAll items)
  | [] => rfl
  | item :: items => by
    rw [Item.recastAll, Item.slotsAll, Item.slotsAll, Slots.revalue_append,
      Item.slots_revalue hg item, Item.slotsAll_revalue hg items]

theorem SortTerm.slots_revalue (hg : ∀ v, (g v).isNull = v.isNull) :
    (term : SortTerm) → (term.recast (.revalue g ρ)).slots = Slots.revalue g term.slots
  | ⟨e, _⟩ => Expr.slots_revalue hg e

theorem SortTerm.slotsAll_revalue (hg : ∀ v, (g v).isNull = v.isNull) :
    (terms : List SortTerm) → SortTerm.slotsAll (SortTerm.recastAll (.revalue g ρ) terms) =
      Slots.revalue g (SortTerm.slotsAll terms)
  | [] => rfl
  | term :: terms => by
    rw [SortTerm.recastAll, SortTerm.slotsAll, SortTerm.slotsAll, Slots.revalue_append,
      SortTerm.slots_revalue hg term, SortTerm.slotsAll_revalue hg terms]

theorem Source.slots_revalue (hg : ∀ v, (g v).isNull = v.isNull) :
    (s : Source) → (s.recast (.revalue g ρ)).slots = Slots.revalue g s.slots
  | .table _ _ => rfl
  | .query q _ => Query.slots_revalue hg q

theorem Source.nodeSlots_revalue (hg : ∀ v, (g v).isNull = v.isNull) :
    (nodes : List (Node Source)) →
      Source.nodeSlots (Source.recastNodes (.revalue g ρ) nodes) =
        (Source.nodeSlots nodes).map (Node.recast ρ (Slots.revalue g))
  | [] => rfl
  | .leaf s :: nodes => by
    rw [Source.recastNodes, Source.nodeSlots, Source.nodeSlots, Source.slots_revalue hg s,
      Source.nodeSlots_revalue hg nodes]
    rfl
  | .join j :: nodes => by
    rw [Source.recastNodes, Source.nodeSlots, Source.nodeSlots, Source.nodeSlots_revalue hg nodes]
    rfl

theorem Query.slots_revalue (hg : ∀ v, (g v).isNull = v.isNull) :
    (q : Query) → (q.recast (.revalue g ρ)).slots = Slots.revalue g q.slots
  | ⟨selection, _, ⟨scope, nodes, root⟩, condition, grouping, having, ordering, _, _⟩ => by
    have hleaves : Arena.gather
        ⟨ρ scope, Source.nodeSlots (Source.recastNodes (.revalue g ρ) nodes),
          root.map (SourceId.rescope ρ)⟩ =
          Slots.revalue g (Arena.gather ⟨scope, Source.nodeSlots nodes, root⟩) := by
      rw [Source.nodeSlots_revalue hg nodes]
      exact Arena.gather_recast (fun slot => (g slot.1, slot.2))
        ⟨scope, Source.nodeSlots nodes, root⟩
    rw [Query.slots, Slots.revalue_append, Slots.revalue_append, Slots.revalue_append,
      Slots.revalue_append, Slots.revalue_append, ← Item.slotsAll_revalue hg selection, ← hleaves,
      ← Expr.slotsOption_revalue hg condition, ← Expr.slotsAll_revalue hg grouping,
      ← Expr.slotsOption_revalue hg having, ← SortTerm.slotsAll_revalue hg ordering]
    rfl

end

end

end RelQuery
