import RelQuery.Proofs.Query.Blocks
import RelQuery.Proofs.Query.Recast

/-!
# Widths and shapes of recast queries

What a query shows depends on the places of its stars and on its associations, and neither on its
values nor on the numbers of its scopes.
-/

set_option autoImplicit false

namespace RelQuery

variable {ρ : Nat → Nat} {m : Recast}

namespace Arena

theorem widthWithin_recast (a : Arena (Outcome Nat)) (n : Nat) (x : SourceId) :
    (a.recast ρ id).widthWithin n (x.rescope ρ) = a.widthWithin n x := by
  induction n generalizing x with
  | zero => rfl
  | succ n ih =>
    rw [widthWithin, widthWithin, node_recast]
    rcases a.node x with _ | _ | j
    · rfl
    · rfl
    · show ((a.recast ρ id).widthWithin n (j.base.rescope ρ) >>= fun base =>
        (a.recast ρ id).widthWithin n (j.target.rescope ρ) >>= fun target => _) = _
      rw [ih, ih]
      rfl

theorem width_recast (a : Arena (Outcome Nat)) (x : SourceId) :
    (a.recast ρ id).width (x.rescope ρ) = a.width x := by
  rw [width, width, depth_recast]
  exact widthWithin_recast a _ x

end Arena

theorem Item.width_recast (a : Arena (Outcome Nat)) (item : Item) :
    (item.recast m).width (a.recast m.scope id) = item.width a := by
  cases item with
  | star x => exact Arena.width_recast a x
  | expr e aliasName => rfl

theorem Item.totalWidth_recast (a : Arena (Outcome Nat)) (items : List Item) (n : Nat) :
    totalWidth (a.recast m.scope id) (items.map (Item.recast m)) n = totalWidth a items n := by
  induction items generalizing n with
  | nil => rfl
  | cons item items ih =>
    rw [List.map_cons, totalWidth, totalWidth, Item.width_recast]
    rcases item.width a with _ | width
    · rfl
    · exact ih (n + width)

theorem Query.width_of_widths {schema : Schema} {q : Query}
    (hw : (q.recast m).sources.widths schema = (q.sources.widths schema).recast m.scope id) :
    (q.recast m).width schema = q.width schema := by
  rw [width_eq, width_eq, hw]
  have hroot : (q.recast m).sources.root = q.sources.root.map (SourceId.rescope m.scope) := by
    rw [recast_eq]
    rfl
  have hselection : (q.recast m).selection = q.selection.map (Item.recast m) := by
    rw [recast_eq]
  rw [hroot, hselection, List.isEmpty_map, Item.totalWidth_recast]
  rcases q.sources.root with _ | x
  · rfl
  · show (if q.selection.isEmpty then ((q.sources.widths schema).recast m.scope id).width
      (x.rescope m.scope) else _) = _
    rw [Arena.width_recast]

mutual

theorem Source.width_recast (schema : Schema) :
    (s : Source) → (s.recast m).width schema = s.width schema
  | .table _ _ => rfl
  | .query q _ => Query.width_recast schema q

theorem Source.nodeWidths_recast (schema : Schema) :
    (nodes : List (Node Source)) → Source.nodeWidths schema (Source.recastNodes m nodes) =
      (Source.nodeWidths schema nodes).map (Node.recast m.scope id)
  | [] => rfl
  | .leaf s :: nodes => by
    rw [Source.recastNodes, Source.nodeWidths, Source.nodeWidths, Source.width_recast schema s,
      Source.nodeWidths_recast schema nodes]
    rfl
  | .join j :: nodes => by
    rw [Source.recastNodes, Source.nodeWidths, Source.nodeWidths,
      Source.nodeWidths_recast schema nodes]
    rfl

theorem Query.width_recast (schema : Schema) :
    (q : Query) → (q.recast m).width schema = q.width schema
  | ⟨selection, distinct, ⟨scope, nodes, root⟩, condition, grouping, having, ordering,
      reversed, limit⟩ => by
    refine Query.width_of_widths ?_
    show (⟨m.scope scope, Source.nodeWidths schema (Source.recastNodes m nodes), _⟩ : Arena _) = _
    rw [Source.nodeWidths_recast schema nodes]
    rfl

end

theorem Arena.widths_recast (schema : Schema) (a : Arena Source) :
    (a.recast m.scope (Source.recast m)).widths schema =
      (a.widths schema).recast m.scope id := by
  rw [widths, recast, ← Source.recastNodes_eq_map, Source.nodeWidths_recast]
  rfl

theorem Source.nodeWidths_eq (schema : Schema) (nodes : List (Node Source)) :
    Source.nodeWidths schema nodes = nodes.map (Node.recast id (Source.width schema)) :=
  eq_map_of_cons rfl (fun node _ => by cases node <;> rfl) nodes

theorem Arena.widths_eq (schema : Schema) (a : Arena Source) :
    a.widths schema = a.recast id (Source.width schema) := by
  rw [widths, Source.nodeWidths_eq, recast, show (SourceId.rescope id) = id from rfl, Option.map_id]
  rfl

theorem Arena.node_widths (schema : Schema) (a : Arena Source) (x : SourceId) :
    (a.widths schema).node x = (a.node x).map (Node.recast id (Source.width schema)) := by
  rw [widths_eq]
  exact node_recast a x

namespace Query

theorem source?_recast (q : Query) :
    (q.recast m).source? = q.source?.map (SourceId.rescope m.scope) := by
  rw [recast_eq, source?, source?]
  show (q.sources.root.map (SourceId.rescope m.scope)).bind _ = (q.sources.root.bind _).map _
  rcases q.sources.root with _ | root
  · rfl
  · show ((q.sources.recast m.scope (Source.recast m)).leftmost (root.rescope m.scope)).toOption =
      (q.sources.leftmost root).toOption.map _
    rw [Arena.leftmost_recast]
    rcases q.sources.leftmost root with _ | _ <;> rfl

theorem offsetsFrom_recast (a : Arena (Outcome Nat)) (items : List Item) (start : Nat) :
    offsetsFrom (a.recast m.scope id) (items.map (Item.recast m)) start =
      offsetsFrom a items start := by
  induction items generalizing start with
  | nil => rfl
  | cons item items ih =>
    rw [List.map_cons, offsetsFrom, offsetsFrom, Item.width_recast]
    simp only [ih]

theorem stillSelects_recast (hm : Function.Injective m.scope) (q : Query) (j : Join) :
    (q.recast m).stillSelects (j.rescope m.scope) = q.stillSelects j := by
  rw [recast_eq, stillSelects, stillSelects]
  have hitem : (q.selection.map (Item.recast m))[(j.rescope m.scope).selectionIndex]? =
      q.selection[j.selectionIndex]?.map (Item.recast m) := List.getElem?_map
  simp only [hitem]
  rcases q.selection[j.selectionIndex]? with _ | x | _
  · rfl
  · show (x.rescope m.scope == j.target.rescope m.scope) = (x == j.target)
    rw [Bool.eq_iff_iff, beq_iff_eq, beq_iff_eq, SourceId.rescope_inj hm]
  · rfl

theorem variantsOfJoins_recast (a : Arena (Outcome Nat)) (offsets : List Nat)
    {inner inner' : SourceId → Outcome (List (String × Shape))}
    (hi : ∀ x : SourceId, inner' (x.rescope ρ) = inner x) (js : List Join) :
    variantsOfJoins (a.recast ρ id) offsets inner' (js.map (Join.rescope ρ)) =
      variantsOfJoins a offsets inner js := by
  induction js with
  | nil => rfl
  | cons j js ih =>
    rw [List.map_cons, variantsOfJoins, variantsOfJoins, ih]
    show (Outcome.element offsets j.selectionIndex >>= fun start =>
      (a.recast ρ id).width (j.target.rescope ρ) >>= fun width =>
        inner' (j.target.rescope ρ) >>= fun nested => _) = _
    rw [Arena.width_recast, hi]
    rfl

theorem variantsOf_recast (hm : Function.Injective m.scope) (q : Query) (a : Arena (Outcome Nat))
    (offsets : List Nat) (n : Nat) (x : SourceId) :
    (q.recast m).variantsOf (a.recast m.scope id) offsets n (x.rescope m.scope) =
      q.variantsOf a offsets n x := by
  induction n generalizing x with
  | zero => rfl
  | succ n ih =>
    have hjoins : (q.recast m).sources.joins = q.sources.joins.map (Join.rescope m.scope) := by
      rw [recast_eq]
      exact Arena.joins_recast q.sources
    rw [variantsOf, variantsOf, hjoins, List.filter_map, ← variantsOfJoins_recast a offsets ih]
    have hf : ∀ j : Join, (decide ((j.rescope m.scope).origin = x.rescope m.scope) &&
        (q.recast m).stillSelects (j.rescope m.scope)) =
          (decide (j.origin = x) && q.stillSelects j) := by
      intro j
      have ho : (j.rescope m.scope).origin = x.rescope m.scope ↔ j.origin = x :=
        SourceId.rescope_inj hm
      rw [stillSelects_recast hm, decide_eq_decide.mpr ho]
    simp only [Function.comp_def, hf]

theorem shape?_recast (hm : Function.Injective m.scope) (schema : Schema) (q : Query) :
    (q.recast m).shape? schema = q.shape? schema := by
  have hsources : (q.recast m).sources = q.sources.recast m.scope (Source.recast m) := by
    rw [recast_eq]
  have hselection : (q.recast m).selection = q.selection.map (Item.recast m) := by
    rw [recast_eq]
  have hwidths : (q.recast m).sources.widths schema =
      (q.sources.widths schema).recast m.scope id := by
    rw [hsources, Arena.widths_recast]
  rw [shape?, shape?, source?_recast, hwidths, hsources, Arena.hasJoins_recast, hselection,
    Arena.depth_recast]
  rcases q.source? with _ | x
  · rfl
  · simp only [Option.map_some, offsetsFrom_recast, variantsOf_recast hm]

end Query

end RelQuery
