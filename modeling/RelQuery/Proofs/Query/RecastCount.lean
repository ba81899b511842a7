import RelQuery.Proofs.Query.Calls
import RelQuery.Proofs.Query.Recast
import RelQuery.Query.Render
import RelQuery.Query.Variants

/-!
# Count queries of recast queries

The count query of a recast query is the recast of its count query. The scope that a count query
takes for a source of its own is seen nowhere.
-/

set_option autoImplicit false

namespace RelQuery.Query

variable {m : Recast}

theorem unordered_recast (q : Query) : (q.recast m).unordered = q.unordered.recast m := by
  rw [recast_eq, recast_eq]
  rfl

theorem countWrapped_recast (q : Query) (scope : Nat) :
    (q.recast m).countWrapped (m.scope scope) = (q.countWrapped scope).recast m := by
  rw [countWrapped, unordered_recast]
  rfl

theorem countBy_recast (q : Query) (e : Expr) :
    (q.recast m).countBy (e.recast m) = (q.countBy e).recast m := by
  rw [countBy, countBy, unordered_recast, recast_eq, recast_eq]
  rfl

theorem rootTable?_recast (q : Query) :
    (q.recast m).rootTable? = q.rootTable?.map (SourceId.rescope m.scope) := by
  have hroot : (q.sources.recast m.scope (Source.recast m)).root =
      q.sources.root.map (SourceId.rescope m.scope) := rfl
  rw [recast_eq, rootTable?, rootTable?, hroot]
  rcases q.sources.root with _ | root
  · rfl
  · simp only [Option.map_some, Arena.node_recast]
    rcases q.sources.node root with _ | ⟨_ | _⟩ | _ <;> rfl

theorem countQueryIn_recast (hm : Function.Injective m.scope) (q : Query) (scope : Nat) :
    (q.recast m).countQueryIn (m.scope scope) = (q.countQueryIn scope).recast m := by
  have hgrouping : (q.recast m).grouping.isEmpty = q.grouping.isEmpty := by
    rw [recast_eq]
    exact List.isEmpty_map
  have hlimit : (q.recast m).limit = q.limit := by rw [recast_eq]
  have hdistinct : (q.recast m).distinct = q.distinct := by rw [recast_eq]
  have hselection : (q.recast m).selection = q.selection.map (Item.recast m) := by rw [recast_eq]
  have hrows : ∀ r : Query, r = q.recast m → ({ r with distinct := false } : Query) =
      ({ q with distinct := false } : Query).recast m := by
    rintro _ rfl
    rw [recast_eq, recast_eq]
  have hall : (q.recast m).countBy .countAll = (q.countBy .countAll).recast m :=
    countBy_recast q .countAll
  rw [countQueryIn, countQueryIn, hrows _ rfl, hgrouping, hlimit, rootTable?_recast, hselection,
    hdistinct, countWrapped_recast, hall]
  split
  · rfl
  rcases q.rootTable? with _ | root
  · rfl
  rcases q.selection with _ | ⟨x | ⟨e, aliasName⟩, _ | _⟩
  · exact (apply_ite (recast m) (q.distinct = true) _ _).symm
  · have hid : x.rescope m.scope = root.rescope m.scope ↔ x = root := SourceId.rescope_inj hm
    show (if x.rescope m.scope = root.rescope m.scope ∧ q.distinct = false then _ else _) = _
    simp only [hid]
    exact (apply_ite (recast m) (x = root ∧ q.distinct = false) _ _).symm
  · exact (apply_ite (recast m) (q.distinct = true) _ _).symm
  · show (if q.distinct = true then
      (({ q with distinct := false } : Query).recast m).countBy (.countDistinct (e.recast m))
        else _) = _
    rw [show Expr.countDistinct (e.recast m) = (Expr.countDistinct e).recast m from rfl,
      countBy_recast]
    exact (apply_ite (recast m) (q.distinct = true) _ _).symm
  · exact (apply_ite (recast m) (q.distinct = true) _ _).symm

theorem countQueryIn_scope {α : Type} {f : Query → α} {q : Query}
    (hf : ∀ a b : Nat, f (q.countWrapped a) = f (q.countWrapped b)) (a b : Nat) :
    f (q.countQueryIn a) = f (q.countQueryIn b) := by
  rcases q.countQueryIn_cases with h | h | ⟨e, aliasName, -, h⟩
  · rw [h, h, hf a b]
  · rw [h, h]
  · rw [h, h]

theorem render_countQueryIn_scope (schema : Schema) (q : Query) (a b : Nat) :
    (q.countQueryIn a).render schema = (q.countQueryIn b).render schema :=
  countQueryIn_scope (fun _ _ => rfl) a b

theorem width_countQueryIn_scope (schema : Schema) (q : Query) (a b : Nat) :
    (q.countQueryIn a).width schema = (q.countQueryIn b).width schema :=
  countQueryIn_scope (fun _ _ => rfl) a b

theorem shape?_countQueryIn_scope (schema : Schema) (q : Query) (a b : Nat) :
    (q.countQueryIn a).shape? schema = (q.countQueryIn b).shape? schema :=
  countQueryIn_scope (fun _ _ => rfl) a b

end RelQuery.Query
