import RelQuery.Proofs.Query.RecastWidth

/-!
# Operations on recast queries

Each operation that builds a query from others can be done before or after a recast. One that
starts a query takes the new number of its scope.
-/

set_option autoImplicit false

namespace RelQuery

variable {m : Recast}

theorem Expr.minus_recast (e : Expr) : (e.recast m).minus = e.minus.recast m := rfl

theorem Expr.binary_recast (op : BinaryOp) (left right : Expr) :
    Expr.binary op (left.recast m) (right.recast m) = (Expr.binary op left right).recast m := rfl

theorem SortTerm.reversed_recast (term : SortTerm) :
    (term.recast m).reversed = term.reversed.recast m := by
  cases term
  rfl

namespace Query

theorem new_recast (scope : Nat) : new (m.scope scope) = (new scope).recast m := rfl

theorem table_recast (scope : Nat) (name : String) :
    table (m.scope scope) name = (table scope name).recast m := rfl

theorem ofQuery_recast (scope : Nat) (q : Query) (aliasName : Option String) :
    ofQuery (m.scope scope) (q.recast m) aliasName = (ofQuery scope q aliasName).recast m := rfl

theorem setAlias_recast (aliasName : String) (node : Node Source) :
    setAlias aliasName (node.recast m.scope (Source.recast m)) =
      (setAlias aliasName node).recast m.scope (Source.recast m) := by
  rcases node with ⟨_ | _⟩ | _ <;> rfl

theorem aliased_recast (q : Query) (aliasName : String) :
    (q.recast m).aliased aliasName = (q.aliased aliasName).recast m := by
  rw [aliased, aliased, source?_recast]
  rcases q.source? with _ | x
  · rfl
  · have hnodes : (q.sources.nodes.map (Node.recast m.scope (Source.recast m))).modify x.index
        (setAlias aliasName) =
          (q.sources.nodes.modify x.index (setAlias aliasName)).map
            (Node.recast m.scope (Source.recast m)) := by
      refine List.ext_getElem? fun i => ?_
      rw [List.getElem?_map, List.getElem?_modify, List.getElem?_map, List.getElem?_modify]
      cases q.sources.nodes[i]? with
      | none => rfl
      | some node =>
        by_cases hi : x.index = i
        · simp [hi, setAlias_recast]
        · simp [hi]
    simp only [Option.map_some, recast_eq, SourceId.rescope, Arena.recast, hnodes]

theorem select_recast (q : Query) (selection : List Item) :
    (q.recast m).select (selection.map (Item.recast m)) = (q.select selection).recast m := by
  rw [recast_eq, recast_eq]
  rfl

theorem distinctRows_recast (q : Query) :
    (q.recast m).distinctRows = q.distinctRows.recast m := by
  rw [recast_eq, recast_eq]
  rfl

theorem conjoin_recast (existing : Option Expr) (e : Expr) :
    conjoin (existing.map (Expr.recast m)) (e.recast m) = (conjoin existing e).recast m := by
  cases existing <;> rfl

theorem filter_recast (q : Query) (e : Expr) :
    (q.recast m).filter (e.recast m) = (q.filter e).recast m := by
  rw [recast_eq, recast_eq, filter, conjoin_recast]
  rfl

theorem group_recast (q : Query) (grouping : List Expr) :
    (q.recast m).group (grouping.map (Expr.recast m)) = (q.group grouping).recast m := by
  rw [recast_eq, recast_eq]
  rfl

theorem filterGroups_recast (q : Query) (e : Expr) :
    (q.recast m).filterGroups (e.recast m) = (q.filterGroups e).recast m := by
  rw [recast_eq, recast_eq, filterGroups, conjoin_recast]
  rfl

theorem order_recast (q : Query) (ordering : List SortTerm) :
    (q.recast m).order (ordering.map (SortTerm.recast m)) = (q.order ordering).recast m := by
  rw [recast_eq, recast_eq]
  rfl

theorem reverse_recast (q : Query) : (q.recast m).reverse = q.reverse.recast m := by
  rw [recast_eq, recast_eq]
  rfl

theorem limitTo_recast (q : Query) (count : Nat) (offset : Option Nat) :
    (q.recast m).limitTo count offset = (q.limitTo count offset).recast m := by
  rw [recast_eq, recast_eq]
  rfl

end Query

namespace Association

mutual

theorem attach_recast :
    (a : Association) → (origin : SourceId) → (q : Query) →
      a.attach (origin.rescope m.scope) (q.recast m) = (a.attach origin q).recast m
  | ⟨name, kind, table, aliasName, foreignKey, includes⟩, origin, q => by
    have hroot : (q.recast m).sources.root = q.sources.root.map (SourceId.rescope m.scope) := by
      rw [Query.recast_eq]
      rfl
    rw [attach, attach, hroot]
    rcases q.sources.root with _ | base
    · rfl
    · simp only [Option.map_some]
      rw [← attachAll_recast includes _ _]
      simp [Query.recast_eq, Arena.push, Arena.recast, Arena.setRoot, SourceId.rescope, Node.recast,
        Join.rescope, Source.recast, Item.recast]

theorem attachAll_recast :
    (as : List Association) → (origin : SourceId) → (q : Query) →
      attachAll as (origin.rescope m.scope) (q.recast m) = (attachAll as origin q).recast m
  | [], _, _ => rfl
  | a :: as, origin, q => by
    rw [attachAll, attachAll, attach_recast a, attachAll_recast as]

end

end Association

theorem Query.including_recast (q : Query) (a : Association) :
    (q.recast m).including a = (q.including a).recast m := by
  rw [including, including, source?_recast]
  rcases q.source? with _ | x
  · rfl
  · exact Association.attach_recast a x q

end RelQuery
