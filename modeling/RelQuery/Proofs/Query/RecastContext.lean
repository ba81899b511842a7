import RelQuery.Proofs.Query.Recast
import RelQuery.Query.FromClause

/-!
# Names and clauses of recast sources

The context of a recast query has the names of the context of the query, and everything that is
written with names alone is the same text in both.
-/

set_option autoImplicit false

namespace RelQuery

namespace NameGroups

variable {ρ : Nat → Nat}

def rescopeMember (ρ : Nat → Nat) (member : SourceId × String) : SourceId × String :=
  (member.1.rescope ρ, member.2)

def rescope (ρ : Nat → Nat) (groups : NameGroups) : NameGroups :=
  groups.map fun g => (g.1, g.2.map (rescopeMember ρ))

theorem enter_rescope (groups : NameGroups) (x : SourceId) (name : String) :
    (groups.rescope ρ).enter (x.rescope ρ) name = (groups.enter x name).rescope ρ := by
  induction groups with
  | nil => rfl
  | cons g groups ih =>
    obtain ⟨key, members⟩ := g
    show enter _ name ((key, members.map (rescopeMember ρ)) :: rescope ρ groups) = _
    by_cases h : key = Text.foldCase name
    · simp [enter, h, rescope, rescopeMember]
    · rw [enter, enter, if_neg h, if_neg h, ih]
      rfl

theorem memberNames_rescope (members : List (SourceId × String)) :
    memberNames (members.map (rescopeMember ρ)) = (memberNames members).map (rescopeMember ρ) := by
  unfold memberNames
  rw [List.length_map]
  split
  · rfl
  · simp only [List.zipIdx_map, List.map_map]
    rfl

theorem names_rescope (groups : NameGroups) :
    (groups.rescope ρ).names = groups.names.map (rescopeMember ρ) := by
  simp only [names, rescope, List.flatMap_map, List.map_flatMap, memberNames_rescope]

end NameGroups

namespace Arena

variable {α β : Type} {ρ : Nat → Nat} {f : α → β}

theorem assign_rescope (names : List (Option String)) (members : List (SourceId × String)) :
    assign names (members.map (NameGroups.rescopeMember ρ)) = assign names members := by
  induction members generalizing names with
  | nil => rfl
  | cons member members ih => exact ih _

theorem groupsOf_recast {declared : α → Option String} {declared' : β → Option String}
    (hd : ∀ s, declared' (f s) = declared s) (a : Arena α) (xs : List SourceId)
    (groups : NameGroups) :
    (a.recast ρ f).groupsOf declared' (xs.map (SourceId.rescope ρ)) (groups.rescope ρ) =
      (a.groupsOf declared xs groups).map (NameGroups.rescope ρ) := by
  induction xs generalizing groups with
  | nil => rfl
  | cons x xs ih =>
    rw [List.map_cons, groupsOf, groupsOf, node_recast]
    rcases a.node x with _ | source | j
    · rfl
    · simp only [bind, Except.bind, Except.map, Node.recast, hd]
      rcases declared source with _ | name
      · exact ih groups
      · have hrest := ih (groups.enter x name)
        rw [← NameGroups.enter_rescope] at hrest
        exact hrest
    · exact ih groups

/-- The names of sources depend neither on the numbers of scopes nor on what a leaf is apart from
its declared name. -/
theorem resolveNames_recast (hρ : Function.Injective ρ) {declared : α → Option String}
    {declared' : β → Option String} (hd : ∀ s, declared' (f s) = declared s) (a : Arena α) :
    (a.recast ρ f).resolveNames declared' = a.resolveNames declared := by
  rw [resolveNames, resolveNames, reachable_recast hρ]
  rcases a.reachable with _ | xs
  · rfl
  · have hg : (a.recast ρ f).groupsOf declared' (xs.map (SourceId.rescope ρ)) [] =
        (a.groupsOf declared xs []).map (NameGroups.rescope ρ) := groupsOf_recast hd a xs []
    show ((a.recast ρ f).groupsOf declared' (xs.map _) [] >>= _) = (a.groupsOf declared xs [] >>= _)
    rw [hg]
    rcases a.groupsOf declared xs [] with _ | groups
    · rfl
    · show Except.ok _ = Except.ok _
      rw [NameGroups.names_rescope, assign_rescope, recast, List.map_map]
      rfl

end Arena

namespace Context

variable {m : Recast}

def recast (m : Recast) (ctx : Context) : Context where
  schema := ctx.schema
  sources := ctx.sources.recast m.scope (Source.recast m)
  names := ctx.names

theorem of_recast (hm : Function.Injective m.scope) (schema : Schema) (sources : Arena Source) :
    Context.of schema (sources.recast m.scope (Source.recast m)) =
      (Context.of schema sources).map (Context.recast m) := by
  rw [Context.of, Context.of,
    Arena.resolveNames_recast hm (Source.declaredName_recast m)]
  rcases sources.resolveNames Source.declaredName with _ | names <;> rfl

theorem sourceName_recast (hm : Function.Injective m.scope) (ctx : Context) (x : SourceId) :
    (ctx.recast m).sourceName (x.rescope m.scope) = ctx.sourceName x := by
  rw [sourceName, sourceName,
    show (ctx.recast m).sources.contains (x.rescope m.scope) = ctx.sources.contains x from
      Arena.contains_recast hm ctx.sources x]
  rfl

theorem columnSql_recast (hm : Function.Injective m.scope) (ctx : Context)
    (qualifier : Option Qualifier) (name : String) :
    (ctx.recast m).columnSql (qualifier.map (Qualifier.rescope m.scope)) name =
      ctx.columnSql qualifier name := by
  rcases qualifier with _ | x | source
  · rfl
  · show ((ctx.recast m).sourceName (x.rescope m.scope) >>= _) = _
    rw [sourceName_recast hm]
    rfl
  · rfl

theorem starWithin_recast (hm : Function.Injective m.scope) (ctx : Context) (n : Nat)
    (x : SourceId) :
    (ctx.recast m).starWithin n (x.rescope m.scope) = ctx.starWithin n x := by
  induction n generalizing x with
  | zero => rfl
  | succ n ih =>
    rw [starWithin, starWithin,
      show (ctx.recast m).sources.node (x.rescope m.scope) = _ from
        Arena.node_recast ctx.sources x]
    rcases ctx.sources.node x with _ | source | j
    · rfl
    · show ((ctx.recast m).sourceName (x.rescope m.scope) >>= _) = _
      rw [sourceName_recast hm]
      rfl
    · show ((ctx.recast m).starWithin n (j.base.rescope m.scope) >>= fun base =>
        (ctx.recast m).starWithin n (j.target.rescope m.scope) >>= fun target => _) = _
      rw [ih, ih]
      rfl

theorem starSql_recast (hm : Function.Injective m.scope) (ctx : Context) (x : SourceId) :
    (ctx.recast m).starSql (x.rescope m.scope) = ctx.starSql x := by
  rw [starSql, starSql, show (ctx.recast m).sources.depth = ctx.sources.depth from
    Arena.depth_recast ctx.sources]
  exact starWithin_recast hm ctx _ x

theorem reversedRowId_recast (hm : Function.Injective m.scope) (ctx : Context) :
    (ctx.recast m).reversedRowId = ctx.reversedRowId := by
  rw [reversedRowId, reversedRowId,
    show (ctx.recast m).sources.root = ctx.sources.root.map (SourceId.rescope m.scope) from rfl]
  rcases ctx.sources.root with _ | root
  · rfl
  · show ((ctx.recast m).sources.leftmost (root.rescope m.scope) >>= _) =
      (ctx.sources.leftmost root >>= _)
    rw [show (ctx.recast m).sources.leftmost (root.rescope m.scope) = _ from
      Arena.leftmost_recast ctx.sources root]
    rcases ctx.sources.leftmost root with _ | x
    · rfl
    · show ((ctx.recast m).sources.node (x.rescope m.scope) >>= _) =
        (ctx.sources.node x >>= _)
      rw [show (ctx.recast m).sources.node (x.rescope m.scope) = _ from
        Arena.node_recast ctx.sources x]
      rcases ctx.sources.node x with _ | ⟨_ | _⟩ | _
      · rfl
      · simp only [Except.map, Node.recast, Source.recast, bind, Except.bind, sourceName_recast hm]
        rfl
      · rfl
      · rfl

theorem checkKeyColumns_recast (ctx : Context) (j : Join) (x : SourceId) (columns : List String) :
    (ctx.recast m).checkKeyColumns (j.rescope m.scope) (x.rescope m.scope) columns =
      ctx.checkKeyColumns j x columns := by
  rw [checkKeyColumns, checkKeyColumns,
    show (ctx.recast m).sources.node (x.rescope m.scope) = _ from
      Arena.node_recast ctx.sources x]
  rcases ctx.sources.node x with _ | ⟨_ | _⟩ | _ <;> rfl

theorem checkForeignKey_recast (ctx : Context) (j : Join) :
    (ctx.recast m).checkForeignKey (j.rescope m.scope) = ctx.checkForeignKey j := by
  simp only [checkForeignKey, Join.rescope, ← checkKeyColumns_recast (m := m) ctx j]
  rfl

theorem joinCondition_recast (hm : Function.Injective m.scope) (ctx : Context) (j : Join) :
    (ctx.recast m).joinCondition (j.rescope m.scope) = ctx.joinCondition j := by
  simp only [joinCondition, Join.rescope, sourceName_recast hm]
  rfl

end Context

theorem selectsBareStar_recast {m : Recast} (hm : Function.Injective m.scope)
    (selection : List Item) (sources : Arena Source) :
    selectsBareStar (selection.map (Item.recast m)) (sources.recast m.scope (Source.recast m)) =
      selectsBareStar selection sources := by
  rw [selectsBareStar, selectsBareStar,
    show (sources.recast m.scope (Source.recast m)).root = sources.root.map _ from rfl]
  rcases sources.root with _ | root
  · rfl
  · rcases selection with _ | ⟨_ | _, _ | _⟩
    · rfl
    · rename_i x
      show (if x.rescope m.scope = root.rescope m.scope then _ else _) = if x = root then _ else _
      simp only [SourceId.rescope_inj hm, Arena.node_recast]
      rcases sources.node root with _ | _ | _ <;> rfl
    · rfl
    · rfl
    · rfl

end RelQuery
