import RelQuery.Proofs.Query.FromOrder

/-!
# The rule of names

A source that alone declares its name keeps it. Where several sources declare one name up to case,
each is given the number of those before it in the FROM clause. The rule tells neither the order in
which groups are taken nor what the subqueries hold.
-/

set_option autoImplicit false

namespace RelQuery

namespace NameGroups

theorem fst_memberNames (members : List (SourceId × String)) :
    (memberNames members).map (·.1.index) = members.map (·.1.index) := by
  unfold memberNames
  split
  · rfl
  · rw [List.map_map]
    conv_rhs => rw [← List.zipIdx_map_fst 0 members, List.map_map]
    rfl

theorem Groups.nodup_index_names {named : List (SourceId × String)} {groups : NameGroups}
    (h : Groups named groups) (hn : (named.map (·.1.index)).Nodup) :
    (groups.names.map (·.1.index)).Nodup := by
  have hmembers : ∀ g ∈ groups,
      (memberNames g.2).map (·.1.index) = (nameGroup named g.1).map (·.1.index) := fun g hg => by
    rw [fst_memberNames, h.members g hg]
  have hmem : ∀ g ∈ groups, ∀ i ∈ (memberNames g.2).map (·.1.index),
      ∃ p ∈ named, p.1.index = i ∧ Text.foldCase p.2 = g.1 := by
    intro g hg i hi
    rw [hmembers g hg] at hi
    obtain ⟨p, hp, rfl⟩ := List.mem_map.mp hi
    obtain ⟨hp, hfold⟩ := List.mem_filter.mp hp
    exact ⟨p, hp, rfl, decide_eq_true_eq.mp hfold⟩
  rw [names, List.map_flatMap, List.nodup_flatMap]
  constructor
  · intro g hg
    rw [hmembers g hg]
    exact (List.filter_sublist.map _).nodup hn
  · have hkeys : groups.Pairwise fun g g' => g.1 ≠ g'.1 := List.pairwise_map.mp h.keys
    refine hkeys.imp_of_mem fun {g g'} hg hg' hne => ?_
    intro i hi hi'
    obtain ⟨p, hp, rfl, hfold⟩ := hmem g hg i hi
    obtain ⟨r, hr, heq, hfold'⟩ := hmem g' hg' _ hi'
    rw [List.inj_on_of_nodup_map hn hr hp heq] at hfold'
    exact hne (hfold.symm.trans hfold')

end NameGroups

def Node.withSubquery (inside : Query) : Node Source → Node Source
  | .leaf (.query _ aliasName) => .leaf (.query inside aliasName)
  | node => node

theorem Node.declaredName_withSubquery (inside : Query) (node : Node Source) :
    (node.withSubquery inside).recast id Source.declaredName =
      node.recast id Source.declaredName := by
  rcases node with (_ | _) | _ <;> rfl

/-- The name that a source declares: its alias, or a table's own name where it has none. -/
inductive Source.Declares : Source → String → Prop
  | aliased (table name : String) : Declares (.table table (some name)) name
  | bare (table : String) : Declares (.table table none) table
  | subquery (q : Query) (name : String) : Declares (.query q (some name)) name

theorem Source.declares_iff {s : Source} {name : String} :
    s.Declares name ↔ s.declaredName = some name := by
  constructor
  · rintro (_ | _ | _) <;> rfl
  · intro h
    rcases s with ⟨table, _ | _⟩ | ⟨q, _ | _⟩ <;> cases h
    · exact .bare table
    · exact .aliased table _
    · exact .subquery q _

namespace Arena

variable {α : Type}

theorem assign_eq_foldl (names : List (Option String)) (members : List (SourceId × String)) :
    assign names members =
      members.foldl (fun names p => names.set p.1.index (some p.2)) names := by
  induction members generalizing names with
  | nil => rfl
  | cons p members ih => exact ih _

theorem assign_perm {members members' : List (SourceId × String)} (h : members.Perm members')
    (hn : (members.map (·.1.index)).Nodup) (names : List (Option String)) :
    assign names members = assign names members' := by
  rw [assign_eq_foldl, assign_eq_foldl]
  refine h.foldl_eq' (fun p hp r hr names => ?_) names
  by_cases hindex : p.1.index = r.1.index
  · rw [List.inj_on_of_nodup_map hn hp hr hindex]
  · exact List.set_comm _ _ hindex

/-- The groups can be taken in any order. -/
theorem assign_groups_perm {a : Arena α} {declared : α → Option String} {ids : List SourceId}
    (hn : (ids.map (·.index)).Nodup) {groups groups' : NameGroups}
    (hgroups : a.groupsOf declared ids [] = .ok groups) (hperm : groups.Perm groups')
    (names : List (Option String)) : assign names groups'.names = assign names groups.names := by
  have hall : NameGroups.Groups (a.named declared ids) groups := by
    rw [groupsOf_of_ok hgroups]
    exact NameGroups.groups_nil.foldl (a.named declared ids)
  have hnames : groups.names.Perm groups'.names := hperm.flatMap_right _
  exact (assign_perm hnames (hall.nodup_index_names (nodup_index_named declared hn)) names).symm

/-- Whether a source declares a name, up to the case of ASCII letters. -/
def Shares (a : Arena Source) (name : String) (x : SourceId) : Prop :=
  ∃ (s : Source) (other : String), a.node x = .ok (.leaf s) ∧ s.Declares other ∧
    other.toList.map Char.toLower = name.toList.map Char.toLower

theorem shares_iff {a : Arena Source} {name : String} {x : SourceId} : a.Shares name x ↔
    (a.declaredAt Source.declaredName x).any (fun p => Text.sameName p.2 name) = true := by
  constructor
  · rintro ⟨s, other, hs, hother, hletters⟩
    rw [declaredAt_leaf hs, Source.declares_iff.mp hother]
    exact (Text.sameLetters_iff _ _).mpr hletters
  · intro h
    obtain ⟨p, hp, hname⟩ := (Option.any_eq_true _ _).mp h
    rw [declaredAt] at hp
    split at hp
    · rename_i s hs
      obtain ⟨other, hother, rfl⟩ := Option.map_eq_some_iff.mp hp
      exact ⟨s, other, hs, Source.declares_iff.mpr hother, (Text.sameLetters_iff _ _).mp hname⟩
    · cases hp

instance (a : Arena Source) (name : String) : DecidablePred (a.Shares name) :=
  fun _ => decidable_of_iff _ shares_iff.symm

theorem shares_leaf {a : Arena Source} {x : SourceId} {s : Source} {name : String}
    (hs : a.node x = .ok (.leaf s)) (hname : s.Declares name) : a.Shares name x :=
  ⟨s, name, hs, hname, rfl⟩

theorem length_nameGroup_named (a : Arena Source) (name : String) (ids : List SourceId) :
    (nameGroup (a.named Source.declaredName ids) (Text.foldCase name)).length =
      ids.countP (a.Shares name ·) := by
  rw [nameGroup, ← List.countP_eq_length_filter, named, List.countP_filterMap]
  refine List.countP_congr fun x _ => ?_
  rw [decide_eq_true_iff, shares_iff]
  cases a.declaredAt Source.declaredName x with
  | none => rfl
  | some p => exact decide_eq_true_iff.trans (Text.sameName_iff p.2 name).symm

/-- The place of a source in the group of its name is the number of those before it. -/
theorem nameGroup_getElem? {a : Arena Source} {before after : List SourceId} {x : SourceId}
    {s : Source} {name : String} (hs : a.node x = .ok (.leaf s)) (hname : s.Declares name) :
    (nameGroup (a.named Source.declaredName (before ++ x :: after)) (Text.foldCase name))[
      before.countP (a.Shares name ·)]? = some (x, name) := by
  have hx : a.declaredAt Source.declaredName x = some (x, name) := by
    rw [declaredAt_leaf hs, Source.declares_iff.mp hname]
    rfl
  have hsplit : nameGroup (a.named Source.declaredName (before ++ x :: after))
      (Text.foldCase name) =
        nameGroup (a.named Source.declaredName before) (Text.foldCase name) ++
          (x, name) :: nameGroup (a.named Source.declaredName after) (Text.foldCase name) := by
    simp [nameGroup, named, List.filterMap_append, hx]
  have hlength := length_nameGroup_named a name before
  rw [hsplit, List.getElem?_append_right (Nat.le_of_eq hlength), hlength, Nat.sub_self]
  rfl

theorem countP_le_one_iff {ids : List SourceId} (hn : ids.Nodup) {p : SourceId → Prop}
    [DecidablePred p] {x : SourceId} (hx : x ∈ ids) (hp : p x) :
    ids.countP (p ·) ≤ 1 ↔ ∀ y ∈ ids, y ≠ x → ¬p y := by
  obtain ⟨before, after, rfl⟩ := List.append_of_mem hx
  have hmid := List.nodup_middle.mp hn
  have hfresh : x ∉ before ++ after := (List.nodup_cons.mp hmid).1
  have hzero : (before ++ x :: after).countP (p ·) ≤ 1 ↔
      (before ++ after).countP (p ·) = 0 := by
    rw [List.countP_append, List.countP_append,
      List.countP_cons_of_pos (p := fun y => decide (p y)) (decide_eq_true hp)]
    omega
  rw [hzero, List.countP_eq_zero]
  constructor
  · intro h y hy hne hpy
    have hy' : y ∈ before ++ after := by
      simpa [hne] using hy
    exact h y hy' (decide_eq_true hpy)
  · intro h y hy hpy
    have hne : y ≠ x := fun heq => hfresh (heq ▸ hy)
    have hy' : y ∈ before ++ x :: after := by
      simpa [hne] using hy
    exact h y hy' hne (of_decide_eq_true hpy)

/-- Names that follow the rule, where `ids` are the sources of a FROM clause from left to right. -/
structure NamesByRule (a : Arena Source) (ids : List SourceId) (names : List (Option String)) :
    Prop where
  length : names.length = a.nodes.length
  /-- Named are the tables and the aliased subqueries of the clause, and nothing else. -/
  named : ∀ i : Nat, (∃ n, names[i]? = some (some n)) ↔ ∃ x ∈ ids, x.index = i ∧
    ((∃ table aliasName, a.node x = .ok (.leaf (.table table aliasName))) ∨
      ∃ q aliasName, a.node x = .ok (.leaf (.query q (some aliasName))))
  /-- A name that no other source shares is kept. -/
  alone : ∀ x ∈ ids, ∀ (s : Source) (name : String), a.node x = .ok (.leaf s) → s.Declares name →
    (∀ y ∈ ids, y ≠ x → ¬a.Shares name y) → names[x.index]? = some (some name)
  /-- A shared name is followed by the number of sources before this one that share it. -/
  shared : ∀ (before after : List SourceId) (x : SourceId) (s : Source) (name : String),
    ids = before ++ x :: after → a.node x = .ok (.leaf s) → s.Declares name →
      (∃ y ∈ ids, y ≠ x ∧ a.Shares name y) →
        names[x.index]? = some (some (name ++ (before.countP (a.Shares name ·)).repr))

theorem names_by_rule {a : Arena Source} {ids : List SourceId} (hr : a.reachable = .ok ids)
    (hids : ∀ x ∈ ids, ∃ s, a.node x = .ok (.leaf s)) (hn : (ids.map (·.index)).Nodup) :
    ∃ names, a.resolveNames Source.declaredName = .ok names ∧ a.NamesByRule ids names := by
  have hnodup : ids.Nodup := List.Nodup.of_map _ hn
  obtain ⟨names, hnames, hknown, hspec⟩ := resolveNames_spec Source.declaredName hr hids hn
  have hplace {before after : List SourceId} {x : SourceId} {s : Source} {name : String}
      (hsplit : ids = before ++ x :: after) (hs : a.node x = .ok (.leaf s))
      (hname : s.Declares name) : names[x.index]? = some (some
        (placedName (a.named Source.declaredName ids) name
          (before.countP (a.Shares name ·)))) := by
    have hx : x ∈ ids := by
      rw [hsplit]
      exact List.mem_append_right _ List.mem_cons_self
    refine (hspec x hx _).mpr ⟨_, name, ?_, rfl⟩
    rw [hsplit]
    exact nameGroup_getElem? hs hname
  refine ⟨names, hnames, ?_, ?_, ?_, ?_⟩
  · obtain ⟨ids', -, hnames⟩ := Outcome.bind_eq_ok.mp hnames
    obtain ⟨groups, -, hnames⟩ := Outcome.bind_eq_ok.mp hnames
    cases hnames
    rw [length_assign, List.length_map]
  · intro i
    constructor
    · rintro ⟨n, hn'⟩
      obtain ⟨x, hx, rfl⟩ := hknown i n hn'
      obtain ⟨k, name, hk, -⟩ := (hspec x hx n).mp hn'
      obtain ⟨y, -, hy⟩ := List.mem_filterMap.mp
        (List.mem_filter.mp (List.mem_of_getElem? hk)).1
      obtain rfl : x = y := fst_of_declaredAt hy
      obtain ⟨s, hs⟩ := hids x hx
      rw [declaredAt_leaf hs] at hy
      obtain ⟨name', hname, -⟩ := Option.map_eq_some_iff.mp hy
      refine ⟨x, hx, rfl, ?_⟩
      cases Source.declares_iff.mpr hname with
      | aliased => exact .inl ⟨_, _, hs⟩
      | bare => exact .inl ⟨_, _, hs⟩
      | subquery => exact .inr ⟨_, _, hs⟩
    · rintro ⟨x, hx, rfl, hx'⟩
      obtain ⟨s, name, hs, hname⟩ : ∃ s name, a.node x = .ok (.leaf s) ∧ s.Declares name := by
        rcases hx' with ⟨table, _ | al, hs⟩ | ⟨q, al, hs⟩
        · exact ⟨_, _, hs, .bare table⟩
        · exact ⟨_, _, hs, .aliased table al⟩
        · exact ⟨_, _, hs, .subquery q al⟩
      obtain ⟨before, after, hsplit⟩ := List.append_of_mem hx
      exact ⟨_, hplace hsplit hs hname⟩
  · intro x hx s name hs hname halone
    obtain ⟨before, after, hsplit⟩ := List.append_of_mem hx
    have hcount := (countP_le_one_iff hnodup hx (shares_leaf hs hname)).mpr halone
    rw [hplace hsplit hs hname, placedName, length_nameGroup_named, if_pos hcount]
  · rintro before after x s name hsplit hs hname ⟨y, hy, hne, hshares⟩
    have hx : x ∈ ids := by simp [hsplit]
    have hcount : ¬ids.countP (a.Shares name ·) ≤ 1 := fun hle =>
      (countP_le_one_iff hnodup hx (shares_leaf hs hname)).mp hle y hy hne hshares
    rw [hplace hsplit hs hname, placedName, length_nameGroup_named, if_neg hcount]

/-- The sources with other queries in the place of their subqueries, under the same names. -/
def withSubqueries (inside : Nat → Query) (a : Arena Source) : Arena Source :=
  { a with nodes := a.nodes.mapIdx fun i node => node.withSubquery (inside i) }

theorem resolveNames_withSubqueries (inside : Nat → Query) (a : Arena Source) :
    (a.withSubqueries inside).resolveNames Source.declaredName =
      a.resolveNames Source.declaredName := by
  have hsame : (a.withSubqueries inside).recast id Source.declaredName =
      a.recast id Source.declaredName := by
    have hnodes : (a.nodes.mapIdx fun i node => node.withSubquery (inside i)).map
        (Node.recast id Source.declaredName) =
          a.nodes.map (Node.recast id Source.declaredName) := by
      refine List.ext_getElem? fun i => ?_
      rw [List.getElem?_map, List.getElem?_map, List.getElem?_mapIdx, Option.map_map]
      congr 1
      funext node
      exact Node.declaredName_withSubquery (inside i) node
    rw [recast, recast, withSubqueries, hnodes]
  have hdeclared : ∀ s : Source, id s.declaredName = s.declaredName := fun _ => rfl
  rw [← resolveNames_recast Function.injective_id hdeclared, hsame,
    resolveNames_recast Function.injective_id hdeclared]

end Arena

/-- In an expression too, a subquery is rendered with its own sources and names only. -/
structure Context.Secludes (ctx : Context) (q : Query) : Prop where
  existence (p : Polarity) : (Expr.existsIn q).render ctx p =
    (fun sql => "(" ++ p.existence ++ " (" ++ sql ++ "))") <$> q.render ctx.schema
  membership (p : Polarity) (e : Expr) : (Expr.inQuery e q).render ctx p =
    e.render ctx .plain >>= fun operand =>
      (fun sql => "(" ++ operand ++ " " ++ p.membership ++ " (" ++ sql ++ "))") <$>
        q.render ctx.schema

theorem Context.secludes (ctx : Context) (q : Query) : ctx.Secludes q := by
  constructor
  · intro p
    rw [Expr.render, Query.render]
    simp only [map_eq_pure_bind, bind_assoc, pure_bind]
  · intro p e
    rw [Expr.render, Query.render]
    simp only [map_eq_pure_bind, bind_assoc, pure_bind]

namespace Query

/-- The sources of a built query are named by the rule, in the order of its FROM clause. The names
depend neither on the order of the groups nor on the subqueries, and the text of a subquery depends
on no name around it. -/
theorem sources_named {q : Query} (hq : q.Built) :
    ∃ (ids : List SourceId) (names : List (Option String)),
      q.sources.leaves = .ok ids ∧ ids.Nodup ∧
      (∀ x, x ∈ ids ↔ q.sources.Reached x ∧ ∃ s, q.sources.node x = .ok (.leaf s)) ∧
      q.sources.resolveNames Source.declaredName = .ok names ∧
      q.sources.NamesByRule ids names ∧
      (∃ groups, q.sources.groupsOf Source.declaredName ids [] = .ok groups ∧
        ∀ groups' : NameGroups, groups.Perm groups' →
          Arena.assign (q.sources.nodes.map fun _ => none) groups'.names = names) ∧
      (∀ inside, (q.sources.withSubqueries inside).resolveNames Source.declaredName = .ok names) ∧
      ∀ ctx : Context, Context.of ctx.schema q.sources = .ok ctx →
        (∀ (b b' : Bindings) (sql : String),
          (ctx.fromClause (q.sources.sqls ctx.schema)).runFrom b = (.ok (some sql), b') →
            ctx.Lists ids sql) ∧
        ∀ inner, ctx.Secludes inner := by
  obtain ⟨ids, hleaves, hreach, hleaf, hindex, hreached⟩ : ∃ ids, q.sources.leaves = .ok ids ∧
      q.sources.reachable = .ok ids ∧ (∀ x ∈ ids, ∃ s, q.sources.node x = .ok (.leaf s)) ∧
      (ids.map (·.index)).Nodup ∧
      ∀ x, x ∈ ids ↔ q.sources.Reached x ∧ ∃ s, q.sources.node x = .ok (.leaf s) := by
    rcases hq.chained with ⟨scope, h⟩ | ⟨scope, first, links, h, hl⟩
    · rw [h]
      refine ⟨[], rfl, rfl, nofun, List.nodup_nil, fun x => ⟨nofun, ?_⟩⟩
      rintro ⟨-, s, hs⟩
      cases hs
    · rw [h]
      exact ⟨_, Arena.leaves_chain hl, Arena.reachable_chain first hl,
        Arena.leaf_of_mem_sourceIds first links, Arena.nodup_index_sourceIds scope links.length,
        fun _ => Arena.mem_sourceIds_iff_reached hl⟩
  obtain ⟨names, hnames, hrule⟩ := Arena.names_by_rule hreach hleaf hindex
  refine ⟨ids, names, hleaves, List.Nodup.of_map _ hindex, hreached, hnames, hrule, ?_, ?_, ?_⟩
  · obtain ⟨ids', hids, hassigned⟩ := Outcome.bind_eq_ok.mp hnames
    cases hreach.symm.trans hids
    obtain ⟨groups, hgroups, heq⟩ := Outcome.bind_eq_ok.mp hassigned
    cases heq
    exact ⟨groups, hgroups, fun groups' hperm => Arena.assign_groups_perm hindex hgroups hperm _⟩
  · intro inside
    rw [Arena.resolveNames_withSubqueries, hnames]
  · intro ctx hctx
    refine ⟨fun b b' sql h => ?_, ctx.secludes⟩
    have hsources : ctx.sources = q.sources := by
      obtain ⟨_, -, h⟩ := Outcome.map_eq_ok.mp hctx
      rw [← h]
    rw [← hsources] at hleaves h
    exact Context.fromClause_lists hleaves h

/-- A subquery, a table and an alias of another table that go by one name in three spellings,
between a table with a name of its own and an alias that nothing else is called. -/
def namesakes : Query :=
  ((((ofQuery 0 (table 1 "persons") (some "Persons")).including
    (.hasOne "first" "persons" [("id", "id")])).including
      (.hasOne "book" "books" [("id", "owner_id")])).including
        (.belongsTo "PERSONS" "people" [("id", "id")])).including
          (.belongsTo "author" "agents" [("author_id", "id")])

theorem namesakes_numbered : ∃ ids : List SourceId,
    namesakes.sources.leaves = .ok ids ∧
      ids.map namesakes.sources.node =
        [.ok (.leaf (.query (table 1 "persons") (some "Persons"))),
          .ok (.leaf (.table "persons" none)), .ok (.leaf (.table "books" none)),
          .ok (.leaf (.table "people" (some "PERSONS"))),
          .ok (.leaf (.table "agents" (some "author")))] ∧
      namesakes.sources.NamesByRule ids
        [some "Persons0", some "persons1", none, some "books", none, some "PERSONS2", none,
          some "author", none] ∧
      (namesakes.sources.withSubqueries fun i => table i "books").resolveNames
        Source.declaredName = .ok
          [some "Persons0", some "persons1", none, some "books", none, some "PERSONS2", none,
            some "author", none] := by
  have hbuilt : namesakes.Built :=
    ⟨ofQuery 0 (table 1 "persons") (some "Persons"),
      [.including (.hasOne "first" "persons" [("id", "id")]),
        .including (.hasOne "book" "books" [("id", "owner_id")]),
        .including (.belongsTo "PERSONS" "people" [("id", "id")]),
        .including (.belongsTo "author" "agents" [("author_id", "id")])],
      .ofQuery 0 (table 1 "persons") (some "Persons"), rfl⟩
  obtain ⟨ids, names, hleaves, -, -, hnames, hrule, -, hinside, -⟩ := sources_named hbuilt
  have hids : namesakes.sources.leaves = .ok [⟨0, 0⟩, ⟨0, 1⟩, ⟨0, 3⟩, ⟨0, 5⟩, ⟨0, 7⟩] := rfl
  have hnumbered : namesakes.sources.resolveNames Source.declaredName =
      .ok [some "Persons0", some "persons1", none, some "books", none, some "PERSONS2", none,
        some "author", none] := rfl
  cases hleaves.symm.trans hids
  cases hnames.symm.trans hnumbered
  exact ⟨_, hids, rfl, hrule, hinside _⟩

end Query

end RelQuery
