import RelQuery.Proofs.Query.Descent
import RelQuery.Proofs.Query.Included

/-!
# The arena of a built query

The sources of a built query are a first leaf and, for each table that was attached to it, that
table and a join of it onto everything before. So the recursions over its sources come to an end,
and none of them meets an index outside the arena.
-/

set_option autoImplicit false

namespace RelQuery

open Arena

/-- A first leaf, then each table with the join of it onto everything before, up to the root. -/
structure Arena.LeftDeep (a : Arena Source) (tables : List Source) : Prop where
  areTables : ∀ t ∈ tables, ∃ name aliasName, t = .table name aliasName
  length : a.nodes.length = 2 * tables.length + 1
  root : a.root = some ⟨a.scope, 2 * tables.length⟩
  first : ∃ source, a.nodes[0]? = some (.leaf source)
  table : ∀ (i : Nat) (t : Source), tables[i]? = some t → a.nodes[2 * i + 1]? = some (.leaf t)
  /-- A join starts from the first leaf or from an earlier table. -/
  join : ∀ i < tables.length, ∃ j, a.nodes[2 * i + 2]? = some (.join j) ∧
    j.base = ⟨a.scope, 2 * i⟩ ∧ j.target = ⟨a.scope, 2 * i + 1⟩ ∧
      (j.origin = ⟨a.scope, 0⟩ ∨ ∃ m < i, j.origin = ⟨a.scope, 2 * m + 1⟩)

section Chain

variable {scope : Nat} {first : Source} {links : List Link}

theorem Arena.leftDeep_chain (h : Linked scope links) :
    (chain scope first links).LeftDeep (links.map Link.source) where
  areTables := by
    intro t ht
    obtain ⟨l, -, rfl⟩ := List.mem_map.mp ht
    exact ⟨l.table, l.aliasName, rfl⟩
  length := by rw [length_chain, List.length_map]
  root := by
    rw [List.length_map]
    rfl
  first := ⟨first, rfl⟩
  table := by
    intro i t ht
    rw [List.getElem?_map] at ht
    obtain ⟨l, hl, rfl⟩ := Option.map_eq_some_iff.mp ht
    exact Outcome.element_eq_ok.mp (node_table scope first hl scope)
  join := by
    intro i hi
    rw [List.length_map] at hi
    have hl : links[i]? = some links[i] := List.getElem?_eq_getElem hi
    exact ⟨links[i].join, Outcome.element_eq_ok.mp (node_join scope first hl scope),
      h.base i _ hl, h.target i _ hl, h.origin i _ hl⟩

theorem Arena.node_chain_cases {x : SourceId} {node : Node Source}
    (hx : (chain scope first links).node x = .ok node) :
    (x.index = 0 ∧ node = .leaf first) ∨ ∃ (i : Nat) (l : Link), links[i]? = some l ∧
      ((x.index = 2 * i + 1 ∧ node = .leaf l.source) ∨
        (x.index = 2 * (i + 1) ∧ node = .join l.join)) := by
  have hlt := lt_length_of_node hx
  rw [length_chain] at hlt
  obtain ⟨s, index⟩ := x
  obtain ⟨i, rfl | rfl⟩ : ∃ i, index = 2 * i ∨ index = 2 * i + 1 := ⟨index / 2, by omega⟩
  · cases i with
    | zero =>
      cases hx
      exact .inl ⟨rfl, rfl⟩
    | succ i =>
      have hi : i < links.length := by
        simp only at hlt
        omega
      have hl : links[i]? = some links[i] := List.getElem?_eq_getElem hi
      rw [node_join scope first hl] at hx
      cases hx
      exact .inr ⟨i, links[i], hl, .inr ⟨rfl, rfl⟩⟩
  · have hi : i < links.length := by
      simp only at hlt
      omega
    have hl : links[i]? = some links[i] := List.getElem?_eq_getElem hi
    rw [node_table scope first hl] at hx
    cases hx
    exact .inr ⟨i, links[i], hl, .inl ⟨rfl, rfl⟩⟩

theorem Arena.join_chain {x : SourceId} {j : Join}
    (hx : (chain scope first links).node x = .ok (.join j)) :
    ∃ (i : Nat) (l : Link), links[i]? = some l ∧ l.join = j ∧ x.index = 2 * (i + 1) := by
  rcases node_chain_cases hx with ⟨-, hnode⟩ | ⟨i, l, hl, ⟨-, hnode⟩ | ⟨hindex, hnode⟩⟩
  · cases hnode
  · cases hnode
  · cases hnode
    exact ⟨i, l, hl, rfl, hindex⟩

theorem Arena.descending_chain (h : Linked scope links) : (chain scope first links).Descending := by
  constructor
  · intro x j hx
    obtain ⟨i, l, hl, rfl, hindex⟩ := join_chain hx
    rw [h.base i l hl]
    exact ⟨rfl, by simp only; omega⟩
  · intro x j hx
    obtain ⟨i, l, hl, rfl, hindex⟩ := join_chain hx
    rw [h.target i l hl]
    exact ⟨rfl, by simp only [tableId]; omega⟩
  · intro x j hx
    obtain ⟨i, l, hl, rfl, -⟩ := join_chain hx
    rw [h.target i l hl]
    rcases h.origin i l hl with ho | ⟨m, hm, ho⟩
    · rw [ho]
      exact ⟨rfl, by simp only [tableId]; omega⟩
    · rw [ho]
      exact ⟨rfl, by simp only [tableId]; omega⟩

theorem Arena.leaf_chain_iff {x : SourceId} :
    ((chain scope first links).contains x = true ∧
      ∃ source, (chain scope first links).node x = .ok (.leaf source)) ↔
        Begins scope links.length x := by
  constructor
  · rintro ⟨hx, source, hnode⟩
    obtain ⟨s, index⟩ := x
    obtain rfl : s = scope := (contains_iff.mp hx).1
    rcases node_chain_cases hnode with ⟨h0, -⟩ | ⟨i, l, hl, ⟨hindex, -⟩ | ⟨-, hjoin⟩⟩
    · exact .inl (congrArg (SourceId.mk s) h0)
    · exact .inr ⟨i, (List.getElem?_eq_some_iff.mp hl).1, congrArg (SourceId.mk s) hindex⟩
    · cases hjoin
  · intro hx
    obtain ⟨source, hnode⟩ := node_of_begins first (Nat.le_refl _) hx
    have hscope : x.scope = scope := scope_of_mem_sourceIds (mem_sourceIds.mpr hx)
    exact ⟨contains_iff.mpr ⟨hscope, lt_length_of_node hnode⟩, source, hnode⟩

theorem Arena.increasing_sourceIds (scope n : Nat) :
    ((sourceIds scope n).map (·.index)).Pairwise (· < ·) := by
  rw [sourceIds, List.map_cons, List.map_map, List.pairwise_cons]
  constructor
  · intro i hi
    obtain ⟨m, -, rfl⟩ := List.mem_map.mp hi
    exact Nat.succ_pos (2 * m)
  · rw [List.pairwise_map]
    refine List.pairwise_lt_range.imp fun {i j} hij => ?_
    show 2 * i + 1 < 2 * j + 1
    omega

end Chain

namespace Query

def Attached : Query → List Association → Prop :=
  ChainOf fun _ as links => links.map Link.source = Association.tablesAll as

theorem attached_afterAll {start : Query} (h : Start start) (calls : List Call) :
    (start.afterAll calls).Attached (included calls) := by
  refine chainOf_afterAll ⟨fun _ => rfl, ?_⟩ h calls
  intro scope as links ht a n
  rw [List.map_append, ht, Association.sources_links, Association.tablesAll_concat]

def FailsToRender (schema : Schema) (q : Query) (f : Failure) : Prop :=
  f.IsRefusal ∨ ∃ (r : Query) (aliasName : Option String),
    .leaf (.query r aliasName) ∈ q.sources.nodes ∧ r.FailsWith schema f

def FailsToMeasure (schema : Schema) (q : Query) (f : Failure) : Prop :=
  f.IsRefusal ∨ ∃ (r : Query) (aliasName : Option String),
    .leaf (.query r aliasName) ∈ q.sources.nodes ∧ r.width schema = .error f

/-- The recursions over the sources of a query come to an end, and no lookup leaves the arena. -/
structure Traversable (schema : Schema) (q : Query) : Prop where
  leftmost : ∀ {x : SourceId} {j : Join}, q.sources.contains x = true →
    q.sources.node x = .ok (.join j) → q.sources.leftmost x = .ok ⟨q.sources.scope, 0⟩
  source : q.source? = q.sources.root.map fun _ => ⟨q.sources.scope, 0⟩
  reachable : ∃ ids, q.sources.reachable = .ok ids ∧ (ids.map (·.index)).Pairwise (· < ·) ∧
    ∀ x, x ∈ ids ↔ q.sources.contains x = true ∧ ∃ source, q.sources.node x = .ok (.leaf source)
  visit : ∀ {x : SourceId}, q.sources.contains x = true →
    ∀ seen, ∃ ids, q.sources.visitWithin q.sources.depth x seen = .ok ids
  width : ∀ {x : SourceId}, q.sources.contains x = true →
    ((q.sources.widths schema).width x).FailsOnly (q.FailsToMeasure schema)
  context : ∃ ctx, Context.of schema q.sources = .ok ctx
  star : ∀ {ctx : Context} {x : SourceId}, Context.of schema q.sources = .ok ctx →
    q.sources.contains x = true → (ctx.starSql x).FailsOnly Failure.IsRefusal
  fromClause : ∀ {ctx : Context} {x : SourceId}, Context.of schema q.sources = .ok ctx →
    q.sources.contains x = true → ∀ b : Bindings,
      ((ctx.fromSql (q.sources.sqls schema) x).runFrom b).1.FailsOnly (q.FailsToRender schema)
  variants : ∀ {offsets : List Nat} {x : SourceId},
    offsetsFrom (q.sources.widths schema) q.selection 0 = .ok offsets →
    q.sources.contains x = true →
      (q.variantsOf (q.sources.widths schema) offsets q.sources.depth x).FailsOnly Failure.IsRefusal

section

variable {schema : Schema} {q : Query} {scope : Nat}

theorem traversable_empty (hq : q.sources = .empty scope) : q.Traversable schema := by
  have hnone : ∀ x, q.sources.contains x ≠ true := by
    intro x hx
    rw [hq] at hx
    exact absurd (contains_iff.mp hx).2 (Nat.not_lt_zero x.index)
  constructor
  · exact fun hx => absurd hx (hnone _)
  · rw [source?_empty hq, hq]
    rfl
  · rw [hq]
    refine ⟨[], rfl, List.Pairwise.nil, fun x => ⟨nofun, fun hx => ?_⟩⟩
    rw [← hq] at hx
    exact absurd hx.1 (hnone x)
  · exact fun hx => absurd hx (hnone _)
  · exact fun hx => absurd hx (hnone _)
  · rw [hq]
    exact ⟨⟨schema, .empty scope, []⟩, rfl⟩
  · exact fun _ hx => absurd hx (hnone _)
  · exact fun _ hx => absurd hx (hnone _)
  · exact fun _ hx => absurd hx (hnone _)

theorem width_failsOnly (h : q.sources.Descending) {x : SourceId}
    (hx : q.sources.contains x = true) :
    ((q.sources.widths schema).width x).FailsOnly (q.FailsToMeasure schema) := by
  rw [Arena.width, widths_eq, Arena.depth_recast]
  refine (h.recast (Source.width schema)).widthWithin_failsOnly ?_ _ x ?_ ?_
  · intro y width hy
    rw [← widths_eq, node_widths, Outcome.map_eq_ok] at hy
    obtain ⟨node, hnode, hwidth⟩ := hy
    rcases node with (⟨table, aliasName⟩ | ⟨r, aliasName⟩) | j
    · cases hwidth
      exact Outcome.failsOnly_ofRefusable fun cause => .inl (Failure.isRefusal_refused cause)
    · cases hwidth
      have hmem := List.mem_of_getElem? (Outcome.element_eq_ok.mp hnode)
      exact fun f hf => .inr ⟨r, aliasName, hmem, hf⟩
    · cases hwidth
  · rwa [contains_recast_id]
  · exact Nat.lt_succ_of_lt (contains_iff.mp hx).2

theorem context_chain {links : List Link} (first : Source) (hl : Linked scope links)
    (schema : Schema) : ∃ ctx, Context.of schema (chain scope first links) = .ok ctx := by
  obtain ⟨names, hnames, -⟩ := resolveNames_spec Source.declaredName (reachable_chain first hl)
    (leaf_of_mem_sourceIds first links) (nodup_index_sourceIds scope links.length)
  rw [Context.of, hnames]
  exact ⟨_, rfl⟩

theorem Built.context (h : q.Built) (schema : Schema) :
    ∃ ctx, Context.of schema q.sources = .ok ctx := by
  rcases h.chained with ⟨scope, h⟩ | ⟨scope, first, links, h, hl⟩
  · rw [h]
    exact ⟨_, rfl⟩
  · rw [h]
    exact context_chain first hl schema

theorem traversable_chain {first : Source} {links : List Link}
    (hq : q.sources = chain scope first links) (hl : Linked scope links) :
    q.Traversable schema := by
  have hdescending : q.sources.Descending := hq ▸ descending_chain hl
  have hlength : q.sources.nodes.length = 2 * links.length + 1 := by rw [hq, length_chain]
  constructor
  · intro x j hx hnode
    rw [hq] at hx hnode ⊢
    obtain ⟨i, l, hi, -, hindex⟩ := join_chain hnode
    have hlt := (List.getElem?_eq_some_iff.mp hi).1
    have hxi : x = ⟨scope, 2 * (i + 1)⟩ := by
      cases x
      cases (contains_iff.mp hx).1
      exact congrArg (SourceId.mk scope) hindex
    rw [hxi]
    exact leftmostWithin_chain hl hlt (by rw [Arena.depth, length_chain]; omega)
  · rw [source?_chain hq hl, hq]
    rfl
  · rw [hq]
    refine ⟨sourceIds scope links.length, reachable_chain first hl,
      increasing_sourceIds scope links.length, fun x => ?_⟩
    rw [mem_sourceIds, leaf_chain_iff]
  · intro x hx
    exact hdescending.visitWithin_ok _ x hx (Nat.lt_succ_of_lt (contains_iff.mp hx).2)
  · exact fun hx => width_failsOnly hdescending hx
  · rw [hq]
    exact context_chain first hl schema
  · intro ctx x hctx hx
    obtain ⟨hsound, hsources⟩ := Context.sound_of hctx hdescending
    rw [← hsources] at hx
    exact hsound.starWithin_failsOnly _ x hx (Nat.lt_succ_of_lt (contains_iff.mp hx).2)
  · intro ctx x hctx hx b
    obtain ⟨hsound, hsources⟩ := Context.sound_of hctx hdescending
    rw [← hsources] at hx ⊢
    refine hsound.fromSql_failsOnly (fun f hf => .inl hf) (fun r aliasName f hmem hf => ?_) hx b
    rw [hsources] at hmem
    exact .inr ⟨r, aliasName, hmem, hf⟩
  · intro offsets x hoffsets hx
    refine variantsOf_failsOnly hdescending hoffsets ?_ _ x (contains_iff.mp hx).2
      (by rw [Arena.depth]; omega)
    intro j hj
    rw [hq, joins_chain] at hj
    obtain ⟨l, hmem, rfl⟩ := List.mem_map.mp hj
    obtain ⟨i, hi⟩ := List.mem_iff_getElem?.mp hmem
    rw [hl.target i l hi, hq, Arena.width, Arena.depth, widthWithin, node_widths, tableId,
      node_table scope first hi]
    exact Outcome.failsOnly_ofRefusable Failure.isRefusal_refused

/-- The arena of every built query is empty, or has a join for each table of the associations that
were included, and no recursion over its own ids gets stuck or leaves it. -/
theorem arena_invariant {start : Query} (hstart : Start start) (calls : List Call)
    (schema : Schema) :
    (((start.afterAll calls).sources.nodes = [] ∧ (start.afterAll calls).sources.root = none) ∨
      (start.afterAll calls).sources.LeftDeep (Association.tablesAll (included calls))) ∧
        (start.afterAll calls).Traversable schema := by
  rcases attached_afterAll hstart calls with ⟨scope, hq⟩ | ⟨scope, first, links, hq, hl, ht⟩
  · refine ⟨.inl ?_, traversable_empty hq⟩
    rw [hq]
    exact ⟨rfl, rfl⟩
  · refine ⟨.inr ?_, traversable_chain hq hl⟩
    rw [hq, ← ht]
    exact leftDeep_chain hl

end

def withReviews : List Call :=
  [.including ((Association.belongsTo "author" "authors" [("author_id", "id")]).including
      (.hasOne "agent" "agents" [("id", "author_id")])),
    .aliased "b", .including (.hasOne "review" "reviews" [("id", "book_id")])]

theorem booksWithReviews_leftDeep :
    ((table 0 "books").afterAll withReviews).sources.LeftDeep
        [.table "authors" (some "author"), .table "agents" none, .table "reviews" none] ∧
      ((table 0 "books").afterAll withReviews).Traversable
        ⟨fun _ => .ok ["id"], fun _ => .ok true, id⟩ := by
  obtain ⟨⟨hnil, -⟩ | hdeep, htraversable⟩ := arena_invariant (.table 0 "books") withReviews
    ⟨fun _ => .ok ["id"], fun _ => .ok true, id⟩
  · exact absurd hnil (List.cons_ne_nil _ _)
  · exact ⟨hdeep, htraversable⟩

end Query

end RelQuery
