import RelQuery.Proofs.Query.JoinedSources

/-!
# The order of a FROM clause

A FROM clause lists the sources under its root from left to right, those of a base before those of
its target. A subquery in it is the text of that query alone, whatever stands around it.
-/

set_option autoImplicit false

namespace RelQuery

namespace Arena

variable {α : Type}

def leavesWithin (a : Arena α) : Nat → SourceId → Outcome (List SourceId)
  | 0, _ => .error .endless
  | depth + 1, id => do
    match ← a.node id with
    | .join j => do
      let base ← a.leavesWithin depth j.base
      let target ← a.leavesWithin depth j.target
      pure (base ++ target)
    | .leaf _ => pure [id]

def leaves (a : Arena α) : Outcome (List SourceId) :=
  match a.root with
  | some root => a.leavesWithin a.depth root
  | none => .ok []

/-- The root, and what the joins under it refer to. -/
inductive Reached (a : Arena α) : SourceId → Prop
  | root {x : SourceId} (h : a.root = some x) : Reached a x
  | base {x : SourceId} {j : Join} (hx : Reached a x) (hj : a.node x = .ok (.join j)) :
    Reached a j.base
  | origin {x : SourceId} {j : Join} (hx : Reached a x) (hj : a.node x = .ok (.join j)) :
    Reached a j.origin
  | target {x : SourceId} {j : Join} (hx : Reached a x) (hj : a.node x = .ok (.join j)) :
    Reached a j.target

section Chain

variable {scope : Nat} {first : Source} {links : List Link}

theorem leavesWithin_chain (h : Linked scope links) {k n : Nat} (hk : k ≤ links.length)
    (hn : k < n) :
    (chain scope first links).leavesWithin n ⟨scope, 2 * k⟩ = .ok (sourceIds scope k) := by
  induction k generalizing n with
  | zero =>
    obtain ⟨n, rfl⟩ : ∃ m, n = m + 1 := ⟨n - 1, by omega⟩
    rfl
  | succ k ih =>
    obtain ⟨n, rfl⟩ : ∃ m, n = m + 2 := ⟨n - 2, by omega⟩
    have hl : links[k]? = some links[k] := List.getElem?_eq_getElem hk
    rw [leavesWithin, node_join scope first hl]
    show ((chain scope first links).leavesWithin (n + 1) links[k].join.base >>= fun base =>
      (chain scope first links).leavesWithin (n + 1) links[k].join.target >>= fun target =>
        pure (base ++ target)) = _
    rw [h.base k _ hl, h.target k _ hl, ih (by omega) (by omega), leavesWithin, tableId,
      node_table scope first hl, sourceIds_succ]
    rfl

theorem leaves_chain (h : Linked scope links) :
    (chain scope first links).leaves = .ok (sourceIds scope links.length) := by
  refine leavesWithin_chain h (Nat.le_refl _) ?_
  rw [depth, length_chain]
  omega

theorem reached_join (h : Linked scope links) {k : Nat} (hk : k ≤ links.length) :
    (chain scope first links).Reached ⟨scope, 2 * k⟩ := by
  -- from the root down
  induction hm : links.length - k generalizing k with
  | zero =>
    obtain rfl : k = links.length := by omega
    exact .root rfl
  | succ m ih =>
    have hlt : k < links.length := by omega
    have hl : links[k]? = some links[k] := List.getElem?_eq_getElem hlt
    have hnext := ih hlt (by omega)
    rw [← h.base k _ hl]
    exact .base hnext (node_join scope first hl scope)

theorem begins_of_reached (h : Linked scope links) {x : SourceId}
    (hx : (chain scope first links).Reached x) :
    (∃ k, x = ⟨scope, 2 * k⟩) ∨ Begins scope links.length x := by
  have hlt {i : Nat} {l : Link} (hl : links[i]? = some l) : i < links.length :=
    (List.getElem?_eq_some_iff.mp hl).1
  cases hx with
  | root hr =>
    cases hr
    exact .inl ⟨links.length, rfl⟩
  | base _ hj =>
    obtain ⟨i, l, hl, rfl, -⟩ := join_chain hj
    exact .inl ⟨i, h.base i l hl⟩
  | origin _ hj =>
    obtain ⟨i, l, hl, rfl, -⟩ := join_chain hj
    exact .inr ((h.origin i l hl).mono (Nat.le_of_lt (hlt hl)))
  | target _ hj =>
    obtain ⟨i, l, hl, rfl, -⟩ := join_chain hj
    exact .inr (.inr ⟨i, hlt hl, h.target i l hl⟩)

theorem mem_sourceIds_iff_reached (h : Linked scope links) {x : SourceId} :
    x ∈ sourceIds scope links.length ↔ (chain scope first links).Reached x ∧
      ∃ s, (chain scope first links).node x = .ok (.leaf s) := by
  constructor
  · intro hx
    refine ⟨?_, leaf_of_mem_sourceIds first links x hx⟩
    rcases mem_sourceIds.mp hx with rfl | ⟨i, hi, rfl⟩
    · exact reached_join h (Nat.zero_le _)
    · have hl : links[i]? = some links[i] := List.getElem?_eq_getElem hi
      rw [← h.target i _ hl]
      exact .target (reached_join h hi) (node_join scope first hl scope)
  · rintro ⟨hx, s, hs⟩
    rw [mem_sourceIds]
    rcases begins_of_reached h hx with ⟨k, rfl⟩ | hx
    · rcases node_chain_cases hs with ⟨hindex, -⟩ | ⟨i, l, -, ⟨hindex, -⟩ | ⟨-, hnode⟩⟩
      · obtain rfl : k = 0 := by simpa using hindex
        exact .inl rfl
      · simp only at hindex
        omega
      · cases hnode
    · exact hx

end Chain

end Arena

namespace Context

open Rendering

/-- How a source stands in a FROM clause. A subquery is rendered with its own sources and names
only. -/
inductive WritesSource (ctx : Context) (x : SourceId) : String → Prop
  | table {table name : String} {aliasName : Option String}
    (hx : ctx.sources.node x = .ok (.leaf (.table table aliasName)))
    (hname : ctx.sourceName x = .ok name) :
    WritesSource ctx x (tableSql ctx.quote table name)
  | named {q : Query} {aliasName : Option String} {sql name : String}
    (hx : ctx.sources.node x = .ok (.leaf (.query q aliasName)))
    (hsql : (q.render ctx.schema).Yields sql) (hname : ctx.names[x.index]? = some (some name)) :
    WritesSource ctx x ("(" ++ sql ++ ") AS " ++ ctx.quote name)
  | nameless {q : Query} {aliasName : Option String} {sql : String}
    (hx : ctx.sources.node x = .ok (.leaf (.query q aliasName)))
    (hsql : (q.render ctx.schema).Yields sql)
    (hname : ∀ name, ctx.names[x.index]? ≠ some (some name)) :
    WritesSource ctx x ("(" ++ sql ++ ")")

/-- A FROM clause that lists sources from left to right. -/
inductive Lists (ctx : Context) : List SourceId → String → Prop
  | source {x : SourceId} {sql : String} (h : ctx.WritesSource x sql) : Lists ctx [x] sql
  | join {ids ids' : List SourceId} {base target : String} (condition : String)
    (hbase : Lists ctx ids base) (htarget : Lists ctx ids' target) :
    Lists ctx (ids ++ ids') (base ++ " LEFT JOIN " ++ target ++ " ON " ++ condition)

variable {ctx : Context} {x : SourceId} {b b' : Bindings} {sql : String}

theorem leafSql_writesSource {source : Source} (hx : ctx.sources.node x = .ok (.leaf source))
    (h : (ctx.leafSql x (source.sql ctx.schema)).runFrom b = (.ok sql, b')) :
    ctx.WritesSource x sql := by
  cases source with
  | table table aliasName =>
    obtain ⟨name, m, hname, hsql⟩ := runFrom_bind_eq_ok.mp h
    obtain ⟨hok, rfl⟩ := runFrom_ofOutcome_eq_ok.mp hname
    cases hsql
    exact .table hx hok
  | query q aliasName =>
    obtain ⟨inner, m, hinner, hsql⟩ := runFrom_bind_eq_ok.mp h
    have hyields : (q.render ctx.schema).Yields inner := ⟨b, m, hinner⟩
    rcases hname : ctx.names[x.index]? with _ | _ | name
    · rw [hname] at hsql
      cases hsql
      exact .nameless hx hyields (by simp [hname])
    · rw [hname] at hsql
      cases hsql
      exact .nameless hx hyields (by simp [hname])
    · rw [hname] at hsql
      cases hsql
      exact .named hx hyields hname

theorem fromWithin_lists {n : Nat}
    (h : (ctx.fromWithin (ctx.sources.sqls ctx.schema) n x).runFrom b = (.ok sql, b')) :
    ∃ ids, ctx.sources.leavesWithin n x = .ok ids ∧ ctx.Lists ids sql := by
  induction n generalizing x b b' sql with
  | zero => cases h
  | succ n ih =>
    have hsqls := Arena.node_sqls ctx.schema ctx.sources x
    rw [Arena.leavesWithin]
    rcases hx : ctx.sources.node x with _ | source | j
    · rw [fromWithin, hsqls, hx] at h
      cases h
    · rw [fromWithin, hsqls, hx] at h
      exact ⟨[x], rfl, .source (leafSql_writesSource hx h)⟩
    · rw [hx, Except.map, Node.recast, Join.rescope_id] at hsqls
      obtain ⟨base, target, condition, m, hbase, htarget, -, rfl⟩ := fromWithin_of_join hsqls h
      obtain ⟨ids, hids, hlists⟩ := ih hbase
      obtain ⟨ids', hids', hlists'⟩ := ih htarget
      refine ⟨ids ++ ids', ?_, .join condition hlists hlists'⟩
      show (ctx.sources.leavesWithin n j.base >>= fun base =>
        ctx.sources.leavesWithin n j.target >>= fun target =>
          pure (base ++ target)) = _
      rw [hids, hids']
      rfl

theorem fromClause_lists {ids : List SourceId} (hids : ctx.sources.leaves = .ok ids)
    (h : (ctx.fromClause (ctx.sources.sqls ctx.schema)).runFrom b = (.ok (some sql), b')) :
    ctx.Lists ids sql := by
  rw [fromClause] at h
  rw [Arena.leaves] at hids
  rcases hroot : ctx.sources.root with _ | root
  · rw [Arena.sqls, hroot] at h
    cases h
  · rw [hroot] at hids
    rw [show (ctx.sources.sqls ctx.schema).root = some root from hroot] at h
    obtain ⟨text, htext, heq⟩ := runFrom_map_eq_ok.mp h
    cases heq
    have hdepth : (ctx.sources.sqls ctx.schema).depth = ctx.sources.depth := by
      rw [Arena.depth, Arena.sqls, Source.nodesSql_eq, List.length_map, Arena.depth]
    rw [fromSql, hdepth] at htext
    obtain ⟨ids', hids', hlists⟩ := fromWithin_lists htext
    cases hids.symm.trans hids'
    exact hlists

end Context

end RelQuery
