import RelQuery.Proofs.Query.ArenaInvariant

/-!
# Joins in the order of their associations

The FROM clause of a built query is its first source and one LEFT JOIN for each association, each
before the associations inside it. A join is on the columns of its own table and of the source that
its association starts from, and that source stands before it in the clause.
-/

set_option autoImplicit false

namespace RelQuery

open Arena

/-- An association among the sources of a FROM clause, with the number of the source that it
starts from. The first source has number zero. -/
structure Attachment where
  association : Association
  parent : Nat

namespace Association

mutual

/-- An association as the source numbered `k`, and those inside it after it. -/
def attachments : Association → Nat → Nat → List Attachment
  | ⟨name, kind, table, aliasName, foreignKey, includes⟩, parent, k =>
    ⟨⟨name, kind, table, aliasName, foreignKey, includes⟩, parent⟩ ::
      attachmentsAll includes k (k + 1)

def attachmentsAll : List Association → Nat → Nat → List Attachment
  | [], _, _ => []
  | a :: as, parent, k => a.attachments parent k ++ attachmentsAll as parent (k + a.size)

end

def joined (as : List Association) : List Attachment :=
  attachmentsAll as 0 1

end Association

def Arena.sourceAt (scope : Nat) : Nat → SourceId
  | 0 => ⟨scope, 0⟩
  | i + 1 => tableId scope i

/-- A link joins the table of an association on its key, from the source that it starts from. -/
structure Link.Attaches (scope : Nat) (x : Attachment) (l : Link) : Prop where
  table : l.table = x.association.table
  aliasName : l.aliasName = x.association.aliasName
  foreignKey : l.join.foreignKey = x.association.foreignKey
  kind : l.join.kind = x.association.kind
  origin : l.join.origin = sourceAt scope x.parent

namespace Association

mutual

theorem attaches_links (scope : Nat) :
    (a : Association) → (parent k n : Nat) →
      List.Forall₂ (Link.Attaches scope) (a.attachments parent (k + 1))
        (a.links scope (sourceAt scope parent) k n)
  | ⟨_, _, _, _, _, includes⟩, parent, k, n => by
    rw [attachments, links]
    exact .cons ⟨rfl, rfl, rfl, rfl, rfl⟩ (attaches_linksAll scope includes (k + 1) (k + 1) (n + 1))

theorem attaches_linksAll (scope : Nat) :
    (as : List Association) → (parent k n : Nat) →
      List.Forall₂ (Link.Attaches scope) (attachmentsAll as parent (k + 1))
        (linksAll scope as (sourceAt scope parent) k n)
  | [], _, _, _ => .nil
  | a :: as, parent, k, n => by
    rw [attachmentsAll, linksAll, Nat.add_right_comm]
    exact List.rel_append (attaches_links scope a parent k n)
      (attaches_linksAll scope as parent (k + a.size) (n + a.size))

end

theorem attachmentsAll_concat (as : List Association) (a : Association) (parent k : Nat) :
    attachmentsAll (as ++ [a]) parent k =
      attachmentsAll as parent k ++ a.attachments parent (k + sizeAll as) := by
  induction as generalizing k with
  | nil => simp [attachmentsAll, sizeAll]
  | cons b as ih =>
    rw [List.cons_append, attachmentsAll, attachmentsAll, ih, sizeAll, List.append_assoc,
      Nat.add_assoc]

mutual

theorem length_attachments :
    (a : Association) → (parent k : Nat) → (a.attachments parent k).length = a.size
  | ⟨_, _, _, _, _, includes⟩, parent, k => by
    rw [attachments, size, List.length_cons, length_attachmentsAll includes]

theorem length_attachmentsAll :
    (as : List Association) → (parent k : Nat) → (attachmentsAll as parent k).length = sizeAll as
  | [], _, _ => rfl
  | a :: as, parent, k => by
    rw [attachmentsAll, sizeAll, List.length_append, length_attachments a,
      length_attachmentsAll as]

end

end Association

namespace Query

theorem joined_afterAll {start : Query} (h : Start start) (calls : List Call) :
    (start.afterAll calls).ChainOf
      (fun scope as links => List.Forall₂ (Link.Attaches scope) (Association.joined as) links)
      (included calls) := by
  refine chainOf_afterAll ⟨fun _ => .nil, ?_⟩ h calls
  intro scope as links hr a n
  have hlen : links.length = Association.sizeAll as := by
    rw [← hr.length_eq, Association.joined, Association.length_attachmentsAll]
  rw [Association.joined, Association.attachmentsAll_concat, hlen, Nat.add_comm]
  exact List.rel_append hr (Association.attaches_links scope a 0 _ n)

end Query

def tableSql (quote : String → String) (table name : String) : String :=
  if name = table then quote table else quote table ++ " " ++ quote name

def equalitySql (quote : String → String) (table parent : String) (pair : String × String) :
    String :=
  quote table ++ "." ++ quote pair.2 ++ " = " ++ quote parent ++ "." ++ quote pair.1

/-- The join of an association as the source numbered `i`, where `name` gives the names of the
sources. -/
def joinSql (quote : String → String) (name : Nat → String) (i : Nat) (x : Attachment) : String :=
  " LEFT JOIN " ++ tableSql quote x.association.table (name i) ++ " ON " ++
    String.intercalate " AND "
      (x.association.foreignKey.map (equalitySql quote (name i) (name x.parent)))

def joinsSql (quote : String → String) (name : Nat → String) : Nat → List Attachment → String
  | _, [] => ""
  | i, x :: xs => joinSql quote name i x ++ joinsSql quote name (i + 1) xs

theorem joinsSql_concat (quote : String → String) (name : Nat → String) (i : Nat)
    (xs : List Attachment) (x : Attachment) :
    joinsSql quote name i (xs ++ [x]) =
      joinsSql quote name i xs ++ joinSql quote name (i + xs.length) x := by
  induction xs generalizing i with
  | nil => simp [joinsSql]
  | cons y xs ih =>
    rw [List.cons_append, joinsSql, ih, joinsSql, String.append_assoc, List.length_cons,
      Nat.add_right_comm, Nat.add_assoc i xs.length 1]

namespace Context

open Rendering

variable {schema : Schema} {ctx : Context} {scope : Nat} {first : Source} {links : List Link}
  {xs : List Attachment} {b b' : Bindings} {sql : String}

def nameAt (ctx : Context) (scope i : Nat) : String :=
  match ctx.sourceName (sourceAt scope i) with
  | .ok name => name
  | .error _ => ""

theorem nameAt_of_ok {i : Nat} {name : String} (h : ctx.sourceName (sourceAt scope i) = .ok name) :
    ctx.nameAt scope i = name := by
  rw [nameAt, h]

/-- A source has the name that it is given in the clause. -/
def Named (ctx : Context) (scope i : Nat) : Prop :=
  ctx.sourceName (sourceAt scope i) = .ok (ctx.nameAt scope i)

theorem named_of_ok {i : Nat} {name : String} (h : ctx.sourceName (sourceAt scope i) = .ok name) :
    ctx.Named scope i := by
  rw [Named, nameAt_of_ok h, h]

theorem fromWithin_table {k n : Nat} {l : Link} (hl : links[k]? = some l)
    (h : (ctx.fromWithin ((chain scope first links).sqls schema) n (tableId scope k)).runFrom b =
      (.ok sql, b')) :
    ∃ name, ctx.sourceName (tableId scope k) = .ok name ∧
      sql = tableSql ctx.schema.quote l.table name ∧ b = b' := by
  cases n with
  | zero => cases h
  | succ n =>
    rw [fromWithin, node_sqls, tableId, node_table scope first hl] at h
    change (ofOutcome (ctx.sourceName (tableId scope k)) >>= fun name => pure
      (tableSql ctx.schema.quote l.table name)).runFrom b = _ at h
    obtain ⟨name, m, hname, h⟩ := runFrom_bind_eq_ok.mp h
    obtain ⟨hok, rfl⟩ := runFrom_ofOutcome_eq_ok.mp hname
    cases h
    exact ⟨name, hok, rfl, rfl⟩

theorem fromWithin_of_join {leaves : Arena SourceSql} {n : Nat} {x : SourceId} {j : Join}
    (hx : leaves.node x = .ok (.join j))
    (h : (ctx.fromWithin leaves (n + 1) x).runFrom b = (.ok sql, b')) :
    ∃ (base target condition : String) (m : Bindings),
      (ctx.fromWithin leaves n j.base).runFrom b = (.ok base, m) ∧
      (ctx.fromWithin leaves n j.target).runFrom m = (.ok target, b') ∧
      ctx.joinCondition j = .ok condition ∧
      sql = base ++ " LEFT JOIN " ++ target ++ " ON " ++ condition := by
  rw [fromWithin, hx] at h
  change (ofOutcome (ctx.checkForeignKey j) >>= fun _ =>
    ctx.fromWithin leaves n j.base >>= fun base =>
      ctx.fromWithin leaves n j.target >>= fun target =>
        ofOutcome (ctx.joinCondition j) >>= fun condition =>
          pure (base ++ " LEFT JOIN " ++ target ++ " ON " ++ condition)).runFrom b = _ at h
  obtain ⟨_, m, hcheck, h⟩ := runFrom_bind_eq_ok.mp h
  obtain ⟨-, rfl⟩ := runFrom_ofOutcome_eq_ok.mp hcheck
  obtain ⟨base, m, hbase, h⟩ := runFrom_bind_eq_ok.mp h
  obtain ⟨target, m', htarget, h⟩ := runFrom_bind_eq_ok.mp h
  obtain ⟨condition, m'', hlast, h⟩ := runFrom_bind_eq_ok.mp h
  obtain ⟨hcondition, rfl⟩ := runFrom_ofOutcome_eq_ok.mp hlast
  cases h
  exact ⟨base, target, condition, m, hbase, htarget, hcondition, rfl⟩

theorem fromWithin_join {k n : Nat} {l : Link} {x : Attachment} (hl : links[k]? = some l)
    (hlinked : Linked scope links) (hx : l.Attaches scope x)
    (h : (ctx.fromWithin ((chain scope first links).sqls schema) (n + 1)
      ⟨scope, 2 * (k + 1)⟩).runFrom b = (.ok sql, b')) :
    ∃ base, (ctx.fromWithin ((chain scope first links).sqls schema) n ⟨scope, 2 * k⟩).runFrom b =
        (.ok base, b') ∧
      sql = base ++ joinSql ctx.schema.quote (ctx.nameAt scope) (k + 1) x ∧
      ctx.Named scope (k + 1) ∧ ctx.Named scope x.parent := by
  have hnode : ((chain scope first links).sqls schema).node ⟨scope, 2 * (k + 1)⟩ =
      .ok (.join l.join) := by
    rw [node_sqls, node_join scope first hl]
    rfl
  obtain ⟨base, target, condition, m, hbase, htarget, hcondition, rfl⟩ := fromWithin_of_join hnode h
  rw [hlinked.base k l hl] at hbase
  rw [hlinked.target k l hl] at htarget
  obtain ⟨name, hname, rfl, rfl⟩ := fromWithin_table hl htarget
  obtain ⟨_, hn, hrest⟩ := Outcome.bind_eq_ok.mp hcondition
  obtain ⟨origin, ho, hrest⟩ := Outcome.bind_eq_ok.mp hrest
  rw [hlinked.target k l hl, hname] at hn
  cases hn
  cases hrest
  rw [hx.origin] at ho
  have htable : ctx.nameAt scope (k + 1) = name := nameAt_of_ok hname
  have hparent : ctx.nameAt scope x.parent = origin := nameAt_of_ok ho
  refine ⟨base, hbase, ?_, named_of_ok hname, named_of_ok ho⟩
  rw [joinSql, htable, hparent, hx.table, hx.foreignKey]
  simp only [String.append_assoc]
  rfl

/-- The sources up to a join: the first one, and each table with its condition. -/
theorem fromWithin_chain (hlinked : Linked scope links)
    (hxs : List.Forall₂ (Link.Attaches scope) xs links) {k n : Nat} (hk : k ≤ links.length)
    (h : (ctx.fromWithin ((chain scope first links).sqls schema) n ⟨scope, 2 * k⟩).runFrom b =
      (.ok sql, b')) :
    ∃ leaf, (ctx.leafSql ⟨scope, 0⟩ (first.sql schema)).runFrom b = (.ok leaf, b') ∧
      sql = leaf ++ joinsSql ctx.schema.quote (ctx.nameAt scope) 1 (xs.take k) ∧
      ∀ (i : Nat) (x : Attachment), i < k → xs[i]? = some x →
        ctx.Named scope (i + 1) ∧ ctx.Named scope x.parent := by
  induction k generalizing n sql with
  | zero =>
    cases n with
    | zero => cases h
    | succ n =>
      rw [fromWithin, node_sqls, node_first] at h
      refine ⟨sql, h, ?_, fun i x hi => absurd hi (Nat.not_lt_zero i)⟩
      rw [List.take_zero, joinsSql, String.append_empty]
  | succ k ih =>
    cases n with
    | zero => cases h
    | succ n =>
      have hl : links[k]? = some links[k] := List.getElem?_eq_getElem hk
      have hlt : k < xs.length := by rwa [hxs.length_eq]
      have hx : xs[k]? = some xs[k] := List.getElem?_eq_getElem hlt
      have hattaches : links[k].Attaches scope xs[k] := hxs.get hlt hk
      obtain ⟨base, hbase, rfl, htable, hparent⟩ := fromWithin_join hl hlinked hattaches h
      obtain ⟨leaf, hleaf, rfl, hnamed⟩ := ih (Nat.le_of_succ_le hk) hbase
      refine ⟨leaf, hleaf, ?_, ?_⟩
      · rw [List.take_add_one, hx, Option.toList_some, joinsSql_concat, List.length_take,
          Nat.min_eq_left (Nat.le_of_lt hlt), String.append_assoc, Nat.add_comm 1 k]
      · intro i x hi hxi
        rcases Nat.lt_succ_iff_lt_or_eq.mp hi with hi | rfl
        · exact hnamed i x hi hxi
        · rw [hx] at hxi
          cases hxi
          exact ⟨htable, hparent⟩

end Context

theorem Arena.le_of_begins {scope k i : Nat} (h : Begins scope k (sourceAt scope i)) : i ≤ k := by
  cases i with
  | zero => exact Nat.zero_le k
  | succ i =>
    rcases h with h | ⟨m, hm, h⟩
    · cases h
    · have hindex : 2 * i + 1 = 2 * m + 1 := congrArg SourceId.index h
      omega

/-- A FROM clause is the first source of a query and the joins of associations, one for each, of
which every one starts from a source with a lesser number. The names in it are the resolved ones. -/
structure Context.Scopes (ctx : Context) (q : Query) (xs : List Attachment) (sql : String) :
    Prop where
  first : q.source? = some (sourceAt q.sources.scope 0)
  text : ∃ leaf,
    (ctx.fromSql (q.sources.sqls ctx.schema) (sourceAt q.sources.scope 0)).Yields leaf ∧
    sql = leaf ++ joinsSql ctx.schema.quote (ctx.nameAt q.sources.scope) 1 xs
  length : q.sources.joins.length = xs.length
  join : ∀ (i : Nat) (x : Attachment), xs[i]? = some x → ∃ j, q.sources.joins[i]? = some j ∧
    j.target = sourceAt q.sources.scope (i + 1) ∧ j.origin = sourceAt q.sources.scope x.parent ∧
      q.Attaches x.association j
  earlier : ∀ (i : Nat) (x : Attachment), xs[i]? = some x → x.parent < i + 1
  named : ∀ (i : Nat) (x : Attachment), xs[i]? = some x →
    ctx.Named q.sources.scope (i + 1) ∧ ctx.Named q.sources.scope x.parent

namespace Query

open Rendering

theorem scopes_chain {q : Query} {schema : Schema} {scope : Nat} {first : Source}
    {links : List Link} {xs : List Attachment} (hq : q.sources = chain scope first links)
    (hl : Linked scope links) (hxs : List.Forall₂ (Link.Attaches scope) xs links) {ctx : Context}
    (hctx : Context.of schema q.sources = .ok ctx) {clause : Option String}
    (h : (ctx.fromClause (q.sources.sqls schema)).Yields clause) :
    ∃ sql, clause = some sql ∧ ctx.Scopes q xs sql := by
  have hschema : ctx.schema = schema := by
    obtain ⟨names, -, rfl⟩ := Outcome.map_eq_ok.mp hctx
    rfl
  subst hschema
  obtain ⟨b, b', h⟩ := h
  rw [hq] at h
  obtain ⟨sql, hsql, rfl⟩ := runFrom_map_eq_ok.mp h
  obtain ⟨leaf, hleaf, rfl, hnamed⟩ := Context.fromWithin_chain hl hxs (Nat.le_refl _) hsql
  have hscope : q.sources.scope = scope := by rw [hq]; rfl
  have hlink : ∀ (i : Nat) (x : Attachment), xs[i]? = some x →
      ∃ l, links[i]? = some l ∧ l.Attaches scope x := by
    intro i x hx
    obtain ⟨hi, rfl⟩ := List.getElem?_eq_some_iff.mp hx
    have hi' : i < links.length := hxs.length_eq ▸ hi
    exact ⟨links[i], List.getElem?_eq_getElem hi', hxs.get hi hi'⟩
  rw [List.take_of_length_le hxs.length_eq.le]
  refine ⟨_, rfl, ?_, ⟨leaf, ⟨b, b', ?_⟩, ?_⟩, ?_, ?_, ?_, ?_⟩
  · rw [hscope]
    exact source?_chain hq hl
  · rw [hscope, hq, Context.fromSql, Arena.depth, Context.fromWithin, node_sqls]
    exact hleaf
  · rw [hscope]
  · rw [hq, joins_chain, List.length_map, hxs.length_eq]
  · intro i x hx
    obtain ⟨l, hi, hat⟩ := hlink i x hx
    refine ⟨l.join, ?_, ?_, ?_, ?_, hat.foreignKey, hat.kind⟩
    · rw [hq, joins_chain, List.getElem?_map, hi]
      rfl
    · rw [hscope]
      exact hl.target i l hi
    · rw [hscope]
      exact hat.origin
    · rw [hl.target i l hi, hq, tableId, node_table scope first hi, hat.table, hat.aliasName]
  · intro i x hx
    obtain ⟨l, hi, hat⟩ := hlink i x hx
    have hbegins := hl.origin i l hi
    rw [hat.origin] at hbegins
    exact Nat.lt_succ_of_le (le_of_begins hbegins)
  · intro i x hx
    rw [hscope]
    exact hnamed i x (hxs.length_eq ▸ (List.getElem?_eq_some_iff.mp hx).1) hx

/-- The FROM clause of a built query is its first source and the associations that were included,
in the order of their attachment, if the query has a source at all. -/
theorem from_well_scoped {start : Query} (hstart : Start start) (calls : List Call)
    {schema : Schema} {b b' : Bindings} {sql : String}
    (h : ((start.afterAll calls).render schema).runFrom b = (.ok sql, b')) :
    ∃ (ctx : Context) (c : Clauses), Context.of schema (start.afterAll calls).sources = .ok ctx ∧
      ((start.afterAll calls).clauses schema).runFrom b = (.ok c, b') ∧ sql = c.sql ∧
        (((start.afterAll calls).sources.root = none ∧ c.source = none) ∨
          ∃ clause, c.source = some clause ∧
            ctx.Scopes (start.afterAll calls) (Association.joined (included calls)) clause) := by
  obtain ⟨c, hc, rfl⟩ := runFrom_map_eq_ok.mp h
  obtain ⟨ctx, hctx, hsource, -, -⟩ := clausesOf_of_ok hc
  refine ⟨ctx, c, hctx, hc, rfl, ?_⟩
  rcases joined_afterAll hstart calls with ⟨scope, hq⟩ | ⟨scope, first, links, hq, hl, hxs⟩
  · obtain ⟨m, m', hsource⟩ := hsource
    rw [hq] at hsource ⊢
    obtain ⟨hnone, -⟩ := Prod.mk.inj hsource
    exact .inl ⟨rfl, (Except.ok.inj hnone).symm⟩
  · exact .inr (scopes_chain hq hl hxs hctx hsource)

def keyedSchema : Schema where
  columns := fun _ => .ok ["id", "author_id", "book_id"]
  hasRowId := fun _ => .ok true
  quote := Text.quoteIdentifier

def booksWithReviewsSql : String :=
  "SELECT \"b\".*, \"author\".*, \"agents\".*, \"reviews\".* FROM \"books\" \"b\"" ++
    " LEFT JOIN \"authors\" \"author\" ON \"author\".\"id\" = \"b\".\"author_id\"" ++
    " LEFT JOIN \"agents\" ON \"agents\".\"author_id\" = \"author\".\"id\"" ++
    " LEFT JOIN \"reviews\" ON \"reviews\".\"book_id\" = \"b\".\"id\""

set_option maxRecDepth 2000 in
theorem booksWithReviews_scoped :
    (((table 0 "books").afterAll withReviews).render keyedSchema).runFrom .empty =
        (.ok booksWithReviewsSql, .empty) ∧
      ∃ (ctx : Context) (clause : String),
        ctx.Scopes ((table 0 "books").afterAll withReviews)
          (Association.joined (included withReviews)) clause := by
  have hrun : (((table 0 "books").afterAll withReviews).render keyedSchema).runFrom .empty =
      (.ok booksWithReviewsSql, .empty) := rfl
  obtain ⟨ctx, c, -, -, -, ⟨hroot, -⟩ | ⟨clause, -, hscopes⟩⟩ :=
    from_well_scoped (.table 0 "books") withReviews hrun
  · cases hroot
  · exact ⟨hrun, ctx, clause, hscopes⟩

end Query

end RelQuery
