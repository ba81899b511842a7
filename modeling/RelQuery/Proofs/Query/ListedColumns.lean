import RelQuery.Proofs.Query.Columns
import RelQuery.Proofs.Query.CountedText
import RelQuery.Proofs.Query.FromOrder
import RelQuery.Proofs.Query.NameClash

/-!
# The columns that are written

What a SELECT list says in its text are bare stars, stars of single sources and expressions. The
columns that these stand for add up to the width that is found from the schema, where a subquery
counts the columns of its own list.
-/

set_option autoImplicit false

namespace RelQuery

open Arena Rendering

namespace Query

/-- A query that a builder makes over a table, or over another query that a builder made. -/
inductive Composed : Query → Prop
  | new (scope : Nat) : Composed (new scope)
  | table (scope : Nat) (name : String) : Composed (table scope name)
  | ofQuery {q : Query} (scope : Nat) (aliasName : Option String) (h : Composed q) :
    Composed (ofQuery scope q aliasName)
  | after {q : Query} (call : Call) (h : Composed q) : Composed (q.after call)

variable {q r : Query} {aliasName : Option String}

theorem Composed.built (h : q.Composed) : q.Built := by
  induction h with
  | new scope => exact ⟨_, [], .new scope, rfl⟩
  | table scope name => exact ⟨_, [], .table scope name, rfl⟩
  | @ofQuery q scope aliasName => exact ⟨_, [], .ofQuery scope q aliasName, rfl⟩
  | after call _ ih =>
    obtain ⟨start, calls, hstart, rfl⟩ := ih
    exact ⟨start, calls ++ [call], hstart, by simp [afterAll]⟩

theorem Composed.unordered (h : q.Composed) : q.unordered.Composed := by
  have hordered : (q.after (.order [])).Composed := h.after _
  cases hreversed : q.reversed with
  | false =>
    have heq : q.unordered = q.after (.order []) := by
      rw [Query.unordered, Query.after, Query.order, ← hreversed]
    exact heq ▸ hordered
  | true =>
    have heq : q.unordered = (q.after (.order [])).after .reverse := by
      simp [Query.unordered, Query.after, Query.order, Query.reverse, hreversed]
    exact heq ▸ hordered.after .reverse

theorem eq_first_of_mem_chain {scope : Nat} {first : Source} {links : List Link}
    (h : .leaf (.query r aliasName) ∈ (chain scope first links).nodes) :
    first = .query r aliasName := by
  simpa [chain, Link.nodes, eq_comm] using h

theorem subquery_of_after (hq : q.sources.Chained) (call : Call)
    (h : .leaf (.query r aliasName) ∈ (q.after call).sources.nodes) :
    (∃ aliasName', .leaf (.query r aliasName') ∈ q.sources.nodes) ∨ r = q.unordered := by
  cases call with
  | aliased name =>
    rcases hq with ⟨scope, hs⟩ | ⟨scope, first, links, hs, hl⟩
    · rw [after, aliased, source?_empty hs] at h
      exact .inl ⟨aliasName, h⟩
    · rw [after, aliased_chain hs hl] at h
      have hfirst := eq_first_of_mem_chain h
      cases first with
      | table => cases hfirst
      | query s alias' =>
        cases hfirst
        rw [hs]
        exact .inl ⟨alias', List.mem_cons_self⟩
  | including a =>
    rcases hq with ⟨scope, hs⟩ | ⟨scope, first, links, hs, hl⟩
    · rw [after, including, source?_empty hs] at h
      exact .inl ⟨aliasName, h⟩
    · rw [after, including_chain hs hl] at h
      have hfirst := eq_first_of_mem_chain h
      rw [hs, hfirst]
      exact .inl ⟨aliasName, List.mem_cons_self⟩
  | countQuery scope =>
    rcases q.countQueryIn_cases with hc | hc | ⟨e, _, -, hc⟩
    · rw [after, hc] at h
      cases List.mem_singleton.mp h
      exact .inr rfl
    · rw [after, hc] at h
      exact .inl ⟨aliasName, h⟩
    · rw [after, hc] at h
      exact .inl ⟨aliasName, h⟩
  | _ => exact .inl ⟨aliasName, h⟩

theorem Composed.subquery (h : q.Composed)
    (hr : .leaf (.query r aliasName) ∈ q.sources.nodes) : r.Composed := by
  induction h generalizing aliasName with
  | new => cases hr
  | table => cases List.mem_singleton.mp hr
  | ofQuery _ _ h =>
    cases List.mem_singleton.mp hr
    exact h
  | after call h ih =>
    rcases subquery_of_after h.built.chained call hr with ⟨alias', hr⟩ | rfl
    · exact ih hr
    · exact h.unordered

end Query

/-- The tables that a source reads from are in the schema, those too of its subqueries. -/
inductive Source.Known (schema : Schema) : Source → Prop
  | table {name : String} {aliasName : Option String} {columns : List String}
    (h : schema.columns name = .ok columns) : Known schema (.table name aliasName)
  | query {q : Query} {aliasName : Option String}
    (h : ∀ source, .leaf source ∈ q.sources.nodes → Known schema source) :
    Known schema (.query q aliasName)

def Query.Known (schema : Schema) (q : Query) : Prop :=
  ∀ source, .leaf source ∈ q.sources.nodes → source.Known schema

inductive Entry
  | everything
  | allOf (x : SourceId)
  | computed (e : Expr) (aliasName : Option String)

/-- The entries that an item stands for. The star of a join stands for those of the sources under
it, from left to right. -/
def Item.entries (sources : Arena Source) : Item → Outcome (List Entry)
  | .star x => (sources.leavesWithin sources.depth x).map (List.map .allOf)
  | .expr e aliasName => .ok [.computed e aliasName]

def Item.allEntries (sources : Arena Source) : List Item → Outcome (List Entry)
  | [] => .ok []
  | item :: items => do
    let entries ← item.entries sources
    let rest ← allEntries sources items
    pure (entries ++ rest)

def Query.entries (q : Query) : Outcome (List Entry) := do
  if ← selectsBareStar q.selection q.sources then pure [.everything]
  else Item.allEntries q.sources q.selection

inductive Context.WritesEntry (ctx : Context) : Entry → String → Prop
  | everything : WritesEntry ctx .everything "*"
  | allOf {x : SourceId} {name : String} (h : ctx.sourceName x = .ok name) :
    WritesEntry ctx (.allOf x) (ctx.quote name ++ ".*")
  | computed {e : Expr} {aliasName : Option String} {sql : String}
    (h : ((Item.expr e aliasName).render ctx).Yields sql) :
    WritesEntry ctx (.computed e aliasName) sql

theorem commaSeparated_append {ss ts : List String} (hs : ss ≠ []) :
    commaSeparated (ss ++ ts) = commaSeparated (commaSeparated ss :: ts) := by
  cases ts with
  | nil => rw [List.append_nil, commaSeparated, commaSeparated, String.intercalate_singleton]
  | cons t ts =>
    rw [commaSeparated, commaSeparated,
      String.intercalate_append_of_ne_nil hs (List.cons_ne_nil t ts),
      String.intercalate_cons_of_ne_nil (List.cons_ne_nil t ts)]
    rfl

theorem commaSeparated_cons_congr {ss ts : List String} (s : String) (hnil : ss = [] ↔ ts = [])
    (h : commaSeparated ss = commaSeparated ts) :
    commaSeparated (s :: ss) = commaSeparated (s :: ts) := by
  by_cases hs : ss = []
  · rw [hs, hnil.mp hs]
  · rw [commaSeparated, commaSeparated, String.intercalate_cons_of_ne_nil hs,
      String.intercalate_cons_of_ne_nil (hnil.not.mp hs)]
    exact congrArg (s ++ ", " ++ ·) h

/-- The star of a join is the list of the stars of the sources under it. -/
theorem Context.starWithin_entries {ctx : Context} {n : Nat} {x : SourceId} {sql : String}
    (h : ctx.starWithin n x = .ok sql) : ∃ ids texts,
      ctx.sources.leavesWithin n x = .ok ids ∧
      List.Forall₂ ctx.WritesEntry (ids.map .allOf) texts ∧ texts ≠ [] ∧
      sql = commaSeparated texts := by
  induction n generalizing x sql with
  | zero => cases h
  | succ n ih =>
    rw [starWithin] at h
    rw [leavesWithin]
    obtain ⟨node, hnode, h⟩ := Outcome.bind_eq_ok.mp h
    rw [hnode]
    cases node with
    | leaf source =>
      obtain ⟨name, hname, h⟩ := Outcome.bind_eq_ok.mp h
      cases h
      refine ⟨[x], [ctx.quote name ++ ".*"], rfl, .cons (.allOf hname) .nil, by simp, ?_⟩
      rw [commaSeparated, String.intercalate_singleton]
    | join j =>
      obtain ⟨base, hbase, h⟩ := Outcome.bind_eq_ok.mp h
      obtain ⟨target, htarget, h⟩ := Outcome.bind_eq_ok.mp h
      cases h
      obtain ⟨ids, texts, hids, htexts, hne, rfl⟩ := ih hbase
      obtain ⟨ids', texts', hids', htexts', hne', rfl⟩ := ih htarget
      refine ⟨ids ++ ids', texts ++ texts', ?_, ?_, by simp [hne], ?_⟩
      · show (ctx.sources.leavesWithin n j.base >>= fun base =>
          ctx.sources.leavesWithin n j.target >>= fun target => pure (base ++ target)) = _
        rw [hids, hids']
        rfl
      · rw [List.map_append]
        exact List.rel_append htexts htexts'
      · rw [commaSeparated, commaSeparated, commaSeparated,
          String.intercalate_append_of_ne_nil hne hne']

namespace Item

variable {ctx : Context} {b b' : Bindings}

theorem render_entries {item : Item} {sql : String}
    (h : (item.render ctx).runFrom b = (.ok sql, b')) : ∃ entries texts,
      item.entries ctx.sources = .ok entries ∧ List.Forall₂ ctx.WritesEntry entries texts ∧
      texts ≠ [] ∧ sql = commaSeparated texts := by
  cases item with
  | star x =>
    obtain ⟨hsql, -⟩ := runFrom_ofOutcome_eq_ok.mp h
    obtain ⟨ids, texts, hids, htexts, hne, heq⟩ := Context.starWithin_entries hsql
    refine ⟨ids.map .allOf, texts, ?_, htexts, hne, heq⟩
    rw [entries, hids]
    rfl
  | expr e aliasName =>
    refine ⟨[.computed e aliasName], [sql], rfl, .cons (.computed ⟨b, b', h⟩) .nil, by simp, ?_⟩
    rw [commaSeparated, String.intercalate_singleton]

theorem renderAll_entries {items : List Item} {sqls : List String}
    (h : (renderAll ctx items).runFrom b = (.ok sqls, b')) : ∃ entries texts,
      allEntries ctx.sources items = .ok entries ∧ List.Forall₂ ctx.WritesEntry entries texts ∧
      (sqls = [] ↔ texts = []) ∧ commaSeparated sqls = commaSeparated texts := by
  induction items generalizing b sqls with
  | nil =>
    cases h
    exact ⟨[], [], rfl, .nil, Iff.rfl, rfl⟩
  | cons item items ih =>
    obtain ⟨sql, m, hitem, h⟩ := runFrom_bind_eq_ok.mp h
    obtain ⟨rest, m', hrest, h⟩ := runFrom_bind_eq_ok.mp h
    cases h
    obtain ⟨entries, texts, hentries, htexts, hne, rfl⟩ := render_entries hitem
    obtain ⟨more, texts', hmore, htexts', hnil, heq⟩ := ih hrest
    refine ⟨entries ++ more, texts ++ texts', ?_, List.rel_append htexts htexts', by simp [hne], ?_⟩
    · rw [allEntries, hentries]
      show (allEntries ctx.sources items >>= _) = _
      rw [hmore]
      rfl
    · rw [commaSeparated_append hne]
      exact commaSeparated_cons_congr _ hnil heq

end Item

/-- The number of columns of an entry, where the sources `ids` have the widths `widths`. -/
def Entry.count (ids : List SourceId) (widths : SourceId → Nat) : Entry → Nat
  | .everything => (ids.map widths).sum
  | .allOf x => widths x
  | .computed _ _ => 1

/-- The number of columns of a source: those that the schema shows of its table, or those of the
query itself. -/
inductive Arena.LeafWidth (schema : Schema) (a : Arena Source) (x : SourceId) : Nat → Prop
  | table {name : String} {aliasName : Option String} {columns : List String}
    (hx : a.node x = .ok (.leaf (.table name aliasName)))
    (h : schema.columns name = .ok columns) : LeafWidth schema a x columns.length
  | query {q : Query} {aliasName : Option String} {width : Nat}
    (hx : a.node x = .ok (.leaf (.query q aliasName))) (h : q.width schema = .ok width) :
    LeafWidth schema a x width

section Widths

variable {schema : Schema} {a : Arena Source} {widths : SourceId → Nat} {ids : List SourceId}

theorem Source.width_table {name : String} {aliasName : Option String} {width : Nat} :
    (Source.table name aliasName).width schema = .ok width ↔
      ∃ columns, schema.columns name = .ok columns ∧ columns.length = width := by
  rw [Source.width, Outcome.ofRefusable_eq_ok, Schema.width]
  cases schema.columns name with
  | error cause => exact ⟨nofun, nofun⟩
  | ok columns =>
    constructor
    · intro h
      exact ⟨columns, rfl, Except.ok.inj h⟩
    · rintro ⟨_, hcolumns, rfl⟩
      cases hcolumns
      rfl

theorem Arena.leafWidth_iff {x : SourceId} {width : Nat} : a.LeafWidth schema x width ↔
    ∃ source, a.node x = .ok (.leaf source) ∧ source.width schema = .ok width := by
  constructor
  · rintro (⟨hx, h⟩ | ⟨hx, h⟩)
    · exact ⟨_, hx, Source.width_table.mpr ⟨_, h, rfl⟩⟩
    · exact ⟨_, hx, h⟩
  · rintro ⟨source, hx, h⟩
    cases source with
    | table name aliasName =>
      obtain ⟨columns, hcolumns, rfl⟩ := Source.width_table.mp h
      exact .table hx hcolumns
    | query q aliasName => exact .query hx h

theorem Arena.LeafWidth.unique {x : SourceId} {m n : Nat} (hm : a.LeafWidth schema x m)
    (hn : a.LeafWidth schema x n) : m = n := by
  obtain ⟨source, hx, hm⟩ := leafWidth_iff.mp hm
  obtain ⟨source', hx', hn⟩ := leafWidth_iff.mp hn
  cases hx.symm.trans hx'
  exact Except.ok.inj (hm.symm.trans hn)

theorem Arena.depth_widths (schema : Schema) (a : Arena Source) :
    (a.widths schema).depth = a.depth := by
  rw [widths_eq, depth_recast]

theorem Arena.widthWithin_of_leaves {n : Nat} {x : SourceId}
    (hids : a.leavesWithin n x = .ok ids) (hw : ∀ y ∈ ids, a.LeafWidth schema y (widths y)) :
    (a.widths schema).widthWithin n x = .ok (ids.map widths).sum := by
  induction n generalizing x ids with
  | zero => cases hids
  | succ n ih =>
    rw [leavesWithin] at hids
    rw [widthWithin, node_widths]
    obtain ⟨node, hnode, hids⟩ := Outcome.bind_eq_ok.mp hids
    rw [hnode]
    cases node with
    | leaf source =>
      cases hids
      obtain ⟨source', hnode', hwidth⟩ := leafWidth_iff.mp (hw x (List.mem_singleton_self x))
      cases hnode.symm.trans hnode'
      exact hwidth
    | join j =>
      obtain ⟨base, hbase, hids⟩ := Outcome.bind_eq_ok.mp hids
      obtain ⟨target, htarget, hids⟩ := Outcome.bind_eq_ok.mp hids
      cases hids
      have hb := ih hbase fun y hy => hw y (List.mem_append_left _ hy)
      have ht := ih htarget fun y hy => hw y (List.mem_append_right _ hy)
      show ((a.widths schema).widthWithin n j.base >>= fun base =>
        (a.widths schema).widthWithin n j.target >>= fun target => pure (base + target)) = _
      rw [hb, ht, List.map_append, List.sum_append]
      rfl

theorem Arena.width_of_leaves {x : SourceId} (hids : a.leavesWithin a.depth x = .ok ids)
    (hw : ∀ y ∈ ids, a.LeafWidth schema y (widths y)) :
    (a.widths schema).width x = .ok (ids.map widths).sum := by
  rw [width, depth_widths]
  exact widthWithin_of_leaves hids hw

theorem Item.width_of_entries {item : Item} {entries : List Entry}
    (h : item.entries a = .ok entries)
    (hw : ∀ x, .allOf x ∈ entries → a.LeafWidth schema x (widths x)) :
    item.width (a.widths schema) = .ok (entries.map (Entry.count ids widths)).sum := by
  cases item with
  | star x =>
    obtain ⟨part, hpart, rfl⟩ := Outcome.map_eq_ok.mp h
    have hwidth := width_of_leaves hpart fun y hy => hw y (List.mem_map_of_mem hy)
    rw [List.map_map]
    exact hwidth
  | expr e aliasName =>
    cases h
    rfl

theorem Item.totalWidth_of_entries {items : List Item} {entries : List Entry}
    (h : allEntries a items = .ok entries)
    (hw : ∀ x, .allOf x ∈ entries → a.LeafWidth schema x (widths x)) (n : Nat) :
    totalWidth (a.widths schema) items n =
      .ok (n + (entries.map (Entry.count ids widths)).sum) := by
  induction items generalizing entries n with
  | nil =>
    cases h
    rfl
  | cons item items ih =>
    obtain ⟨first, hfirst, h⟩ := Outcome.bind_eq_ok.mp h
    obtain ⟨rest, hrest, h⟩ := Outcome.bind_eq_ok.mp h
    cases h
    have hitem : item.width (a.widths schema) = .ok (first.map (Entry.count ids widths)).sum :=
      width_of_entries hfirst fun x hx => hw x (List.mem_append_left _ hx)
    rw [totalWidth, hitem]
    show totalWidth (a.widths schema) items _ = _
    rw [ih hrest fun x hx => hw x (List.mem_append_right _ hx), List.map_append, List.sum_append,
      Nat.add_assoc]

theorem Query.width_of_entries {q : Query} {entries : List Entry}
    (h : q.entries = .ok entries) (hids : q.sources.leaves = .ok ids)
    (hw : ∀ x ∈ ids, q.sources.LeafWidth schema x (widths x))
    (hentries : ∀ x, .allOf x ∈ entries → x ∈ ids) :
    q.width schema = .ok (entries.map (Entry.count ids widths)).sum := by
  obtain ⟨bare, hbare, h⟩ := Outcome.bind_eq_ok.mp h
  cases bare with
  | true =>
    cases h
    have hroot : ∃ root, q.sources.root = some root ∧
        q.columns schema = (q.sources.widths schema).columns root := columns_of_bareStar hbare
    obtain ⟨root, hroot, hcolumns⟩ := hroot
    rw [leaves, hroot] at hids
    rw [width_eq_length, hcolumns, ← Arena.width_eq_length, width_of_leaves hids hw]
    rfl
  | false =>
    by_cases hs : q.selection = []
    · have hroot : q.sources.root = none := by
        rw [selectsBareStar, hs] at hbare
        split at hbare
        · assumption
        · cases hbare
      rw [hs] at h
      cases h
      rw [width_eq, hs, hroot]
      rfl
    · rw [width_of_selection hs,
        Item.totalWidth_of_entries h (fun x hx => hw x (hentries x hx)) 0, Nat.zero_add]

end Widths

section Leaves

variable {a : Arena Source} {n : Nat} {x y : SourceId} {ids : List SourceId}

theorem Arena.leaf_of_leavesWithin (h : a.leavesWithin n x = .ok ids) (hy : y ∈ ids) :
    ∃ source, a.node y = .ok (.leaf source) := by
  induction n generalizing x ids with
  | zero => cases h
  | succ n ih =>
    rw [leavesWithin] at h
    obtain ⟨node, hnode, h⟩ := Outcome.bind_eq_ok.mp h
    cases node with
    | leaf source =>
      cases h
      cases List.mem_singleton.mp hy
      exact ⟨source, hnode⟩
    | join j =>
      obtain ⟨base, hbase, h⟩ := Outcome.bind_eq_ok.mp h
      obtain ⟨target, htarget, h⟩ := Outcome.bind_eq_ok.mp h
      cases h
      rcases List.mem_append.mp hy with hy | hy
      · exact ih hbase hy
      · exact ih htarget hy

theorem Arena.prefix_sourceIds (scope : Nat) {k n : Nat} (h : k ≤ n) :
    sourceIds scope k <+: sourceIds scope n := by
  induction h with
  | refl => exact List.prefix_rfl
  | step _ ih =>
    rw [sourceIds_succ]
    exact ih.trans (List.prefix_append _ _)

theorem Arena.leavesWithin_join (ha : a.Chained) {j : Join} (hx : a.node x = .ok (.join j))
    (hids : a.leaves = .ok ids) : ∃ part, a.leavesWithin a.depth x = .ok part ∧ part <+: ids := by
  rcases ha with ⟨scope, rfl⟩ | ⟨scope, first, links, rfl, hl⟩
  · cases hx
  · obtain ⟨i, l, hi, rfl, hindex⟩ := join_chain hx
    have hlt : i < links.length := (List.getElem?_eq_some_iff.mp hi).1
    have hpart : (chain scope first links).leavesWithin (chain scope first links).depth
        ⟨scope, 2 * (i + 1)⟩ = .ok (sourceIds scope (i + 1)) := by
      refine leavesWithin_chain hl hlt ?_
      rw [depth, length_chain]
      omega
    -- a join is found by its index alone
    have hsame : (chain scope first links).node x =
        (chain scope first links).node ⟨scope, 2 * (i + 1)⟩ := by
      rw [node, node, hindex]
    cases hids.symm.trans (leaves_chain hl)
    refine ⟨sourceIds scope (i + 1), ?_, prefix_sourceIds scope hlt⟩
    rw [depth, leavesWithin, hsame, ← hpart, depth, leavesWithin, node_join scope first hi]
    rfl

theorem Item.leaf_of_allEntries {items : List Item} {entries : List Entry}
    (h : Item.allEntries a items = .ok entries) (hx : .allOf x ∈ entries) :
    ∃ source, a.node x = .ok (.leaf source) := by
  induction items generalizing entries with
  | nil =>
    cases h
    cases hx
  | cons item items ih =>
    obtain ⟨first, hfirst, h⟩ := Outcome.bind_eq_ok.mp h
    obtain ⟨rest, hrest, h⟩ := Outcome.bind_eq_ok.mp h
    cases h
    rcases List.mem_append.mp hx with hx | hx
    · cases item with
      | star y =>
        obtain ⟨part, hpart, rfl⟩ := Outcome.map_eq_ok.mp hfirst
        obtain ⟨z, hz, heq⟩ := List.mem_map.mp hx
        cases heq
        exact leaf_of_leavesWithin hpart hz
      | expr e aliasName =>
        cases hfirst
        cases List.mem_singleton.mp hx
    · exact ih hrest hx

end Leaves

namespace Context

variable {ctx : Context} {x : SourceId} {ids : List SourceId} {clause : String}

theorem name_of_written {entries : List Entry} {texts : List String}
    (h : List.Forall₂ ctx.WritesEntry entries texts) (hx : .allOf x ∈ entries) :
    ∃ name, ctx.sourceName x = .ok name := by
  induction h with
  | nil => cases hx
  | cons hentry _ ih =>
    rcases List.mem_cons.mp hx with rfl | hx
    · cases hentry with
      | allOf hname => exact ⟨_, hname⟩
    · exact ih hx

theorem WritesSource.source {sql : String} (h : ctx.WritesSource x sql) : ∃ source,
    ctx.sources.node x = .ok (.leaf source) ∧ ∀ q aliasName, source = .query q aliasName →
      ∃ sql, (q.render ctx.schema).Yields sql := by
  cases h with
  | table hx _ => exact ⟨_, hx, nofun⟩
  | named hx hsql _ | nameless hx hsql _ =>
    refine ⟨_, hx, fun q aliasName heq => ?_⟩
    cases heq
    exact ⟨_, hsql⟩

theorem Lists.writes (h : ctx.Lists ids clause) (hx : x ∈ ids) :
    ∃ sql, ctx.WritesSource x sql := by
  induction h with
  | source h =>
    cases List.mem_singleton.mp hx
    exact ⟨_, h⟩
  | join _ _ _ ihbase ihtarget =>
    rcases List.mem_append.mp hx with hx | hx
    · exact ihbase hx
    · exact ihtarget hx

end Context

theorem Clauses.restSql_of_source {c : Clauses} {clause : String} (h : c.source = some clause) :
    c.restSql = " FROM " ++ clause ++ Clauses.restSql { c with source := none } := by
  simp only [restSql, sourceSql, groupSql, orderSql, limitSql, h, String.append_assoc,
    String.empty_append]

namespace Query

variable {schema : Schema} {q : Query} {sql : String}

/-- A SELECT as it is written: the sources of its FROM clause, the entries of its list, each with
its text, and the text after the list. -/
structure Listing (schema : Schema) (q : Query) (ctx : Context) (ids : List SourceId)
    (entries : List Entry) (texts : List String) (rest : String) : Prop where
  context : Context.of schema q.sources = .ok ctx
  sources : q.sources.leaves = .ok ids
  selects : q.entries = .ok entries
  written : List.Forall₂ ctx.WritesEntry entries texts
  follows : q.sources.root ≠ none →
    ∃ clause more, rest = " FROM " ++ clause ++ more ∧ ctx.Lists ids clause

theorem exists_leaves (hq : q.sources.Chained) : ∃ ids, q.sources.leaves = .ok ids := by
  rcases hq with ⟨scope, hs⟩ | ⟨scope, first, links, hs, hl⟩
  · rw [hs]
    exact ⟨[], rfl⟩
  · rw [hs]
    exact ⟨_, leaves_chain hl⟩

theorem exists_rest {b b' : Bindings} (h : (q.render schema).runFrom b = (.ok sql, b')) :
    ∃ ctx bare items rest m, Context.of schema q.sources = .ok ctx ∧
      selectsBareStar q.selection q.sources = .ok bare ∧
      (if bare then pure ["*"] else Item.renderAll ctx q.selection).runFrom b = (.ok items, m) ∧
      (q.rest schema ctx).runFrom m = (.ok rest, b') ∧
      sql = "SELECT " ++ (if q.distinct then "DISTINCT " else "") ++ commaSeparated items ++
        rest := by
  have hclauses := h
  rw [render, clauses_eq] at hclauses
  obtain ⟨c, hc, -⟩ := runFrom_map_eq_ok.mp hclauses
  split at hc
  · cases hc
  rename_i hne
  obtain ⟨ctx, _, hctx, hc⟩ := runFrom_bind_eq_ok.mp hc
  obtain ⟨hcontext, -⟩ := runFrom_ofOutcome_eq_ok.mp hctx
  obtain ⟨bare, _, hbare, -⟩ := runFrom_bind_eq_ok.mp hc
  obtain ⟨hbare, -⟩ := runFrom_ofOutcome_eq_ok.mp hbare
  rw [render_eq (Bool.eq_false_iff.mpr hne) hcontext hbare] at h
  obtain ⟨items, m, hitems, h⟩ := runFrom_bind_eq_ok.mp h
  obtain ⟨rest, hrest, rfl⟩ := runFrom_map_eq_ok.mp h
  exact ⟨ctx, bare, items, rest, m, hcontext, hbare, hitems, hrest, rfl⟩

theorem exists_clause_of_rest {ctx : Context} {rest : String} {b b' : Bindings}
    (hroot : q.sources.root ≠ none) (h : (q.rest schema ctx).runFrom b = (.ok rest, b')) :
    ∃ clause more m, (ctx.fromClause (q.sources.sqls schema)).runFrom b = (.ok (some clause), m) ∧
      rest = " FROM " ++ clause ++ more := by
  obtain ⟨root, hroot⟩ := Option.ne_none_iff_exists'.mp hroot
  obtain ⟨source, m, hsource, h⟩ := runFrom_bind_eq_ok.mp h
  obtain ⟨condition, _, -, h⟩ := runFrom_bind_eq_ok.mp h
  obtain ⟨groups, _, -, h⟩ := runFrom_bind_eq_ok.mp h
  obtain ⟨having, _, -, h⟩ := runFrom_bind_eq_ok.mp h
  obtain ⟨order, _, -, h⟩ := runFrom_bind_eq_ok.mp h
  cases h
  have hclause := hsource
  rw [Context.fromClause, show (q.sources.sqls schema).root = some root from hroot] at hclause
  obtain ⟨clause, -, rfl⟩ := runFrom_map_eq_ok.mp hclause
  exact ⟨clause, _, m, hsource, Clauses.restSql_of_source rfl⟩

theorem listing_of_yields (hq : q.Built) (h : (q.render schema).Yields sql) :
    ∃ ctx ids entries texts rest, q.Listing schema ctx ids entries texts rest ∧
      sql = "SELECT " ++ (if q.distinct then "DISTINCT " else "") ++ commaSeparated texts ++
        rest := by
  obtain ⟨b, b', h⟩ := h
  obtain ⟨ids, hids⟩ := exists_leaves hq.chained
  obtain ⟨ctx, bare, items, rest, m, hctx, hbare, hitems, hrest, rfl⟩ := exists_rest h
  obtain ⟨names, -, rfl⟩ := Outcome.map_eq_ok.mp hctx
  have hlist : ∃ entries texts, q.entries = .ok entries ∧
      List.Forall₂ (Context.WritesEntry ⟨schema, q.sources, names⟩) entries texts ∧
      commaSeparated items = commaSeparated texts := by
    rw [Query.entries, hbare]
    cases bare with
    | true =>
      cases hitems
      exact ⟨[.everything], ["*"], rfl, .cons .everything .nil, rfl⟩
    | false =>
      obtain ⟨entries, texts, hentries, htexts, -, heq⟩ := Item.renderAll_entries hitems
      exact ⟨entries, texts, hentries, htexts, heq⟩
  obtain ⟨entries, texts, hentries, htexts, heq⟩ := hlist
  rw [heq]
  refine ⟨_, ids, entries, texts, rest, ⟨hctx, hids, hentries, htexts, fun hroot => ?_⟩, rfl⟩
  obtain ⟨clause, more, _, hclause, rfl⟩ := exists_clause_of_rest hroot hrest
  exact ⟨clause, more, rfl, Context.fromClause_lists hids hclause⟩

theorem leaf_of_entries {entries : List Entry} {x : SourceId} (h : q.entries = .ok entries)
    (hx : .allOf x ∈ entries) : ∃ source, q.sources.node x = .ok (.leaf source) := by
  obtain ⟨bare, -, h⟩ := Outcome.bind_eq_ok.mp h
  cases bare with
  | true =>
    cases h
    cases List.mem_singleton.mp hx
  | false => exact Item.leaf_of_allEntries h hx

namespace Listing

variable {ctx : Context} {ids : List SourceId} {entries : List Entry} {texts : List String}
  {rest : String}

theorem mem_sources (hq : q.Built) (hl : q.Listing schema ctx ids entries texts rest) {x : SourceId}
    (hx : .allOf x ∈ entries) : x ∈ ids := by
  obtain ⟨name, hname⟩ := Context.name_of_written hl.written hx
  obtain ⟨source, hsource⟩ := leaf_of_entries hl.selects hx
  have hcontains := (Context.sourceName_eq_ok.mp hname).1
  have hids := hl.sources
  obtain ⟨names, -, rfl⟩ := Outcome.map_eq_ok.mp hl.context
  rcases hq.chained with ⟨scope, hs⟩ | ⟨scope, first, links, hs, hlinked⟩
  · rw [hs] at hsource
    cases hsource
  · simp only [hs] at hsource hcontains hids
    cases hids.symm.trans (leaves_chain hlinked)
    exact mem_sourceIds.mpr (leaf_chain_iff.mp ⟨hcontains, source, hsource⟩)

theorem exists_widths (hl : q.Listing schema ctx ids entries texts rest)
    (hinner : ∀ source, .leaf source ∈ q.sources.nodes →
      (∀ r aliasName, source = .query r aliasName → ∃ sql, (r.render schema).Yields sql) →
        ∃ width, source.width schema = .ok width) :
    ∃ widths : SourceId → Nat, ∀ x ∈ ids, q.sources.LeafWidth schema x (widths x) := by
  obtain ⟨names, -, rfl⟩ := Outcome.map_eq_ok.mp hl.context
  have hwidth : ∀ x, ∃ width, x ∈ ids → q.sources.LeafWidth schema x width := by
    intro x
    by_cases hx : x ∈ ids
    · have hroot : q.sources.root ≠ none := by
        intro hroot
        have hids := hl.sources
        rw [leaves, hroot] at hids
        cases hids
        cases hx
      obtain ⟨clause, more, -, hlists⟩ := hl.follows hroot
      obtain ⟨sql, hwrites⟩ := hlists.writes hx
      obtain ⟨source, hnode, hyields⟩ := hwrites.source
      obtain ⟨width, hwidth⟩ := hinner source
        (List.mem_of_getElem? (Outcome.element_eq_ok.mp hnode)) hyields
      exact ⟨width, fun _ => leafWidth_iff.mpr ⟨source, hnode, hwidth⟩⟩
    · exact ⟨0, fun h => absurd h hx⟩
  choose widths hwidths using hwidth
  exact ⟨widths, hwidths⟩

end Listing

end Query

theorem Source.Known.exists_width {schema : Schema} {source : Source} (h : source.Known schema)
    (hsource : ∀ q aliasName, source = .query q aliasName →
      q.Composed ∧ ∃ sql, (q.render schema).Yields sql) :
    ∃ width, source.width schema = .ok width := by
  induction h with
  | table h => exact ⟨_, Source.width_table.mpr ⟨_, h, rfl⟩⟩
  | @query q aliasName _ ih =>
    obtain ⟨hq, sql, hsql⟩ := hsource q aliasName rfl
    obtain ⟨ctx, ids, entries, texts, rest, hl, -⟩ := Query.listing_of_yields hq.built hsql
    obtain ⟨widths, hw⟩ := hl.exists_widths fun source hmem hyields =>
      ih source hmem fun r alias' heq => ⟨hq.subquery (heq ▸ hmem), hyields r alias' heq⟩
    exact ⟨_, Query.width_of_entries hl.selects hl.sources hw fun x => hl.mem_sources hq.built⟩

namespace Query

variable {schema : Schema} {q : Query} {sql : String}

/-- The width of a query is that of the SELECT list that it is written with. A bare star counts all
sources of the FROM clause, the star of a source counts that source, and an expression counts once.
The star of a join is written as those of the sources under it, the first ones of the FROM
clause. -/
theorem width_of_listing (hq : q.Composed) (hknown : q.Known schema)
    (h : (q.render schema).Yields sql) :
    ∃ ctx ids entries texts rest, q.Listing schema ctx ids entries texts rest ∧
      sql = "SELECT " ++ (if q.distinct then "DISTINCT " else "") ++ commaSeparated texts ++
        rest ∧
      (∃ widths : SourceId → Nat, (∀ x ∈ ids, q.sources.LeafWidth schema x (widths x)) ∧
        q.width schema = .ok (entries.map (Entry.count ids widths)).sum) ∧
      (∀ x, .allOf x ∈ entries → x ∈ ids) ∧
      ∀ x j, .star x ∈ q.selection → q.sources.node x = .ok (.join j) →
        ∃ part, q.sources.leavesWithin q.sources.depth x = .ok part ∧ part <+: ids := by
  obtain ⟨ctx, ids, entries, texts, rest, hl, hsql⟩ := listing_of_yields hq.built h
  have hmem : ∀ x, .allOf x ∈ entries → x ∈ ids := fun x => hl.mem_sources hq.built
  obtain ⟨widths, hw⟩ := hl.exists_widths fun source hsource hyields =>
    (hknown source hsource).exists_width fun r aliasName heq =>
      ⟨hq.subquery (heq ▸ hsource), hyields r aliasName heq⟩
  exact ⟨ctx, ids, entries, texts, rest, hl, hsql,
    ⟨widths, hw, width_of_entries hl.selects hl.sources hw hmem⟩, hmem,
    fun x j _ hx => leavesWithin_join hq.built.chained hx hl.sources⟩

def bookshopSchema : Schema where
  columns := fun table => if table = "books" then .ok ["id", "author_id", "title", "price"]
    else if table = "authors" then .ok ["id", "name", "born"]
    else .error (.engine (some ("no such table: " ++ table)))
  hasRowId := fun _ => .ok true
  quote := Text.quoteIdentifier

/-- The columns of books that a subquery shows, those of their authors, these once more, and a
number. -/
def shownBooks : Query :=
  ((ofQuery 1 ((table 0 "books").select
      [.expr (.column none "id") none, .expr (.column none "author_id") none])
    (some "shown")).including (.belongsTo "author" "authors" [("author_id", "id")])).select
      [.star ⟨1, 2⟩, .star ⟨1, 1⟩, .expr (.literal "1") none]

def shownBooksSql : String :=
  "SELECT \"shown\".*, \"author\".*, \"author\".*, 1 FROM " ++
    "(SELECT \"id\", \"author_id\" FROM \"books\") AS \"shown\" " ++
    "LEFT JOIN \"authors\" \"author\" ON \"author\".\"id\" = \"shown\".\"author_id\""

theorem shownBooks_composed : shownBooks.Composed := by
  have hbooks := (Composed.table 0 "books").after
    (.select [.expr (.column none "id") none, .expr (.column none "author_id") none])
  have hjoined := (Composed.ofQuery 1 (some "shown") hbooks).after
    (.including (.belongsTo "author" "authors" [("author_id", "id")]))
  exact hjoined.after (.select [.star ⟨1, 2⟩, .star ⟨1, 1⟩, .expr (.literal "1") none])

theorem shownBooks_known : shownBooks.Known bookshopSchema := by
  intro source hsource
  obtain ⟨q, j, hnodes, hq⟩ : ∃ (q : Query) (j : Join), shownBooks.sources.nodes =
      [.leaf (.query q (some "shown")), .leaf (.table "authors" (some "author")), .join j] ∧
        q.sources.nodes = [.leaf (.table "books" none)] := ⟨_, _, rfl, rfl⟩
  rw [hnodes] at hsource
  simp only [List.mem_cons, Node.leaf.injEq, reduceCtorEq, List.not_mem_nil, or_false] at hsource
  rcases hsource with rfl | rfl
  · refine .query fun inner hinner => ?_
    rw [hq] at hinner
    cases List.mem_singleton.mp hinner
    exact .table rfl
  · exact .table rfl

/-- The subquery counts the two columns that it selects, and not the four of its table; the authors
count all three of theirs. -/
theorem shownBooks_listed :
    (shownBooks.render bookshopSchema).Yields shownBooksSql ∧
      shownBooks.width bookshopSchema = .ok 9 ∧
      ∃ ctx ids entries texts rest, shownBooks.Listing bookshopSchema ctx ids entries texts rest ∧
        shownBooksSql = "SELECT " ++ commaSeparated texts ++ rest ∧
        entries = [.allOf ⟨1, 0⟩, .allOf ⟨1, 1⟩, .allOf ⟨1, 1⟩, .computed (.literal "1") none] ∧
        ∃ widths, (∀ x ∈ ids, shownBooks.sources.LeafWidth bookshopSchema x (widths x)) ∧
          widths ⟨1, 0⟩ = 2 ∧ widths ⟨1, 1⟩ = 3 ∧
            (entries.map (Entry.count ids widths)).sum = 9 := by
  have hyields : (shownBooks.render bookshopSchema).Yields shownBooksSql :=
    ⟨.empty, .empty, by decide +kernel⟩
  have hwidth : shownBooks.width bookshopSchema = .ok 9 := rfl
  obtain ⟨ctx, ids, entries, texts, rest, hl, hsql, ⟨widths, hw, hsum⟩, -⟩ :=
    width_of_listing shownBooks_composed shownBooks_known hyields
  have hids : shownBooks.sources.leaves = .ok [⟨1, 0⟩, ⟨1, 1⟩] := rfl
  cases hl.sources.symm.trans hids
  have hshown : widths ⟨1, 0⟩ = 2 := (hw ⟨1, 0⟩ (by simp)).unique (.query rfl rfl)
  have hauthor : widths ⟨1, 1⟩ = 3 := (hw ⟨1, 1⟩ (by simp)).unique
    (@LeafWidth.table _ _ _ "authors" (some "author") ["id", "name", "born"] rfl rfl)
  have hentries : shownBooks.entries =
      .ok [.allOf ⟨1, 0⟩, .allOf ⟨1, 1⟩, .allOf ⟨1, 1⟩, .computed (.literal "1") none] := rfl
  exact ⟨hyields, hwidth, ctx, _, entries, texts, rest, hl, hsql,
    Except.ok.inj (hl.selects.symm.trans hentries), widths, hw, hshown, hauthor,
    Except.ok.inj (hsum.symm.trans hwidth)⟩

end Query

end RelQuery
