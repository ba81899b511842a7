import RelQuery.Proofs.Query.Arguments
import RelQuery.Proofs.Query.Pairing
import RelQuery.Proofs.Query.RecastContext
import RelQuery.Proofs.Query.TextRelation
import RelQuery.Query.Render

/-!
# Renderings of a query and of its recast

A relation of texts that holds for each value and what stands for it holds for the texts of the
whole trees, with the arguments of the query. The two renderings fail alike, and what is bound
until then is the beginning of the arguments.
-/

set_option autoImplicit false

namespace RelQuery

/-- Contexts in which ids and the recast ids have the same names. -/
structure Context.Alike (ρ : Nat → Nat) (ctx ctx' : Context) : Prop where
  schema : ctx'.schema = ctx.schema
  column : ∀ (qualifier : Option Qualifier) (name : String),
    ctx'.columnSql (qualifier.map (Qualifier.rescope ρ)) name = ctx.columnSql qualifier name
  star : ∀ x : SourceId, ctx'.starSql (x.rescope ρ) = ctx.starSql x

theorem Context.alike_recast {m : Recast} (hm : Function.Injective m.scope) (ctx : Context) :
    Context.Alike m.scope ctx (ctx.recast m) :=
  ⟨rfl, columnSql_recast hm ctx, starSql_recast hm ctx⟩

theorem Context.alike_self (ctx : Context) : Context.Alike id ctx ctx := by
  refine ⟨rfl, ?_, fun _ => rfl⟩
  intro qualifier name
  rcases qualifier with _ | _ | _ <;> rfl

theorem Expr.appends_value (ctx : Context) (p : Polarity) {v : Value} (hv : v.isNull = false) :
    ((Expr.value v).render ctx p).Appends (.ok (p.wrap "?")) [v] := by
  have hb : ((Rendering.bindValue v) >>= fun placeholder => pure (p.wrap placeholder)).Appends
      (.ok (p.wrap "?")) ([v] ++ []) :=
    (Rendering.appends_bindValue v).bind (Rendering.appends_pure _)
  cases v with
  | null => cases hv
  | _ => exact hb

/-- What stands for a value is written in the relation to its placeholder and binds `h v`; null
stands for null. -/
structure Recast.Faithful (schema : Schema) (Raw : String → Prop)
    (T : String → List Value → String → Prop) (h : Value → List Value) (m : Recast) : Prop where
  text : TextRelation schema.quote Raw T
  scope : Function.Injective m.scope
  null : m.value .null = .value .null
  kept : ∀ v : Value, v.isNull = false → (m.value v).isNull = false
  leaf : ∀ v : Value, v.isNull = false → ∃ s, T "?" [v] s ∧
    ∀ (ctx : Context) (p : Polarity), ((m.value v).render ctx p).Appends (.ok (p.wrap s)) (h v)

abbrev Writes (T : String → List Value → String → Prop) (h : Value → List Value)
    (vs : List Value) (r r' : Rendering String) : Prop :=
  Rendering.Paired h (fun s s' => T s vs s') vs r r'

abbrev WritesAll (T : String → List Value → String → Prop) (h : Value → List Value)
    (vs : List Value) (rs rs' : Rendering (List String)) : Prop :=
  Rendering.Paired h (fun ss ss' => Texts T ss vs ss') vs rs rs'

abbrev Selects (T : String → List Value → String → Prop) (h : Value → List Value)
    (vs : List Value) (r r' : Rendering Clauses) : Prop :=
  Rendering.Paired h (fun c c' => T c.sql vs c'.sql) vs r r'

theorem Source.nodesSql_eq (schema : Schema) (nodes : List (Node Source)) :
    Source.nodesSql schema nodes = nodes.map (Node.recast id (Source.sql schema)) :=
  eq_map_of_cons rfl (fun node _ => by cases node <;> rfl) nodes

def Arena.sqls (schema : Schema) (a : Arena Source) : Arena SourceSql :=
  ⟨a.scope, Source.nodesSql schema a.nodes, a.root⟩

theorem Arena.node_sqls (schema : Schema) (a : Arena Source) (x : SourceId) :
    (a.sqls schema).node x = (a.node x).map (Node.recast id (Source.sql schema)) := by
  rw [sqls, Source.nodesSql_eq]
  exact Arena.node_recast a x

section

variable {schema : Schema} {Raw : String → Prop} {T : String → List Value → String → Prop}
  {h : Value → List Value} {m : Recast}

open Rendering

def LeavesWrite (schema : Schema) (T : String → List Value → String → Prop)
    (h : Value → List Value) (m : Recast) (nodes : List (Node Source)) : Prop :=
  ∀ (q : Query) (aliasName : Option String), .leaf (.query q aliasName) ∈ nodes →
    Selects T h q.arguments (q.clauses schema) ((q.recast m).clauses schema)

namespace Context

theorem leafSql_writes (ht : TextRelation schema.quote Raw T) (hm : Function.Injective m.scope)
    (ctx : Context) (hs : ctx.schema = schema) (x : SourceId) (source : Source)
    (hq : ∀ (q : Query) (aliasName : Option String), source = .query q aliasName →
      Selects T h q.arguments (q.clauses schema) ((q.recast m).clauses schema)) :
    Writes T h source.slots.bound (ctx.leafSql x (source.sql schema))
      ((ctx.recast m).leafSql (x.rescope m.scope) ((source.recast m).sql schema)) := by
  subst hs
  cases source with
  | table name aliasName =>
    show Writes T h [] (ofOutcome (ctx.sourceName x) >>= fun name' => _)
      (ofOutcome ((ctx.recast m).sourceName (x.rescope m.scope)) >>= fun name' => _)
    rw [sourceName_recast hm]
    refine (paired_same (R := fun a b => b = a) fun _ _ => rfl).bind_pure fun name' _ hb => ?_
    rw [hb]
    exact ht.table name name'
  | query q aliasName =>
    have hsql : Writes T h q.arguments (Clauses.sql <$> q.clauses ctx.schema)
        (Clauses.sql <$> (q.recast m).clauses ctx.schema) :=
      (hq q aliasName rfl).map fun _ _ hc => hc
    refine hsql.bind_last fun s s' hss => ?_
    have hn : (ctx.recast m).names[(x.rescope m.scope).index]? = ctx.names[x.index]? := rfl
    rw [hn]
    rcases ctx.names[x.index]? with _ | _ | name
    · exact paired_pure (ht.group hss)
    · exact paired_pure (ht.group hss)
    · exact paired_pure (ht.namedGroup hss name)

theorem fromWithin_writes (ht : TextRelation schema.quote Raw T)
    (hm : Function.Injective m.scope) (ctx : Context) (hs : ctx.schema = schema)
    (hl : LeavesWrite schema T h m ctx.sources.nodes) (n : Nat) (x : SourceId) :
    Writes T h (Slots.bound (ctx.sources.slots.gatherWithin n x))
      (ctx.fromWithin (ctx.sources.sqls schema) n x)
      ((ctx.recast m).fromWithin ((ctx.recast m).sources.sqls schema) n (x.rescope m.scope)) := by
  induction n generalizing x with
  | zero => exact paired_throw .endless []
  | succ n ih =>
    rw [fromWithin, fromWithin, Arena.gatherWithin, Arena.node_sqls, Arena.node_sqls,
      Arena.node_slots, show (ctx.recast m).sources.node (x.rescope m.scope) = _ from
        Arena.node_recast ctx.sources x]
    rcases hx : ctx.sources.node x with f | source | j
    · exact paired_throw f []
    · have hmem : .leaf source ∈ ctx.sources.nodes :=
        List.mem_of_getElem? (Outcome.element_eq_ok.mp hx)
      refine leafSql_writes ht hm ctx hs x source fun q aliasName hq => ?_
      exact hl q aliasName (hq ▸ hmem)
    · show Writes T h (Slots.bound (_ ++ _)) (ofOutcome (ctx.checkForeignKey j) >>= fun _ =>
        ctx.fromWithin (ctx.sources.sqls schema) n j.base >>= fun base =>
          ctx.fromWithin (ctx.sources.sqls schema) n j.target >>= fun target =>
            ofOutcome (ctx.joinCondition j) >>= fun condition =>
              pure (base ++ " LEFT JOIN " ++ target ++ " ON " ++ condition))
        (ofOutcome ((ctx.recast m).checkForeignKey (j.rescope m.scope)) >>= fun _ =>
          (ctx.recast m).fromWithin _ n (j.base.rescope m.scope) >>= fun base =>
            (ctx.recast m).fromWithin _ n (j.target.rescope m.scope) >>= fun target =>
              ofOutcome ((ctx.recast m).joinCondition (j.rescope m.scope)) >>= fun condition =>
                pure (base ++ " LEFT JOIN " ++ target ++ " ON " ++ condition))
      rw [checkForeignKey_recast, joinCondition_recast hm, Slots.bound_append]
      refine (paired_same (R := fun _ _ => True) fun _ _ => trivial).bind_first fun _ _ _ => ?_
      refine (ih j.base).bind fun base base' hb =>
        (ih j.target).bind_last fun target target' hr => ?_
      refine (paired_same fun condition hc =>
        joinCondition_text (hs ▸ ht) hc).bind_pure fun condition condition' hc => ?_
      exact ht.leftJoin hb hr hc

theorem fromClause_writes (ht : TextRelation schema.quote Raw T)
    (hm : Function.Injective m.scope) (ctx : Context) (hs : ctx.schema = schema)
    (hl : LeavesWrite schema T h m ctx.sources.nodes) :
    Paired h (fun s s' => OptionalText T s (Slots.bound ctx.sources.slots.gather) s')
      (Slots.bound ctx.sources.slots.gather) (ctx.fromClause (ctx.sources.sqls schema))
      ((ctx.recast m).fromClause ((ctx.recast m).sources.sqls schema)) := by
  rw [fromClause, fromClause, Arena.gather]
  rw [show ((ctx.recast m).sources.sqls schema).root =
      (ctx.sources.sqls schema).root.map (SourceId.rescope m.scope) from rfl,
    show ctx.sources.slots.root = (ctx.sources.sqls schema).root from rfl]
  cases (ctx.sources.sqls schema).root with
  | none => exact paired_pure .none
  | some x =>
    have hd : ((ctx.recast m).sources.sqls schema).depth = (ctx.sources.sqls schema).depth := by
      simp [Arena.depth, Arena.sqls, Source.nodesSql_eq, Context.recast, Arena.recast]
    have hd' : ctx.sources.slots.depth = (ctx.sources.sqls schema).depth := by
      simp [Arena.depth, Arena.sqls, Arena.slots, Source.nodesSql_eq, Source.nodeSlots_eq]
    show Paired h _ _ (some <$> ctx.fromWithin _ _ x)
      (some <$> (ctx.recast m).fromWithin _ _ (x.rescope m.scope))
    rw [hd, hd']
    exact (fromWithin_writes ht hm ctx hs hl _ x).map fun _ _ hss => .some hss

end Context

theorem Expr.isNull_recast (hm : m.Faithful schema Raw T h) (e : Expr) :
    (e.recast m).isNull = e.isNull := by
  cases e with
  | value v =>
    cases v with
    | null => rw [Expr.recast, hm.null]
    | _ => exact hm.kept _ rfl
  | _ => rfl

theorem Expr.arguments_of_isNull {e : Expr} (he : e.isNull = true) : e.arguments = [] := by
  cases e with
  | value v =>
    cases v with
    | null => rfl
    | _ => cases he
  | _ => cases he

theorem paired_cons {vs us : List Value} {r r' : Rendering String}
    {rs rs' : Rendering (List String)} (hr : Writes T h vs r r')
    (hrs : WritesAll T h us rs rs') :
    WritesAll T h (vs ++ us)
      (r >>= fun s => rs >>= fun ss => pure (s :: ss))
      (r' >>= fun s => rs' >>= fun ss => pure (s :: ss)) :=
  hr.bind fun _ _ hs => hrs.bind_pure fun _ _ hss => .cons hs hss

theorem Query.clauses_eq (schema : Schema) (q : Query) :
    q.clauses schema =
      if q.selection.isEmpty && q.sources.root.isNone then throw (.refused .emptySelection)
      else (do
        let ctx ← ofOutcome (Context.of schema q.sources)
        let bare ← ofOutcome (selectsBareStar q.selection q.sources)
        let items ← (if bare then pure ["*"] else Item.renderAll ctx q.selection)
        let source ← ctx.fromClause (q.sources.sqls schema)
        let condition ← Expr.renderClause ctx "WHERE" q.condition
        let groups ← Expr.renderAll ctx q.grouping
        let having ← Expr.renderClause ctx "HAVING" q.having
        let order ←
          (if q.reversed && q.ordering.isEmpty then ofOutcome ctx.reversedRowId
          else commaSeparated <$> SortTerm.renderAll ctx q.reversed q.ordering)
        pure ⟨q.distinct, items, source, condition, groups, having, order, q.limit⟩) := by
  obtain ⟨_, _, ⟨_, _, _⟩, _, _, _, _, _, _⟩ := q
  rfl

structure Query.ClausesOf (schema : Schema) (q : Query) (ctx : Context) (c : Clauses) : Prop where
  context : Context.of schema q.sources = .ok ctx
  source : (ctx.fromClause (q.sources.sqls schema)).Yields c.source
  condition : (Expr.renderClause ctx "WHERE" q.condition).Yields c.condition
  having : (Expr.renderClause ctx "HAVING" q.having).Yields c.having

theorem Query.clausesOf_of_ok {schema : Schema} {q : Query} {b b' : Bindings} {c : Clauses}
    (h : (q.clauses schema).runFrom b = (.ok c, b')) : ∃ ctx, q.ClausesOf schema ctx c := by
  rw [Query.clauses_eq] at h
  split at h
  · cases h
  obtain ⟨ctx, m, hctx, h⟩ := runFrom_bind_eq_ok.mp h
  obtain ⟨hcontext, -⟩ := runFrom_ofOutcome_eq_ok.mp hctx
  obtain ⟨bare, m₁, -, h⟩ := runFrom_bind_eq_ok.mp h
  obtain ⟨items, m₂, -, h⟩ := runFrom_bind_eq_ok.mp h
  obtain ⟨source, m₃, hsource, h⟩ := runFrom_bind_eq_ok.mp h
  obtain ⟨condition, m₄, hcondition, h⟩ := runFrom_bind_eq_ok.mp h
  obtain ⟨groups, m₅, -, h⟩ := runFrom_bind_eq_ok.mp h
  obtain ⟨having, m₆, hhaving, h⟩ := runFrom_bind_eq_ok.mp h
  obtain ⟨order, m₇, -, h⟩ := runFrom_bind_eq_ok.mp h
  cases h
  exact ⟨ctx, hcontext, ⟨_, _, hsource⟩, ⟨_, _, hcondition⟩, ⟨_, _, hhaving⟩⟩

structure Query.PartsWrite (schema : Schema) (T : String → List Value → String → Prop)
    (h : Value → List Value) (m : Recast) (q : Query) (ctx ctx' : Context) : Prop where
  items : WritesAll T h (Slots.bound (Item.slotsAll q.selection)) (Item.renderAll ctx q.selection)
    (Item.renderAll ctx' (q.recast m).selection)
  condition : Writes T h (Slots.bound (Expr.slotsOption q.condition))
    (Expr.renderClause ctx "WHERE" q.condition)
    (Expr.renderClause ctx' "WHERE" (q.recast m).condition)
  groups : WritesAll T h (Slots.bound (Expr.slotsAll q.grouping)) (Expr.renderAll ctx q.grouping)
    (Expr.renderAll ctx' (q.recast m).grouping)
  having : Writes T h (Slots.bound (Expr.slotsOption q.having))
    (Expr.renderClause ctx "HAVING" q.having)
    (Expr.renderClause ctx' "HAVING" (q.recast m).having)
  ordering : WritesAll T h (Slots.bound (SortTerm.slotsAll q.ordering))
    (SortTerm.renderAll ctx q.reversed q.ordering)
    (SortTerm.renderAll ctx' q.reversed (q.recast m).ordering)

theorem Query.arguments_eq (q : Query) :
    q.arguments = Slots.bound (Item.slotsAll q.selection) ++
      (Slots.bound q.sources.slots.gather ++ (Slots.bound (Expr.slotsOption q.condition) ++
        (Slots.bound (Expr.slotsAll q.grouping) ++ (Slots.bound (Expr.slotsOption q.having) ++
          Slots.bound (SortTerm.slotsAll q.ordering))))) := by
  rw [Query.arguments, q.slots_eq]
  simp only [Slots.bound_append, List.append_assoc]

theorem bareStar_cases {selection : List Item} {sources : Arena Source}
    (hb : selectsBareStar selection sources = .ok true) :
    selection = [] ∨ ∃ id, selection = [.star id] := by
  rw [selectsBareStar] at hb
  split at hb
  · cases hb
  · split at hb
    · exact .inl rfl
    · exact .inr ⟨_, rfl⟩
    · cases hb

theorem slots_of_bareStar {selection : List Item} {sources : Arena Source}
    (hb : selectsBareStar selection sources = .ok true) : Item.slotsAll selection = [] := by
  rcases bareStar_cases hb with rfl | ⟨id, rfl⟩ <;> rfl

theorem Query.items_write (hm : m.Faithful schema Raw T h) (q : Query) {ctx ctx' : Context}
    {bare : Bool} (hb : selectsBareStar q.selection q.sources = .ok bare)
    (hi : WritesAll T h (Slots.bound (Item.slotsAll q.selection))
      (Item.renderAll ctx q.selection) (Item.renderAll ctx' (q.recast m).selection)) :
    WritesAll T h (Slots.bound (Item.slotsAll q.selection))
      (if bare then pure ["*"] else Item.renderAll ctx q.selection)
      (if bare then pure ["*"] else Item.renderAll ctx' (q.recast m).selection) := by
  cases bare with
  | true =>
    rw [slots_of_bareStar hb]
    exact paired_pure (.singleton (hm.text.plain (by decide)))
  | false => exact hi

theorem Query.order_writes (hm : m.Faithful schema Raw T h) (q : Query) {ctx : Context}
    (hs : ctx.schema = schema)
    (ho : WritesAll T h (Slots.bound (SortTerm.slotsAll q.ordering))
      (SortTerm.renderAll ctx q.reversed q.ordering)
      (SortTerm.renderAll (ctx.recast m) q.reversed (q.recast m).ordering)) :
    Writes T h (Slots.bound (SortTerm.slotsAll q.ordering))
      (if q.reversed && q.ordering.isEmpty then ofOutcome ctx.reversedRowId
        else commaSeparated <$> SortTerm.renderAll ctx q.reversed q.ordering)
      (if q.reversed && (q.recast m).ordering.isEmpty then ofOutcome (ctx.recast m).reversedRowId
        else commaSeparated <$> SortTerm.renderAll (ctx.recast m) q.reversed
          (q.recast m).ordering) := by
  have hempty : (q.recast m).ordering.isEmpty = q.ordering.isEmpty := by
    rw [Query.recast_eq]
    exact List.isEmpty_map
  rw [hempty, Context.reversedRowId_recast hm.scope]
  split
  · rename_i hr
    rw [Bool.and_eq_true, List.isEmpty_iff] at hr
    rw [hr.2]
    exact paired_same fun sql hsql => Context.reversedRowId_text (hs ▸ hm.text) hsql
  · exact ho.map fun _ _ hss => hm.text.commaSeparated hss

theorem Query.clauses_of_parts (hm : m.Faithful schema Raw T h) (q : Query)
    (hl : LeavesWrite schema T h m q.sources.nodes)
    (hparts : ∀ ctx ctx' : Context, ctx.schema = schema → Context.Alike m.scope ctx ctx' →
      q.PartsWrite schema T h m ctx ctx') :
    Selects T h q.arguments (q.clauses schema) ((q.recast m).clauses schema) := by
  have hargs := q.arguments_eq
  have hempty : ((q.recast m).selection.isEmpty && (q.recast m).sources.root.isNone) =
      (q.selection.isEmpty && q.sources.root.isNone) := by
    rw [Query.recast_eq]
    simp [Arena.recast]
  have hsources : (q.recast m).sources = q.sources.recast m.scope (Source.recast m) := by
    rw [Query.recast_eq]
  have hreversed : (q.recast m).reversed = q.reversed := by rw [Query.recast_eq]
  have hbare : selectsBareStar (q.recast m).selection (q.recast m).sources =
      selectsBareStar q.selection q.sources := by
    rw [Query.recast_eq]
    exact selectsBareStar_recast hm.scope q.selection q.sources
  rw [Query.clauses_eq, Query.clauses_eq, hempty, hbare, hsources, hreversed]
  split
  · exact paired_throw _ _
  have hctx : Paired h (fun ctx ctx' => ctx' = ctx.recast m ∧ ctx.schema = schema ∧
      ctx.sources = q.sources) [] (ofOutcome (Context.of schema q.sources))
      (ofOutcome (Context.of schema (q.sources.recast m.scope (Source.recast m)))) := by
    rw [Context.of_recast hm.scope]
    refine paired_ofOutcome fun ctx hctx => ⟨rfl, ?_⟩
    obtain ⟨names, -, rfl⟩ := Outcome.map_eq_ok.mp hctx
    exact ⟨rfl, rfl⟩
  refine hctx.bind_first fun ctx ctx' halike => ?_
  obtain ⟨rfl, hs, hsrc⟩ := halike
  obtain ⟨hitems, hwhere, hgroups, hhaving, hordering⟩ :=
    hparts ctx (ctx.recast m) hs (ctx.alike_recast hm.scope)
  refine (paired_same (R := fun bare bare' => bare' = bare ∧
    selectsBareStar q.selection q.sources = .ok bare) fun bare hb =>
      ⟨rfl, hb⟩).bind_first fun bare bare' hsame => ?_
  obtain ⟨rfl, hb⟩ := hsame
  have hfrom := Context.fromClause_writes hm.text hm.scope ctx hs (by rw [hsrc]; exact hl)
  rw [hargs, ← hsrc]
  refine (q.items_write hm hb hitems).bind fun items items' hi =>
    hfrom.bind fun source source' hf => hwhere.bind fun condition condition' hc =>
      hgroups.bind fun groups groups' hg => hhaving.bind fun having having' hh =>
        (q.order_writes hm hs hordering).bind_pure fun order order' ho => ?_
  have hsql : T (Clauses.sql ⟨q.distinct, items, source, condition, groups, having, order, q.limit⟩)
      _ (Clauses.sql ⟨(q.recast m).distinct, items', source', condition', groups', having', order',
        (q.recast m).limit⟩) :=
    Clauses.sql_related hm.text (by rw [Query.recast_eq]) hi hf hc hg hh ho
      (by rw [Query.recast_eq])
  simpa only [List.append_assoc] using hsql

mutual

theorem Expr.render_writes (hm : m.Faithful schema Raw T h) {ctx ctx' : Context}
    (hs : ctx.schema = schema) (hc : Context.Alike m.scope ctx ctx') :
    (e : Expr) → (∀ s ∈ e.rawParts, Raw s) → (p : Polarity) →
      Writes T h e.arguments (e.render ctx p) ((e.recast m).render ctx' p)
  | .literal sql, he, p => by
    exact paired_pure (hm.text.wrap p (hm.text.raw (he sql List.mem_cons_self)))
  | .value v, _, p => by
    cases hv : v.isNull with
    | true =>
      have hn : v = .null := by cases v <;> first | rfl | cases hv
      subst hn
      rw [Expr.recast, hm.null]
      exact paired_pure (hm.text.wrap p (hm.text.plain (by decide)))
    | false =>
      obtain ⟨s, hT, hr⟩ := hm.leaf v hv
      have ha : (Expr.value v).arguments = [v] := by
        simp [Expr.arguments, Expr.slots, Slots.bound, hv]
      rw [ha]
      refine .done (Expr.appends_value ctx p hv) ?_ (hm.text.wrap p hT)
      rw [List.flatMap_singleton]
      exact hr ctx' p
  | .column qualifier name, _, p => by
    show Writes T h [] (ofOutcome (ctx.columnSql qualifier name) >>= fun sql => pure (p.wrap sql))
      (ofOutcome (ctx'.columnSql _ name) >>= fun sql => pure (p.wrap sql))
    rw [hc.column]
    exact (paired_same fun sql hq => Context.columnSql_text (hs ▸ hm.text) hq).bind_pure
      fun _ _ hss => hm.text.wrap p hss
  | .collate e collation, he, p => by
    obtain ⟨he, hcol⟩ := List.forall_mem_append.mp he
    exact (Expr.render_writes hm hs hc e he .plain).bind_pure fun _ _ hss =>
      hm.text.wrap p (hm.text.collate (hcol collation List.mem_cons_self) hss)
  | .not e, he, p => Expr.render_writes hm hs hc e he p.flip
  | .compare c left right, he, p => by
    obtain ⟨hel, her⟩ := List.forall_mem_append.mp he
    have hl := Expr.render_writes hm hs hc left hel .plain
    have hr := Expr.render_writes hm hs hc right her .plain
    have hargs : (Expr.compare c left right).arguments = left.arguments ++ right.arguments :=
      Slots.bound_append _ _
    rw [hargs, Expr.recast, Expr.render, Expr.render, Expr.isNull_recast hm, Expr.isNull_recast hm]
    split
    · rename_i hn
      rw [Expr.arguments_of_isNull hn, List.append_nil]
      exact hl.bind_pure fun _ _ hss => hm.text.nullTest p c hss
    · split
      · rename_i hn
        rw [Expr.arguments_of_isNull hn, List.nil_append]
        exact hr.bind_pure fun _ _ hss => hm.text.nullTest p c hss
      · exact hl.bind fun _ _ hss => hr.bind_pure fun _ _ htt => hm.text.comparison p c hss htt
  | .prefixOp op e, he, p => by
    obtain ⟨hop, he⟩ := List.forall_mem_cons.mp he
    exact (Expr.render_writes hm hs hc e he .plain).bind_pure fun _ _ hss =>
      hm.text.wrap p (hm.text.append (hm.text.raw hop) hss)
  | .infixOp op left right, he, p => by
    obtain ⟨hel, her⟩ := List.forall_mem_append.mp he
    obtain ⟨hop, her⟩ := List.forall_mem_cons.mp her
    rw [show (Expr.infixOp op left right).arguments = left.arguments ++ right.arguments from
      Slots.bound_append _ _]
    have hspaced : T (" " ++ op ++ " ") [] (" " ++ op ++ " ") :=
      hm.text.after (hm.text.before (by decide) (hm.text.raw hop)) (by decide)
    exact (Expr.render_writes hm hs hc left hel .plain).bind fun _ _ hss =>
      (Expr.render_writes hm hs hc right her .plain).bind_pure fun _ _ htt =>
        hm.text.wrap p (hm.text.operation hspaced hss htt)
  | .inList e candidates, he, p => by
    obtain ⟨hleft, hes⟩ := List.forall_mem_append.mp he
    cases candidates with
    | nil =>
      show Writes T h (Slots.bound e.slots.unbind) (pure p.emptyMembership) (pure p.emptyMembership)
      rw [Slots.bound_unbind]
      exact paired_pure (hm.text.plain (by cases p <;> decide))
    | cons candidate candidates =>
      rw [show (Expr.inList e (candidate :: candidates)).arguments =
        e.arguments ++ Slots.bound (Expr.slotsAll (candidate :: candidates)) from
          Slots.bound_append _ _]
      exact (Expr.render_writes hm hs hc e hleft .plain).bind fun _ _ hss =>
        (Expr.renderAll_writes hm hs hc (candidate :: candidates) hes).bind_pure fun _ _ hts =>
          hm.text.membership p hss (hm.text.commaSeparated hts)
  | .inQuery e q, he, p => by
    obtain ⟨he, hq⟩ := List.forall_mem_append.mp he
    rw [show (Expr.inQuery e q).arguments = e.arguments ++ q.arguments from Slots.bound_append _ _,
      Expr.recast, Expr.render, Expr.render, hc.schema, hs]
    exact (Expr.render_writes hm hs hc e he .plain).bind fun _ _ hss =>
      (Query.clauses_selects hm q hq).bind_pure fun _ _ hts => hm.text.membership p hss hts
  | .existsIn q, he, p => by
    rw [Expr.recast, Expr.render, Expr.render, hc.schema, hs]
    exact (Query.clauses_selects hm q he).bind_pure fun _ _ hts => hm.text.existence p hts
  | .between e low high, he, p => by
    obtain ⟨he, hhigh⟩ := List.forall_mem_append.mp he
    obtain ⟨he, hlow⟩ := List.forall_mem_append.mp he
    rw [show (Expr.between e low high).arguments =
        e.arguments ++ (low.arguments ++ high.arguments) by
      rw [← List.append_assoc]
      exact (Slots.bound_append _ _).trans (congrArg (· ++ _) (Slots.bound_append _ _))]
    exact (Expr.render_writes hm hs hc e he .plain).bind fun _ _ hss =>
      (Expr.render_writes hm hs hc low hlow .plain).bind fun _ _ hll =>
        (Expr.render_writes hm hs hc high hhigh .plain).bind_pure fun _ _ htt =>
          hm.text.wrap p (hm.text.range hss hll htt)
  | .function name arguments, he, p => by
    obtain ⟨hn, hes⟩ := List.forall_mem_cons.mp he
    exact (Expr.renderAll_writes hm hs hc arguments hes).bind_pure fun _ _ hts =>
      hm.text.wrap p (hm.text.call (hm.text.raw hn) (hm.text.commaSeparated hts))
  | .countAll, _, p => paired_pure (hm.text.wrap p hm.text.countAll)
  | .count e, he, p =>
    (Expr.render_writes hm hs hc e he .plain).bind_pure fun _ _ hss =>
      hm.text.wrap p (hm.text.count hss)
  | .countDistinct e, he, p =>
    (Expr.render_writes hm hs hc e he .plain).bind_pure fun _ _ hss =>
      hm.text.wrap p (hm.text.countDistinct hss)

theorem Expr.renderAll_writes (hm : m.Faithful schema Raw T h) {ctx ctx' : Context}
    (hs : ctx.schema = schema) (hc : Context.Alike m.scope ctx ctx') :
    (es : List Expr) → (∀ s ∈ Expr.rawPartsAll es, Raw s) →
      WritesAll T h (Slots.bound (Expr.slotsAll es)) (Expr.renderAll ctx es)
        (Expr.renderAll ctx' (Expr.recastAll m es))
  | [], _ => paired_pure .nil
  | e :: es, he => by
    obtain ⟨he, hes⟩ := List.forall_mem_append.mp he
    rw [Expr.slotsAll, Slots.bound_append]
    exact paired_cons (Expr.render_writes hm hs hc e he .plain)
      (Expr.renderAll_writes hm hs hc es hes)

theorem Expr.renderClause_writes (hm : m.Faithful schema Raw T h) {ctx ctx' : Context}
    (hs : ctx.schema = schema) (hc : Context.Alike m.scope ctx ctx') {keyword : String}
    (hk : Text.Inert keyword) :
    (e : Option Expr) → (∀ s ∈ Expr.rawPartsOption e, Raw s) →
      Writes T h (Slots.bound (Expr.slotsOption e)) (Expr.renderClause ctx keyword e)
        (Expr.renderClause ctx' keyword (Expr.recastOption m e))
  | none, _ => paired_pure hm.text.empty
  | some e, he =>
    (Expr.render_writes hm hs hc e he .plain).bind_pure fun _ _ hss => hm.text.clause hk hss

theorem Item.render_writes (hm : m.Faithful schema Raw T h) {ctx ctx' : Context}
    (hs : ctx.schema = schema) (hc : Context.Alike m.scope ctx ctx') :
    (item : Item) → (∀ s ∈ item.rawParts, Raw s) →
      Writes T h (Slots.bound item.slots) (item.render ctx) ((item.recast m).render ctx')
  | .star x, _ => by
    rw [Item.recast, Item.render, Item.render, hc.star]
    exact paired_same fun sql hx => Context.starWithin_text (hs ▸ hm.text) hx
  | .expr e aliasName, he => by
    have hq : ctx'.quote = ctx.quote := funext fun name => by
      rw [Context.quote, Context.quote, hc.schema]
    rw [Item.recast, Item.render, Item.render, hq]
    refine (Expr.render_writes hm hs hc e he .plain).bind_last fun s s' hss => ?_
    cases aliasName with
    | none => exact paired_pure hss
    | some name =>
      subst hs
      exact paired_pure (hm.text.named hss name)

theorem Item.renderAll_writes (hm : m.Faithful schema Raw T h) {ctx ctx' : Context}
    (hs : ctx.schema = schema) (hc : Context.Alike m.scope ctx ctx') :
    (items : List Item) → (∀ s ∈ Item.rawPartsAll items, Raw s) →
      WritesAll T h (Slots.bound (Item.slotsAll items)) (Item.renderAll ctx items)
        (Item.renderAll ctx' (Item.recastAll m items))
  | [], _ => paired_pure .nil
  | item :: items, he => by
    obtain ⟨he, hes⟩ := List.forall_mem_append.mp he
    rw [Item.slotsAll, Slots.bound_append]
    exact paired_cons (Item.render_writes hm hs hc item he)
      (Item.renderAll_writes hm hs hc items hes)

theorem SortTerm.render_writes (hm : m.Faithful schema Raw T h) {ctx ctx' : Context}
    (hs : ctx.schema = schema) (hc : Context.Alike m.scope ctx ctx') (reversed : Bool) :
    (term : SortTerm) → (∀ s ∈ term.rawParts, Raw s) →
      Writes T h (Slots.bound term.slots) (term.render ctx reversed)
        ((term.recast m).render ctx' reversed)
  | ⟨e, direction⟩, he =>
    (Expr.render_writes hm hs hc e he .plain).bind_pure fun _ _ hss =>
      hm.text.directed hss reversed direction

theorem SortTerm.renderAll_writes (hm : m.Faithful schema Raw T h) {ctx ctx' : Context}
    (hs : ctx.schema = schema) (hc : Context.Alike m.scope ctx ctx') (reversed : Bool) :
    (terms : List SortTerm) → (∀ s ∈ SortTerm.rawPartsAll terms, Raw s) →
      WritesAll T h (Slots.bound (SortTerm.slotsAll terms)) (SortTerm.renderAll ctx reversed terms)
        (SortTerm.renderAll ctx' reversed (SortTerm.recastAll m terms))
  | [], _ => paired_pure .nil
  | term :: terms, he => by
    obtain ⟨he, hes⟩ := List.forall_mem_append.mp he
    rw [SortTerm.slotsAll, Slots.bound_append]
    exact paired_cons (SortTerm.render_writes hm hs hc reversed term he)
      (SortTerm.renderAll_writes hm hs hc reversed terms hes)

theorem Source.leaf_selects (hm : m.Faithful schema Raw T h) :
    (source : Source) → (∀ s ∈ source.rawParts, Raw s) → (q : Query) →
      (aliasName : Option String) → source = .query q aliasName →
      Selects T h q.arguments (q.clauses schema) ((q.recast m).clauses schema)
  | .table _ _, _, _, _, hq => nomatch hq
  | .query q _, he, _, _, hq => by
    have hsel := Query.clauses_selects hm q he
    cases hq
    exact hsel

theorem Source.leaves_select (hm : m.Faithful schema Raw T h) :
    (nodes : List (Node Source)) → (∀ s ∈ Source.rawPartsNodes nodes, Raw s) →
      LeavesWrite schema T h m nodes
  | [], _ => fun _ _ hmem => nomatch hmem
  | .leaf source :: nodes, he => by
    obtain ⟨he, hes⟩ := List.forall_mem_append.mp he
    intro q aliasName hmem
    rcases List.mem_cons.mp hmem with heq | hmem
    · exact Source.leaf_selects hm source he q aliasName (by injection heq with heq; exact heq.symm)
    · exact Source.leaves_select hm nodes hes q aliasName hmem
  | .join _ :: nodes, he => by
    intro q aliasName hmem
    rcases List.mem_cons.mp hmem with heq | hmem
    · cases heq
    · exact Source.leaves_select hm nodes he q aliasName hmem

theorem Query.clauses_selects (hm : m.Faithful schema Raw T h) :
    (q : Query) → (∀ s ∈ q.rawParts, Raw s) →
      Selects T h q.arguments (q.clauses schema) ((q.recast m).clauses schema)
  | ⟨selection, distinct, ⟨scope, nodes, root⟩, condition, grouping, having, ordering,
      reversed, limit⟩, he => by
    obtain ⟨he, hordering⟩ := List.forall_mem_append.mp he
    obtain ⟨he, hhaving⟩ := List.forall_mem_append.mp he
    obtain ⟨he, hgrouping⟩ := List.forall_mem_append.mp he
    obtain ⟨he, hcondition⟩ := List.forall_mem_append.mp he
    obtain ⟨hselection, hnodes⟩ := List.forall_mem_append.mp he
    refine Query.clauses_of_parts hm _ (Source.leaves_select hm nodes hnodes)
      fun ctx ctx' hs hc => ⟨?_, ?_, ?_, ?_, ?_⟩
    · exact Item.renderAll_writes hm hs hc selection hselection
    · exact Expr.renderClause_writes hm hs hc (by decide) condition hcondition
    · exact Expr.renderAll_writes hm hs hc grouping hgrouping
    · exact Expr.renderClause_writes hm hs hc (by decide) having hhaving
    · exact SortTerm.renderAll_writes hm hs hc reversed ordering hordering

end

/-- A faithful recast is rendered like the query, for all texts of raw parts. -/
theorem Query.render_writes (hm : m.Faithful schema Raw T h) (q : Query)
    (hr : ∀ s ∈ q.rawParts, Raw s) :
    Writes T h q.arguments (q.render schema) ((q.recast m).render schema) :=
  (Query.clauses_selects hm q hr).map fun _ _ hs => hs

end

end RelQuery
