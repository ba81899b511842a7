import RelQuery.Proofs.Query.Correspondence
import RelQuery.Proofs.Query.Filters
import RelQuery.Proofs.Query.Parts

/-!
# Comments that expressions open

A prefix is written directly before its operand, and a minus sign before a text that begins with one
opens a comment. No other form does: names are in quotes, operands of infix operators have blanks
around the operator and parentheses around both, and every text ends in a character that opens
nothing.
-/

set_option autoImplicit false

namespace RelQuery

open Rendering

/-- Expressions of the builder's operators whose names have no open quotes. -/
def Admissible (xs : List Expr) : Prop :=
  ∀ x ∈ xs, x.FromOperators ∧ x.ClosesQuotes

theorem admissible_cons {x : Expr} {xs : List Expr} :
    Admissible (x :: xs) ↔ (x.FromOperators ∧ x.ClosesQuotes) ∧ Admissible xs :=
  List.forall_mem_cons

theorem admissible_append {xs ys : List Expr} :
    Admissible (xs ++ ys) ↔ Admissible xs ∧ Admissible ys :=
  List.forall_mem_append

/-- The second text is the first. It is settled, and it has a comment exactly if one of the
expressions in it is a doubled minus. -/
def SettledText (s : String) (xs : List Expr) (s' : String) : Prop :=
  s' = s ∧ Text.Settled s (xs.any Expr.doublesMinus)

theorem settledText_relation :
    TextRelation Text.quoteIdentifier (Text.Settled · false) SettledText where
  plain := by
    intro s hs
    refine ⟨rfl, .of_dashless ?_ hs.2⟩
    exact Text.endsInside_of_unquoted (fun c hc => (hs.1 c hc).2.1) false
  raw := fun hs => ⟨rfl, hs⟩
  quoted := fun name => ⟨rfl, .identifier name⟩
  append := by
    rintro s _ t _ xs ys ⟨rfl, hs⟩ ⟨rfl, ht⟩
    refine ⟨rfl, ?_⟩
    rw [List.any_append]
    exact hs.append ht
  group := by
    rintro s _ _ ⟨rfl, hs⟩
    exact ⟨rfl, hs.group⟩
  collate := by
    rintro s _ c _ hc ⟨rfl, hs⟩
    exact ⟨rfl, hs.collate hc⟩
  empty_iff := by
    rintro s _ _ ⟨rfl, -⟩
    exact Iff.rfl

section

variable {ctx : Context}

theorem Context.columnSql_leads (hq : ctx.schema.quote = Text.quoteIdentifier)
    {qualifier : Option Qualifier} {name sql : String}
    (h : ctx.columnSql qualifier name = .ok sql) : Text.Leads sql false := by
  have hident : ∀ source : String, Text.Leads (ctx.quote source) false := by
    intro source
    rw [Context.quote, hq]
    exact .identifier source
  rcases qualifier with _ | x | source
  · cases h
    exact hident name
  · obtain ⟨source, -, h⟩ := Outcome.bind_eq_ok.mp h
    cases h
    exact ((hident source).append _).append _
  · cases h
    exact ((hident source).append _).append _

namespace Expr

theorem leads_of_enclosed {e : Expr} {p : Polarity} (h : e.enclosed p = true) :
    e.leads p = false := by
  fun_induction Expr.leads p e with
  | case1 p e ih => exact ih h
  | case2 e collation ih => cases h
  | case3 op e => cases h
  | case4 => rfl

theorem render_leads_of_enclosed {e : Expr} {p : Polarity} (h : e.enclosed p = true) :
    (e.render ctx p).Gives (Text.Leads · (e.leads p)) := by
  rw [leads_of_enclosed h]
  refine (e.render_enclosed ctx p h).mono ?_
  rintro _ ⟨inner, rfl⟩
  exact .group inner

theorem render_leads (hq : ctx.schema.quote = Text.quoteIdentifier) :
    (e : Expr) → (∀ x ∈ e.parts, x.FromOperators) → (p : Polarity) →
      (e.render ctx p).Gives (Text.Leads · (e.leads p))
  | .not e, hops, p => by
    rw [render]
    exact e.render_leads hq (fun x hx => hops x (List.mem_cons_of_mem _ hx)) p.flip
  | .literal _, hops, _ => (hops _ List.mem_cons_self).elim
  | .compare _ _ _, _, p => render_leads_of_enclosed rfl
  | .infixOp _ _ _, _, p => render_leads_of_enclosed rfl
  | .inQuery _ _, _, p => render_leads_of_enclosed rfl
  | .existsIn _, _, p => render_leads_of_enclosed rfl
  | .between _ _ _, _, p => render_leads_of_enclosed rfl
  | .inList e [], _, p => by
    rw [render]
    cases p with
    | plain => exact gives_pure ⟨'0', [], rfl, rfl⟩
    | negated => exact gives_pure ⟨'1', [], rfl, rfl⟩
  | .inList e (candidate :: candidates), _, p => render_leads_of_enclosed rfl
  | .value v, _, .plain => by
    cases v with
    | null => exact gives_pure ⟨'N', ['U', 'L', 'L'], rfl, rfl⟩
    | _ => exact (gives_bindValue _).bind fun s hs => gives_pure (hs ▸ ⟨'?', [], rfl, rfl⟩)
  | .column qualifier name, _, .plain => by
    rw [render]
    exact (gives_ofOutcome _).bind fun sql hsql =>
      gives_pure (Context.columnSql_leads hq hsql)
  | .collate e collation, hops, .plain => by
    rw [render]
    exact (e.render_leads hq (fun x hx => hops x (List.mem_cons_of_mem _ hx)) .plain).bind
      fun s hs => gives_pure (hs.collate collation)
  | .prefixOp op e, hops, .plain => by
    obtain rfl : op = "-" := hops _ List.mem_cons_self
    rw [render]
    have hsign : Text.Leads "-" true := ⟨'-', [], rfl, rfl⟩
    exact gives_bind fun s => gives_pure (hsign.append s)
  | .function name arguments, hops, .plain => by
    have hname : Text.Tame name := hops _ List.mem_cons_self
    rw [render]
    refine gives_bind fun list => gives_pure ?_
    rw [Polarity.wrap, Text.call_group]
    exact .after_dashless (Text.dashless_capitals hname) (.group _)
  | .countAll, _, .plain => gives_pure ⟨'C', _, rfl, rfl⟩
  | .count e, _, .plain => by
    have hword : Text.Leads "COUNT(" false := ⟨'C', _, rfl, rfl⟩
    rw [render]
    exact gives_bind fun s => gives_pure ((hword.append s).append ")")
  | .countDistinct e, _, .plain => by
    have hword : Text.Leads "COUNT(DISTINCT " false := ⟨'C', _, rfl, rfl⟩
    rw [render]
    exact gives_bind fun s => gives_pure ((hword.append s).append ")")
  | .value _, _, .negated => render_leads_of_enclosed rfl
  | .column _ _, _, .negated => render_leads_of_enclosed rfl
  | .collate _ _, _, .negated => render_leads_of_enclosed rfl
  | .prefixOp _ _, _, .negated => render_leads_of_enclosed rfl
  | .function _ _, _, .negated => render_leads_of_enclosed rfl
  | .countAll, _, .negated => render_leads_of_enclosed rfl
  | .count _, _, .negated => render_leads_of_enclosed rfl
  | .countDistinct _, _, .negated => render_leads_of_enclosed rfl

end Expr

end

abbrev Tells (xs : List Expr) (s : String) : Prop :=
  SettledText s xs s

abbrev TellsAll (xs : List Expr) (ss : List String) : Prop :=
  Texts SettledText ss xs ss

namespace SettledText

variable {s s' : String} {xs ys : List Expr}

theorem of_any (h : SettledText s xs s')
    (hany : ys.any Expr.doublesMinus = xs.any Expr.doublesMinus) : SettledText s ys s' :=
  ⟨h.1, hany ▸ h.2⟩

theorem cons (h : SettledText s xs s') {x : Expr} (hx : x.doublesMinus = false) :
    SettledText s (x :: xs) s' :=
  h.of_any (by rw [List.any_cons, hx, Bool.false_or])

theorem minus {e : Expr} (h : Tells e.parts s) (hl : Text.Leads s (e.leads .plain)) :
    Tells (Expr.prefixOp "-" e).parts ("-" ++ s) :=
  ⟨rfl, h.2.minus hl⟩

end SettledText

variable {schema : Schema}

theorem settledText_schema (hq : schema.quote = Text.quoteIdentifier) :
    TextRelation schema.quote (Text.Settled · false) SettledText :=
  hq ▸ settledText_relation

def LeavesTell (schema : Schema) (nodes : List (Node Source)) : Prop :=
  ∀ (q : Query) (aliasName : Option String), .leaf (.query q aliasName) ∈ nodes →
    Admissible q.parts → (q.clauses schema).Gives fun c => Tells q.parts c.sql

namespace Context

variable {ctx : Context}

theorem leafSql_tells (hq : schema.quote = Text.quoteIdentifier)
    (hs : ctx.schema = schema) (x : SourceId) (source : Source)
    (hleaf : ∀ (q : Query) (aliasName : Option String), source = .query q aliasName →
      (q.clauses schema).Gives fun c => Tells q.parts c.sql) :
    (ctx.leafSql x (source.sql schema)).Gives (Tells source.parts) := by
  have ht := settledText_schema hq
  subst hs
  cases source with
  | table name aliasName =>
    exact gives_bind fun name' => gives_pure (ht.table name name')
  | query q aliasName =>
    have hsql : (Clauses.sql <$> q.clauses ctx.schema).Gives (Tells q.parts) :=
      (hleaf q aliasName rfl).map fun _ hc => hc
    refine hsql.bind fun s hss => ?_
    rcases ctx.names[x.index]? with _ | _ | name
    · exact gives_pure (ht.group hss)
    · exact gives_pure (ht.group hss)
    · exact gives_pure (ht.namedGroup hss name)

theorem fromWithin_tells (hq : schema.quote = Text.quoteIdentifier)
    (hs : ctx.schema = schema) (hl : LeavesTell schema ctx.sources.nodes)
    (n : Nat) (x : SourceId) (hops : Admissible (ctx.sources.parts.gatherWithin n x)) :
    (ctx.fromWithin (ctx.sources.sqls schema) n x).Gives
      (Tells (ctx.sources.parts.gatherWithin n x)) := by
  have ht := settledText_schema hq
  induction n generalizing x with
  | zero => exact gives_throw .endless
  | succ n ih =>
    rw [Arena.gatherWithin, Arena.node_parts] at hops ⊢
    rw [fromWithin, Arena.node_sqls]
    rcases hx : ctx.sources.node x with f | source | j
    · exact gives_throw f
    · have hmem : .leaf source ∈ ctx.sources.nodes :=
        List.mem_of_getElem? (Outcome.element_eq_ok.mp hx)
      rw [hx] at hops
      refine leafSql_tells hq hs x source fun q aliasName hquery => ?_
      subst hquery
      exact hl q aliasName hmem hops
    · rw [hx] at hops
      obtain ⟨hbase, htarget⟩ := admissible_append.mp hops
      show (ofOutcome (ctx.checkForeignKey j) >>= fun _ =>
        ctx.fromWithin (ctx.sources.sqls schema) n j.base >>= fun base =>
          ctx.fromWithin (ctx.sources.sqls schema) n j.target >>= fun target =>
            ofOutcome (ctx.joinCondition j) >>= fun condition =>
              pure (base ++ " LEFT JOIN " ++ target ++ " ON " ++ condition)).Gives _
      refine gives_bind fun _ => (ih j.base hbase).bind fun base hb =>
        (ih j.target htarget).bind fun target hr =>
          (gives_ofOutcome _).bind fun condition hc =>
            gives_pure (ht.leftJoin hb hr (joinCondition_text (hs ▸ ht) hc))

theorem fromClause_tells (hq : schema.quote = Text.quoteIdentifier)
    (hs : ctx.schema = schema) (hl : LeavesTell schema ctx.sources.nodes)
    (hops : Admissible ctx.sources.parts.gather) :
    (ctx.fromClause (ctx.sources.sqls schema)).Gives fun source =>
      OptionalText SettledText source ctx.sources.parts.gather source := by
  rw [Arena.gather] at hops ⊢
  rw [fromClause]
  rw [show ctx.sources.parts.root = (ctx.sources.sqls schema).root from rfl] at hops ⊢
  cases hroot : (ctx.sources.sqls schema).root with
  | none => exact gives_pure .none
  | some x =>
    rw [hroot] at hops
    have hdepth : ctx.sources.parts.depth = (ctx.sources.sqls schema).depth := by
      simp [Arena.depth, Arena.sqls, Arena.parts, Source.nodesSql_eq, Source.nodeParts_eq]
    rw [hdepth] at hops ⊢
    exact (fromWithin_tells hq hs hl _ x hops).map fun _ hss => .some hss

end Context

structure Query.PartsTell (q : Query) (ctx : Context) : Prop where
  items : (Item.renderAll ctx q.selection).Gives (TellsAll (Item.partsAll q.selection))
  condition : (Expr.renderClause ctx "WHERE" q.condition).Gives
    (Tells (Expr.partsOption q.condition))
  groups : (Expr.renderAll ctx q.grouping).Gives (TellsAll (Expr.partsAll q.grouping))
  having : (Expr.renderClause ctx "HAVING" q.having).Gives (Tells (Expr.partsOption q.having))
  ordering : (SortTerm.renderAll ctx q.reversed q.ordering).Gives
    (TellsAll (SortTerm.partsAll q.ordering))

theorem partsAll_of_bareStar {selection : List Item} {sources : Arena Source}
    (hb : selectsBareStar selection sources = .ok true) : Item.partsAll selection = [] := by
  rcases bareStar_cases hb with rfl | ⟨id, rfl⟩ <;> rfl

theorem Query.order_tells (hq : schema.quote = Text.quoteIdentifier) (q : Query) {ctx : Context}
    (hs : ctx.schema = schema)
    (ho : (SortTerm.renderAll ctx q.reversed q.ordering).Gives
      (TellsAll (SortTerm.partsAll q.ordering))) :
    (if q.reversed && q.ordering.isEmpty then ofOutcome ctx.reversedRowId
      else commaSeparated <$> SortTerm.renderAll ctx q.reversed q.ordering).Gives
      (Tells (SortTerm.partsAll q.ordering)) := by
  have ht := settledText_schema hq
  split
  · rename_i hr
    rw [Bool.and_eq_true, List.isEmpty_iff] at hr
    rw [hr.2]
    exact (gives_ofOutcome _).mono fun _ hsql => Context.reversedRowId_text (hs ▸ ht) hsql
  · exact ho.map fun _ hss => ht.commaSeparated hss

theorem Query.clauses_tell (hq : schema.quote = Text.quoteIdentifier) (q : Query)
    (hl : LeavesTell schema q.sources.nodes)
    (hops : Admissible q.sources.parts.gather)
    (hparts : ∀ ctx : Context, ctx.schema = schema → q.PartsTell ctx) :
    (q.clauses schema).Gives fun c => Tells q.parts c.sql := by
  have ht := settledText_schema hq
  rw [Query.clauses_eq, q.parts_eq]
  split
  · exact gives_throw _
  refine (gives_ofOutcome _).bind fun ctx hctx => ?_
  obtain ⟨names, -, rfl⟩ := Outcome.map_eq_ok.mp hctx
  obtain ⟨hitems, hwhere, hgroups, hhaving, hordering⟩ := hparts ⟨schema, q.sources, names⟩ rfl
  refine (gives_ofOutcome _).bind fun bare hbare => ?_
  have hselected : (if bare then pure ["*"] else
      Item.renderAll ⟨schema, q.sources, names⟩ q.selection).Gives
        (TellsAll (Item.partsAll q.selection)) := by
    cases bare with
    | true =>
      rw [partsAll_of_bareStar hbare]
      exact gives_pure (.singleton (ht.plain (by decide)))
    | false => exact hitems
  refine hselected.bind fun items hi =>
    (Context.fromClause_tells hq rfl hl hops).bind fun source hf => hwhere.bind fun condition hc =>
      hgroups.bind fun groups hg => hhaving.bind fun having hh =>
        (q.order_tells hq rfl hordering).bind fun order ho => gives_pure ?_
  show Tells _ (Clauses.sql ⟨q.distinct, items, source, condition, groups, having, order, q.limit⟩)
  exact Clauses.sql_related ht rfl hi hf hc hg hh ho rfl

theorem BinaryOp.settled (o : BinaryOp) : Text.Settled (" " ++ o.sql ++ " ") false := by
  cases o <;> exact ⟨by decide, by decide, fun c hc => by cases hc; decide⟩

mutual

theorem Expr.render_tells (hq : schema.quote = Text.quoteIdentifier) {ctx : Context}
    (hs : ctx.schema = schema) :
    (e : Expr) → Admissible e.parts → (p : Polarity) → (e.render ctx p).Gives (Tells e.parts)
  | .literal _, hops, _ => ((hops _ List.mem_cons_self).1 : False).elim
  | .value v, _, p => by
    have ht := settledText_schema hq
    cases v with
    | null => exact gives_pure (.cons (ht.wrap p (ht.plain (by decide))) rfl)
    | _ =>
      refine (gives_bindValue _).bind fun s hmark => gives_pure (.cons (ht.wrap p ?_) rfl)
      exact hmark ▸ ⟨rfl, .of_dashless (by decide) (by decide)⟩
  | .column qualifier name, _, p => by
    have ht := settledText_schema hq
    rw [Expr.render]
    exact (gives_ofOutcome _).bind fun sql hsql =>
      gives_pure (.cons (ht.wrap p (Context.columnSql_text (hs ▸ ht) hsql)) rfl)
  | .collate e collation, hops, p => by
    have ht := settledText_schema hq
    obtain ⟨⟨hname, hclosed⟩, he⟩ := admissible_cons.mp hops
    rw [Expr.render]
    exact (Expr.render_tells hq hs e he .plain).bind fun s hss =>
      gives_pure (.cons (ht.wrap p (ht.collate (Text.settled_of_tame hname hclosed) hss)) rfl)
  | .not e, hops, p => by
    rw [Expr.render]
    exact (Expr.render_tells hq hs e (admissible_cons.mp hops).2 p.flip).mono
      fun _ hss => .cons hss rfl
  | .compare c left right, hops, p => by
    have ht := settledText_schema hq
    obtain ⟨-, hops⟩ := admissible_cons.mp hops
    obtain ⟨hleft, hright⟩ := admissible_append.mp hops
    have hl := Expr.render_tells hq hs left hleft .plain
    have hr := Expr.render_tells hq hs right hright .plain
    rw [Expr.render]
    split
    · rename_i hn
      refine hl.bind fun s hss => gives_pure (.cons ((ht.nullTest p c hss).of_any ?_) rfl)
      rw [List.any_append, Expr.doublesMinus_of_isNull hn, Bool.or_false]
    · split
      · rename_i hn
        refine hr.bind fun s hss => gives_pure (.cons ((ht.nullTest p c hss).of_any ?_) rfl)
        rw [List.any_append, Expr.doublesMinus_of_isNull hn, Bool.false_or]
      · exact hl.bind fun s hss => hr.bind fun t htt =>
          gives_pure (.cons (ht.comparison p c hss htt) rfl)
  | .prefixOp op e, hops, p => by
    have ht := settledText_schema hq
    obtain ⟨⟨hop, -⟩, he⟩ := admissible_cons.mp hops
    obtain rfl : op = "-" := hop
    have hleads := Expr.render_leads (hs ▸ hq) e (fun x hx => (he x hx).1) .plain
    rw [Expr.render]
    exact ((Expr.render_tells hq hs e he .plain).and hleads).bind fun s hss =>
      gives_pure (ht.wrap p (SettledText.minus hss.1 hss.2))
  | .infixOp op left right, hops, p => by
    have ht := settledText_schema hq
    obtain ⟨⟨⟨o, rfl⟩, -⟩, hboth⟩ := admissible_cons.mp hops
    obtain ⟨hleft, hright⟩ := admissible_append.mp hboth
    have hspaced : Tells [] (" " ++ o.sql ++ " ") := ⟨rfl, o.settled⟩
    rw [Expr.render]
    exact (Expr.render_tells hq hs left hleft .plain).bind fun s hss =>
      (Expr.render_tells hq hs right hright .plain).bind fun t htt =>
        gives_pure (.cons (ht.wrap p (ht.operation hspaced hss htt)) rfl)
  | .inList e [], hops, p => by
    have ht := settledText_schema hq
    rw [Expr.render]
    exact gives_pure (.cons (ht.plain (by cases p <;> decide)) rfl)
  | .inList e (candidate :: candidates), hops, p => by
    have ht := settledText_schema hq
    obtain ⟨-, hops⟩ := admissible_cons.mp hops
    obtain ⟨he, hes⟩ := admissible_append.mp hops
    rw [Expr.render]
    exact (Expr.render_tells hq hs e he .plain).bind fun s hss =>
      (Expr.renderAll_tells hq hs (candidate :: candidates) hes).bind fun ts hts =>
        gives_pure (.cons (ht.membership p hss (ht.commaSeparated hts)) rfl)
  | .inQuery e q, hops, p => by
    have ht := settledText_schema hq
    obtain ⟨-, hops⟩ := admissible_cons.mp hops
    obtain ⟨he, hinner⟩ := admissible_append.mp hops
    rw [Expr.render, hs]
    exact (Expr.render_tells hq hs e he .plain).bind fun s hss =>
      (Query.render_tells hq q hinner).bind fun inner hts =>
        gives_pure (.cons (ht.membership p hss hts) rfl)
  | .existsIn q, hops, p => by
    have ht := settledText_schema hq
    rw [Expr.render, hs]
    exact (Query.render_tells hq q (admissible_cons.mp hops).2).bind fun inner hts =>
      gives_pure (.cons (ht.existence p hts) rfl)
  | .between e low high, hops, p => by
    have ht := settledText_schema hq
    obtain ⟨-, hops⟩ := admissible_cons.mp hops
    obtain ⟨he, hops⟩ := admissible_append.mp hops
    obtain ⟨hlow, hhigh⟩ := admissible_append.mp hops
    rw [Expr.render]
    exact (Expr.render_tells hq hs e he .plain).bind fun s hss =>
      (Expr.render_tells hq hs low hlow .plain).bind fun l hll =>
        (Expr.render_tells hq hs high hhigh .plain).bind fun t htt =>
          gives_pure (.cons (ht.wrap p (ht.range hss hll htt)) rfl)
  | .function name arguments, hops, p => by
    have ht := settledText_schema hq
    obtain ⟨⟨hname, hclosed⟩, hes⟩ := admissible_cons.mp hops
    rw [Expr.render]
    exact (Expr.renderAll_tells hq hs arguments hes).bind fun ts hts => gives_pure
      (.cons (ht.wrap p (ht.call (ht.raw (Text.settled_capitals hname hclosed))
        (ht.commaSeparated hts))) rfl)
  | .countAll, _, p => by
    have ht := settledText_schema hq
    exact gives_pure (.cons (ht.wrap p ht.countAll) rfl)
  | .count e, hops, p => by
    have ht := settledText_schema hq
    rw [Expr.render]
    exact (Expr.render_tells hq hs e (admissible_cons.mp hops).2 .plain).bind fun s hss =>
      gives_pure (.cons (ht.wrap p (ht.count hss)) rfl)
  | .countDistinct e, hops, p => by
    have ht := settledText_schema hq
    rw [Expr.render]
    exact (Expr.render_tells hq hs e (admissible_cons.mp hops).2 .plain).bind fun s hss =>
      gives_pure (.cons (ht.wrap p (ht.countDistinct hss)) rfl)

theorem Expr.renderAll_tells (hq : schema.quote = Text.quoteIdentifier) {ctx : Context}
    (hs : ctx.schema = schema) :
    (es : List Expr) → Admissible (Expr.partsAll es) →
      (Expr.renderAll ctx es).Gives (TellsAll (Expr.partsAll es))
  | [], _ => gives_pure .nil
  | e :: es, hops => by
    obtain ⟨he, hes⟩ := admissible_append.mp hops
    exact (Expr.render_tells hq hs e he .plain).bind fun _ hss =>
      (Expr.renderAll_tells hq hs es hes).bind fun _ hts => gives_pure (.cons hss hts)

theorem Expr.renderClause_tells (hq : schema.quote = Text.quoteIdentifier) {ctx : Context}
    (hs : ctx.schema = schema) {keyword : String}
    (hk : Text.Inert keyword) :
    (e : Option Expr) → Admissible (Expr.partsOption e) →
      (Expr.renderClause ctx keyword e).Gives (Tells (Expr.partsOption e))
  | none, _ => gives_pure (settledText_schema hq).empty
  | some e, hops =>
    (Expr.render_tells hq hs e hops .plain).bind fun _ hss =>
      gives_pure ((settledText_schema hq).clause hk hss)

theorem Item.render_tells (hq : schema.quote = Text.quoteIdentifier) {ctx : Context}
    (hs : ctx.schema = schema) :
    (item : Item) → Admissible item.parts → (item.render ctx).Gives (Tells item.parts)
  | .star x, _ => by
    have ht := settledText_schema hq
    rw [Item.render]
    exact (gives_ofOutcome _).mono fun _ hsql => Context.starWithin_text (hs ▸ ht) hsql
  | .expr e aliasName, hops => by
    have ht := settledText_schema hq
    rw [Item.render]
    refine (Expr.render_tells hq hs e hops .plain).bind fun s hss => ?_
    cases aliasName with
    | none => exact gives_pure hss
    | some name =>
      subst hs
      exact gives_pure (ht.named hss name)

theorem Item.renderAll_tells (hq : schema.quote = Text.quoteIdentifier) {ctx : Context}
    (hs : ctx.schema = schema) :
    (items : List Item) → Admissible (Item.partsAll items) →
      (Item.renderAll ctx items).Gives (TellsAll (Item.partsAll items))
  | [], _ => gives_pure .nil
  | item :: items, hops => by
    obtain ⟨he, hes⟩ := admissible_append.mp hops
    exact (Item.render_tells hq hs item he).bind fun _ hss =>
      (Item.renderAll_tells hq hs items hes).bind fun _ hts => gives_pure (.cons hss hts)

theorem SortTerm.render_tells (hq : schema.quote = Text.quoteIdentifier) {ctx : Context}
    (hs : ctx.schema = schema) (reversed : Bool) :
    (term : SortTerm) → Admissible term.parts →
      (term.render ctx reversed).Gives (Tells term.parts)
  | ⟨e, direction⟩, hops =>
    (Expr.render_tells hq hs e hops .plain).bind fun _ hss =>
      gives_pure ((settledText_schema hq).directed hss reversed direction)

theorem SortTerm.renderAll_tells (hq : schema.quote = Text.quoteIdentifier) {ctx : Context}
    (hs : ctx.schema = schema) (reversed : Bool) :
    (terms : List SortTerm) → Admissible (SortTerm.partsAll terms) →
      (SortTerm.renderAll ctx reversed terms).Gives (TellsAll (SortTerm.partsAll terms))
  | [], _ => gives_pure .nil
  | term :: terms, hops => by
    obtain ⟨he, hes⟩ := admissible_append.mp hops
    exact (SortTerm.render_tells hq hs reversed term he).bind fun _ hss =>
      (SortTerm.renderAll_tells hq hs reversed terms hes).bind fun _ hts =>
        gives_pure (.cons hss hts)

theorem Source.leaf_tells (hq : schema.quote = Text.quoteIdentifier) :
    (source : Source) → (q : Query) → (aliasName : Option String) → source = .query q aliasName →
      Admissible q.parts → (q.clauses schema).Gives fun c => Tells q.parts c.sql
  | .table _ _, _, _, hquery, _ => nomatch hquery
  | .query q _, _, _, hquery, hops => by
    have htells := Query.render_tells hq q
    cases hquery
    exact htells hops

theorem Source.leaves_tell (hq : schema.quote = Text.quoteIdentifier) :
    (nodes : List (Node Source)) → LeavesTell schema nodes
  | [] => fun _ _ hmem => nomatch hmem
  | .leaf source :: nodes => by
    intro q aliasName hmem hops
    rcases List.mem_cons.mp hmem with heq | hmem
    · exact Source.leaf_tells hq source q aliasName
        (by injection heq with heq; exact heq.symm) hops
    · exact Source.leaves_tell hq nodes q aliasName hmem hops
  | .join _ :: nodes => by
    intro q aliasName hmem
    rcases List.mem_cons.mp hmem with heq | hmem
    · cases heq
    · exact Source.leaves_tell hq nodes q aliasName hmem

theorem Query.render_tells (hq : schema.quote = Text.quoteIdentifier) :
    (q : Query) → Admissible q.parts → (q.clauses schema).Gives fun c => Tells q.parts c.sql
  | ⟨selection, distinct, ⟨scope, nodes, root⟩, condition, grouping, having, ordering,
      reversed, limit⟩, hops => by
    obtain ⟨hops, hordering⟩ := admissible_append.mp hops
    obtain ⟨hops, hhaving⟩ := admissible_append.mp hops
    obtain ⟨hops, hgrouping⟩ := admissible_append.mp hops
    obtain ⟨hops, hcondition⟩ := admissible_append.mp hops
    obtain ⟨hselection, hsources⟩ := admissible_append.mp hops
    refine Query.clauses_tell hq _ (Source.leaves_tell hq nodes) hsources
      fun ctx hs => ⟨?_, ?_, ?_, ?_, ?_⟩
    · exact Item.renderAll_tells hq hs selection hselection
    · exact Expr.renderClause_tells hq hs (by decide) condition hcondition
    · exact Expr.renderAll_tells hq hs grouping hgrouping
    · exact Expr.renderClause_tells hq hs (by decide) having hhaving
    · exact SortTerm.renderAll_tells hq hs reversed ordering hordering

end

theorem SettledText.hasComment_iff {xs : List Expr} {sql : String} (h : Tells xs sql) :
    Text.hasComment sql = true ↔ ∃ x ∈ xs, x.doublesMinus = true := by
  rw [h.2.scanned, List.any_eq_true]

/-- The text of an expression or of a query made by the builder's operators opens a comment exactly
if a minus sign is written before a text that begins with one, anywhere in it. -/
theorem comments_opened (hq : schema.quote = Text.quoteIdentifier) :
    (∀ (ctx : Context) (e : Expr) (p : Polarity) (sql : String), ctx.schema = schema →
      (∀ x ∈ e.parts, x.FromOperators) → (∀ x ∈ e.parts, x.ClosesQuotes) →
      (e.render ctx p).Yields sql →
        (Text.hasComment sql = true ↔ ∃ x ∈ e.parts, x.doublesMinus = true)) ∧
    ∀ (q : Query) (sql : String), (∀ x ∈ q.parts, x.FromOperators) →
      (∀ x ∈ q.parts, x.ClosesQuotes) → (q.render schema).Yields sql →
        (Text.hasComment sql = true ↔ ∃ x ∈ q.parts, x.doublesMinus = true) := by
  constructor
  · rintro ctx e p sql hs hops hclosed ⟨b, b', hrun⟩
    have hadmissible : Admissible e.parts := fun x hx => ⟨hops x hx, hclosed x hx⟩
    exact (e.render_tells hq hs hadmissible p b b' sql hrun).hasComment_iff
  · rintro q sql hops hclosed ⟨b, b', hrun⟩
    have hadmissible : Admissible q.parts := fun x hx => ⟨hops x hx, hclosed x hx⟩
    have htells : (q.render schema).Gives (Tells q.parts) :=
      (Query.render_tells hq q hadmissible).map fun _ hc => hc
    exact (htells b b' sql hrun).hasComment_iff

def Context.alone (schema : Schema) : Context :=
  ⟨schema, ⟨0, [], none⟩, []⟩

/-- The open quote of a function name turns the column after it inside out. -/
example :
    (Expr.render (.alone Query.plainSchema) .plain (.function "\"" [.column none "--"])).runFrom
      .empty = (.ok "\"(\"--\")", .empty) ∧ Text.hasComment "\"(\"--\")" = true :=
  ⟨rfl, by decide⟩

namespace Expr

def balance : Expr :=
  .minus (.binary .subtract (.minus (.column none "paid")) (.minus (.value (.integer 5))))

def balanceSql : String :=
  "-(-\"paid\" - -?)"

def inBalance : Query :=
  (Query.table 0 "accounts").filter (.compare .equal (.column none "due") balance)

def inBalanceSql : String :=
  "SELECT * FROM \"accounts\" WHERE (\"due\" = -(-\"paid\" - -?))"

theorem balance_seen :
    (∀ x ∈ inBalance.parts, x.FromOperators ∧ x.ClosesQuotes) ∧
    (balance.render (.alone Query.plainSchema) .plain).Yields balanceSql ∧
    Text.hasComment balanceSql = false ∧
    (inBalance.render Query.plainSchema).Yields inBalanceSql ∧
    Text.hasComment inBalanceSql = false := by
  have hyields : (balance.render (.alone Query.plainSchema) .plain).Yields balanceSql :=
    ⟨.empty, ⟨[.integer 5]⟩, rfl⟩
  have hyields' : (inBalance.render Query.plainSchema).Yields inBalanceSql :=
    ⟨.empty, ⟨[.integer 5]⟩, rfl⟩
  have hparts : inBalance.parts =
      .compare .equal (.column none "due") balance :: .column none "due" :: balance.parts := rfl
  have hops : ∀ x ∈ inBalance.parts, x.FromOperators := by
    simp [hparts, balance, parts, minus, binary, FromOperators]
  have hclosed : ∀ x ∈ inBalance.parts, x.ClosesQuotes := by
    simp [hparts, balance, parts, minus, binary, ClosesQuotes]
  have hsingle : ¬∃ x ∈ inBalance.parts, x.doublesMinus = true := by
    simp [hparts, balance, parts, minus, binary, doublesMinus, leads]
  have hmem : ∀ x ∈ balance.parts, x ∈ inBalance.parts := by
    intro x hx
    rw [hparts]
    exact List.mem_cons_of_mem _ (List.mem_cons_of_mem _ hx)
  obtain ⟨hexpr, hquery⟩ := @comments_opened Query.plainSchema rfl
  refine ⟨fun x hx => ⟨hops x hx, hclosed x hx⟩, hyields, ?_, hyields', ?_⟩
  · have hiff := hexpr _ balance .plain balanceSql rfl (fun x hx => hops x (hmem x hx))
      (fun x hx => hclosed x (hmem x hx)) hyields
    rw [← Bool.not_eq_true, hiff]
    rintro ⟨x, hx, hdouble⟩
    exact hsingle ⟨x, hmem x hx, hdouble⟩
  · rw [← Bool.not_eq_true, hquery inBalance inBalanceSql hops hclosed hyields']
    exact hsingle

def doubled : Expr :=
  .compare .equal (.column none "a") (.minus (.minus (.value (.integer 5))))

/-- Its value is bound, and its placeholder is in a comment. -/
theorem doubled_hidden :
    (∀ x ∈ doubled.parts, x.FromOperators ∧ x.ClosesQuotes) ∧
    (doubled.render (.alone Query.plainSchema) .plain).runFrom .empty =
      (.ok "(\"a\" = --?)", ⟨[.integer 5]⟩) ∧
    Text.hasComment "(\"a\" = --?)" = true := by
  refine ⟨?_, rfl, by decide⟩
  simp [doubled, parts, minus, FromOperators, ClosesQuotes]

end Expr

end RelQuery
