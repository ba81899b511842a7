import RelQuery.Proofs.Query.ForeignKeys
import RelQuery.Proofs.Query.Fragments

/-!
# Reversed queries

Reversing a query changes what stands after ORDER BY and nothing else. Sort terms keep their
expressions and places and are turned round. A query without sort terms is ordered by the row ids of
its first source where that is a table that has them and shows no column by their name; any other is
refused.
-/

set_option autoImplicit false

namespace RelQuery

open Arena Rendering

/-- The rows of the table have ids, and no column of it takes their name. -/
def Schema.OffersRowId (schema : Schema) (table : String) : Prop :=
  schema.hasRowId table = .ok true ∧ ∃ columns, schema.columns table = .ok columns ∧
    ∀ column ∈ columns, Text.sameName column "_rowid_" = false

namespace SortTerm

def expression : SortTerm → Expr
  | ⟨e, _⟩ => e

def direction : SortTerm → Direction
  | ⟨_, d⟩ => d

def directionIn (reversed : Bool) (term : SortTerm) : Direction :=
  if reversed then term.direction.reversed else term.direction

end SortTerm

/-- What a sort term is written as, and what it is written as when it is turned round. -/
inductive SortTerm.Turns (ctx : Context) : SortTerm → String → String → Prop
  | unstated {e : Expr} {x : Fragment} (h : e.LowersTo ctx x) :
    Turns ctx ⟨e, .unstated⟩ x.text (x.text ++ " DESC")
  | ascending {e : Expr} {x : Fragment} (h : e.LowersTo ctx x) :
    Turns ctx ⟨e, .ascending⟩ (x.text ++ " ASC") (x.text ++ " DESC")
  | descending {e : Expr} {x : Fragment} (h : e.LowersTo ctx x) :
    Turns ctx ⟨e, .descending⟩ (x.text ++ " DESC") (x.text ++ " ASC")

/-- An order after its keyword; one without text is no clause. -/
def orderClause (order : String) : String :=
  if order = "" then "" else " ORDER BY " ++ order

namespace Query

def limitClause (q : Query) : String :=
  match q.limit with
  | some l => " LIMIT " ++ l.sql
  | none => ""

/-- Why a query without sort terms is not reversed. The schema is asked for row ids and then for
columns, and its own refusals are passed on. -/
inductive RowIdRefused (schema : Schema) (q : Query) : Refusal → Prop
  | noSource (h : q.source? = none) : RowIdRefused schema q (.unsupportedReversal .noSource)
  | subquery (h : q.source? ≠ none) (hfirst : q.firstTable? = none) :
    RowIdRefused schema q (.unsupportedReversal .subquery)
  | lookup {table : String} {cause : Refusal} (h : q.firstTable? = some table)
    (hr : schema.hasRowId table = .error cause) : RowIdRefused schema q cause
  | noRowId {table : String} (h : q.firstTable? = some table)
    (hr : schema.hasRowId table = .ok false) :
    RowIdRefused schema q (.unsupportedReversal (.noRowId table))
  | columns {table : String} {cause : Refusal} (h : q.firstTable? = some table)
    (hr : schema.hasRowId table = .ok true) (hc : schema.columns table = .error cause) :
    RowIdRefused schema q cause
  | shadowed {table : String} {columns : List String} (h : q.firstTable? = some table)
    (hr : schema.hasRowId table = .ok true) (hc : schema.columns table = .ok columns)
    (hs : ∃ column ∈ columns, Text.sameName column "_rowid_" = true) :
    RowIdRefused schema q (.unsupportedReversal (.shadowedRowId table))

end Query

namespace Context

variable {ctx : Context} {scope : Nat} {first : Source} {links : List Link}

def rowIdOrder (ctx : Context) (id : SourceId) : Source → Outcome String
  | .table table _ => do
    let hasRowId ← Outcome.ofRefusable (ctx.schema.hasRowId table)
    if hasRowId then
      let columns ← Outcome.ofRefusable (ctx.schema.columns table)
      if (Text.position columns "_rowid_").isSome then
        .error (.refused (.unsupportedReversal (.shadowedRowId table)))
      else
        let name ← ctx.sourceName id
        pure (ctx.quote name ++ "._rowid_ DESC")
    else .error (.refused (.unsupportedReversal (.noRowId table)))
  | .query _ _ => .error (.refused (.unsupportedReversal .subquery))

theorem reversedRowId_chain (hsources : ctx.sources = chain scope first links)
    (hl : Linked scope links) : ctx.reversedRowId = ctx.rowIdOrder ⟨scope, 0⟩ first := by
  have hroot : ctx.sources.root = some ⟨scope, 2 * links.length⟩ := by
    rw [hsources]
    rfl
  have hleft : ctx.sources.leftmost ⟨scope, 2 * links.length⟩ = .ok ⟨scope, 0⟩ := by
    rw [hsources]
    exact leftmost_chain hl
  have hnode : ctx.sources.node ⟨scope, 0⟩ = .ok (.leaf first) := by
    rw [hsources]
    rfl
  rw [reversedRowId, hroot]
  show (ctx.sources.leftmost ⟨scope, 2 * links.length⟩ >>= fun id =>
    ctx.sources.node id >>= fun node => _) = _
  rw [hleft]
  show (ctx.sources.node ⟨scope, 0⟩ >>= fun node => _) = _
  rw [hnode]
  cases first <;> rfl

theorem reversedRowId_of_offers {table : String} {aliasName : Option String}
    (hsources : ctx.sources = chain scope (.table table aliasName) links)
    (hl : Linked scope links) (hoffers : ctx.schema.OffersRowId table) {name : String}
    (hname : ctx.sourceName ⟨scope, 0⟩ = .ok name) :
    ctx.reversedRowId = .ok (ctx.quote name ++ "._rowid_ DESC") := by
  obtain ⟨hr, columns, hc, hapart⟩ := hoffers
  have hshadow : ¬(Text.position columns "_rowid_").isSome = true := by
    rw [Text.isSome_position_iff]
    rintro ⟨column, hmem, hsame⟩
    rw [hapart column hmem] at hsame
    cases hsame
  rw [reversedRowId_chain hsources hl, rowIdOrder, hr, hc]
  show (if (Text.position columns "_rowid_").isSome then _ else ctx.sourceName ⟨scope, 0⟩ >>= _) = _
  rw [if_neg hshadow, hname]
  rfl

end Context

namespace Query

variable {schema : Schema} {ctx : Context} {q : Query}

theorem reversedRowId_of_not_offers (hq : q.Built) (hctx : Context.of schema q.sources = .ok ctx)
    (hnot : ¬∃ table, q.firstTable? = some table ∧ schema.OffersRowId table) :
    ∃ cause, q.RowIdRefused schema cause ∧ ctx.reversedRowId = .error (.refused cause) := by
  obtain ⟨rfl, hsources⟩ := Context.of_eq_ok hctx
  rcases hq.chained with ⟨scope, hchain⟩ | ⟨scope, first, links, hchain, hl⟩
  · refine ⟨_, .noSource (source?_empty hchain), ?_⟩
    rw [Context.reversedRowId, hsources, hchain]
    rfl
  have hreversed := Context.reversedRowId_chain (hsources.trans hchain) hl
  have hsource := source?_chain hchain hl
  cases first with
  | query r aliasName =>
    have hfirst : q.firstTable? = none := by
      rw [firstTable?, hsource, hchain]
      rfl
    exact ⟨_, .subquery (hsource ▸ Option.some_ne_none _) hfirst, hreversed⟩
  | table table aliasName =>
    have hfirst : q.firstTable? = some table := by
      rw [firstTable?, hsource, hchain]
      rfl
    rw [Context.rowIdOrder] at hreversed
    rcases hr : ctx.schema.hasRowId table with cause | _ | _
    · exact ⟨cause, .lookup hfirst hr, by rw [hreversed, hr]; rfl⟩
    · exact ⟨_, .noRowId hfirst hr, by rw [hreversed, hr]; rfl⟩
    rcases hc : ctx.schema.columns table with cause | columns
    · exact ⟨cause, .columns hfirst hr hc, by rw [hreversed, hr, hc]; rfl⟩
    by_cases hshadow : (Text.position columns "_rowid_").isSome = true
    · refine ⟨_, .shadowed hfirst hr hc ((Text.isSome_position_iff columns _).mp hshadow), ?_⟩
      rw [hreversed, hr, hc]
      show (if (Text.position columns "_rowid_").isSome then _ else _) = _
      rw [if_pos hshadow]
    · refine absurd ⟨table, hfirst, hr, columns, hc, fun column hmem => ?_⟩ hnot
      rw [← Bool.not_eq_true]
      exact fun hsame => hshadow ((Text.isSome_position_iff columns _).mpr ⟨column, hmem, hsame⟩)

theorem exists_firstName (hq : q.Built) (hctx : Context.of schema q.sources = .ok ctx)
    {table : String} (hfirst : q.firstTable? = some table) :
    ∃ (scope : Nat) (aliasName : Option String) (links : List Link) (name : String),
      q.sources = chain scope (.table table aliasName) links ∧ Linked scope links ∧
        q.source? = some ⟨scope, 0⟩ ∧ ctx.sourceName ⟨scope, 0⟩ = .ok name := by
  rcases hq.chained with ⟨scope, hchain⟩ | ⟨scope, first, links, hchain, hl⟩
  · rw [firstTable?, source?_empty hchain] at hfirst
    cases hfirst
  obtain ⟨aliasName, rfl⟩ := first_of_firstTable hchain hl hfirst
  rw [hchain] at hctx
  obtain ⟨name, hname⟩ := Context.exists_sourceName hl hctx (.inl rfl)
    (node_first scope _ links scope)
  exact ⟨scope, aliasName, links, name, hchain, hl, source?_chain hchain hl, hname⟩

end Query

def Clauses.headSql (c : Clauses) : String :=
  "SELECT " ++ (if c.distinct then "DISTINCT " else "") ++ commaSeparated c.items ++
    c.sourceSql ++ c.condition ++ c.groupSql ++ c.having

theorem Clauses.sql_ordered (c : Clauses) (order : String) :
    Clauses.sql { c with order := order } = c.headSql ++ orderClause order ++ c.limitSql :=
  rfl

theorem SortTerm.renderAll_eq (ctx : Context) (reversed : Bool) (terms : List SortTerm) :
    SortTerm.renderAll ctx reversed terms =
      (List.zipWith (fun text d => text ++ d.sql) · (terms.map (·.directionIn reversed))) <$>
        Expr.renderAll ctx (terms.map expression) := by
  induction terms with
  | nil => rfl
  | cons term terms ih =>
    obtain ⟨e, d⟩ := term
    rw [SortTerm.renderAll, SortTerm.render, ih]
    simp only [List.map_cons, Expr.renderAll, expression, directionIn, direction,
      map_eq_pure_bind, bind_assoc, pure_bind, List.zipWith_cons_cons]

theorem Expr.exists_fragments {ctx : Context} {es : List Expr} {ss : List String} {b b' : Bindings}
    (h : (Expr.renderAll ctx es).runFrom b = (.ok ss, b')) :
    ∃ xs : List Fragment, List.Forall₂ (Expr.LowersTo ctx) es xs ∧ ss = xs.map Fragment.text := by
  obtain ⟨vs, hvs⟩ := (Expr.renderAll_uniform ctx es).appends ⟨b, b', h⟩
  obtain ⟨xs, hxs, hss, -⟩ := lowers_all hvs
  exact ⟨xs, hxs, hss⟩

theorem commaSeparated_ne_empty {s : String} (hs : s ≠ "") (ss : List String) :
    commaSeparated (s :: ss) ≠ "" := by
  intro h
  cases ss with
  | nil =>
    rw [commaSeparated, String.intercalate_singleton] at h
    exact hs h
  | cons t ts =>
    rw [commaSeparated, String.intercalate_cons_cons, String.append_eq_empty_iff,
      String.append_eq_empty_iff] at h
    exact hs h.1.1

theorem SortTerm.turns_of_lowersTo {ctx : Context} {term : SortTerm} {x : Fragment}
    (h : term.expression.LowersTo ctx x) :
    term.Turns ctx (x.text ++ (term.directionIn false).sql)
      (x.text ++ (term.directionIn true).sql) := by
  obtain ⟨e, d⟩ := term
  cases d with
  | unstated =>
    have hplain : x.text ++ (directionIn false ⟨e, .unstated⟩).sql = x.text := String.append_empty
    rw [hplain]
    exact .unstated h
  | ascending => exact .ascending h
  | descending => exact .descending h

theorem SortTerm.exists_turns {ctx : Context} {terms : List SortTerm} {xs : List Fragment}
    (h : List.Forall₂ (fun term x => term.expression.LowersTo ctx x) terms xs) :
    ∃ written : List (String × String),
      List.Forall₂ (fun term p => term.Turns ctx p.1 p.2) terms written ∧
      written.map (·.1) = List.zipWith (fun text d => text ++ d.sql) (xs.map Fragment.text)
        (terms.map (·.directionIn false)) ∧
      written.map (·.2) = List.zipWith (fun text d => text ++ d.sql) (xs.map Fragment.text)
        (terms.map (·.directionIn true)) := by
  induction h with
  | nil => exact ⟨[], .nil, rfl, rfl⟩
  | @cons term x terms xs hx _ ih =>
    obtain ⟨written, hturns, hup, hturned⟩ := ih
    refine ⟨(x.text ++ (term.directionIn false).sql, x.text ++ (term.directionIn true).sql) ::
      written, .cons (SortTerm.turns_of_lowersTo hx) hturns, ?_, ?_⟩
    · simp [hup]
    · simp [hturned]

theorem SortTerm.Turns.turned_ne_empty {ctx : Context} {term : SortTerm} {s turned : String}
    (h : term.Turns ctx s turned) : turned ≠ "" := by
  cases h <;>
  · intro hempty
    exact absurd (String.append_eq_empty_iff.mp hempty).2 (by decide)

theorem SortTerm.turns_rightUnique (ctx : Context) :
    Relator.RightUnique fun (term : SortTerm) (p : String × String) => term.Turns ctx p.1 p.2 := by
  rintro term ⟨s, turned⟩ ⟨s', turned'⟩ h h'
  cases h <;> cases h' <;>
  · rename_i hx _ hy
    obtain rfl := hx.unique hy
    rfl

theorem commaSeparated_turned_ne_empty {ctx : Context} {terms : List SortTerm}
    {written : List (String × String)}
    (h : List.Forall₂ (fun term p => term.Turns ctx p.1 p.2) terms written) (hne : terms ≠ []) :
    commaSeparated (written.map (·.2)) ≠ "" := by
  cases h with
  | nil => exact absurd rfl hne
  | cons hturns _ => exact commaSeparated_ne_empty hturns.turned_ne_empty _

namespace Query

def renderOrder (ctx : Context) (q : Query) : Rendering String :=
  if q.reversed && q.ordering.isEmpty then ofOutcome ctx.reversedRowId
  else commaSeparated <$> SortTerm.renderAll ctx q.reversed q.ordering

/-- The order is rendered last and changes no other clause. -/
theorem clauses_of_unordered {schema : Schema} {q : Query} {ctx : Context}
    (hctx : Context.of schema q.sources = .ok ctx) :
    q.clauses schema = q.unordered.clauses schema >>= fun c =>
      q.renderOrder ctx >>= fun order => pure { c with order := order } := by
  rw [clauses_eq, clauses_eq]
  simp only [unordered, renderOrder, hctx]
  split
  · rfl
  · have hpure : ofOutcome (.ok ctx) = (pure ctx : Rendering Context) := rfl
    simp only [hpure, bind_assoc, Bool.false_and, Bool.false_eq_true, if_false,
      SortTerm.renderAll, map_pure, pure_bind]

theorem render_ordered {schema : Schema} {q : Query} {ctx : Context}
    (hctx : Context.of schema q.sources = .ok ctx) (reversed : Bool) :
    Query.render schema { q with reversed := reversed } = q.unordered.clauses schema >>= fun c =>
      (fun order => c.headSql ++ orderClause order ++ c.limitSql) <$>
        Query.renderOrder ctx { q with reversed := reversed } := by
  rw [render, clauses_of_unordered (q := { q with reversed := reversed }) hctx]
  simp only [map_eq_pure_bind, bind_assoc, pure_bind, Clauses.sql_ordered]
  rfl

theorem limitSql_of_ok {schema : Schema} {q : Query} {b b' : Bindings} {c : Clauses}
    (h : (q.clauses schema).runFrom b = (.ok c, b')) : c.limitSql = q.limitClause := by
  have hgives : (q.clauses schema).Gives fun c => c.limit = q.limit := by
    rw [clauses_eq]
    split
    · exact gives_throw _
    · refine gives_bind fun ctx => gives_bind fun bare => gives_bind fun items =>
        gives_bind fun source => gives_bind fun condition => gives_bind fun groups =>
          gives_bind fun having => gives_bind fun order => gives_pure rfl
  have hlimit : c.limit = q.limit := hgives b b' c h
  cases hl : q.limit <;> simp only [Clauses.limitSql, limitClause, hlimit, hl]

variable {schema : Schema} {q : Query} {ctx : Context} {b b' : Bindings}

theorem renderOrder_terms (hne : q.ordering ≠ []) {order : String}
    (h : (Query.renderOrder ctx { q with reversed := false }).runFrom b = (.ok order, b')) :
    ∃ written : List (String × String),
      List.Forall₂ (fun term p => term.Turns ctx p.1 p.2) q.ordering written ∧
      order = commaSeparated (written.map (·.1)) ∧
      (Query.renderOrder ctx { q with reversed := true }).runFrom b =
        (.ok (commaSeparated (written.map (·.2))), b') := by
  have hterms (reversed : Bool) : Query.renderOrder ctx { q with reversed := reversed } =
      (fun ss => commaSeparated (List.zipWith (fun text d => text ++ d.sql) ss
        (q.ordering.map (·.directionIn reversed)))) <$>
          Expr.renderAll ctx (q.ordering.map SortTerm.expression) := by
    have hempty : q.ordering.isEmpty = false := List.isEmpty_eq_false_iff.mpr hne
    simp only [renderOrder, hempty, Bool.and_false, Bool.false_eq_true, if_false,
      SortTerm.renderAll_eq, Functor.map_map]
  rw [hterms] at h ⊢
  obtain ⟨ss, hrun, rfl⟩ := runFrom_map_eq_ok.mp h
  obtain ⟨xs, hxs, rfl⟩ := Expr.exists_fragments hrun
  obtain ⟨written, hturns, hup, hturned⟩ :=
    SortTerm.exists_turns (List.forall₂_map_left_iff.mp hxs)
  exact ⟨written, hturns, by rw [hup], runFrom_map_eq_ok.mpr ⟨_, hrun, by rw [hturned]⟩⟩

theorem renderOrder_no_terms (hnil : q.ordering = []) (ctx : Context) :
    Query.renderOrder ctx { q with reversed := false } = pure "" ∧
      Query.renderOrder ctx { q with reversed := true } = ofOutcome ctx.reversedRowId := by
  constructor
  · simp only [renderOrder, hnil]
    rfl
  · simp only [renderOrder, hnil]
    rfl

/-- A reversed query with sort terms has the text and the arguments of the query with each term
turned round where it stands. Without them it is the query ordered by the row ids of its first
source, just before the limit, exactly if that is a table that offers them; else it is refused, by
the schema or as a reversal that is not supported. -/
theorem reversed_or_refused (hq : q.Built) {sql : String}
    (h : (Query.render schema { q with reversed := false }).runFrom b = (.ok sql, b')) :
    ∃ (ctx : Context) (head : String), Context.of schema q.sources = .ok ctx ∧
      (q.ordering ≠ [] → ∃ written : List (String × String),
        List.Forall₂ (fun term p => term.Turns ctx p.1 p.2) q.ordering written ∧
        sql = head ++ orderClause (commaSeparated (written.map (·.1))) ++ q.limitClause ∧
        (Query.render schema { q with reversed := true }).runFrom b =
          (.ok (head ++ (" ORDER BY " ++ commaSeparated (written.map (·.2))) ++ q.limitClause),
            b')) ∧
      (q.ordering = [] → sql = head ++ q.limitClause ∧
        (∀ table, q.firstTable? = some table → schema.OffersRowId table →
          ∃ id name, q.source? = some id ∧ ctx.sourceName id = .ok name ∧
            (Query.render schema { q with reversed := true }).runFrom b =
              (.ok (head ++ (" ORDER BY " ++ (schema.quote name ++ "._rowid_ DESC")) ++
                q.limitClause), b')) ∧
        ((¬∃ table, q.firstTable? = some table ∧ schema.OffersRowId table) →
          ∃ cause, q.RowIdRefused schema cause ∧
            ((Query.render schema { q with reversed := true }).runFrom b).1 =
              .error (.refused cause))) := by
  obtain ⟨ctx, hctx⟩ := hq.context schema
  rw [render_ordered hctx] at h
  obtain ⟨c, m, hc, hrest⟩ := runFrom_bind_eq_ok.mp h
  obtain ⟨order, horder, rfl⟩ := runFrom_map_eq_ok.mp hrest
  have hlimit : c.limitSql = q.limitClause := limitSql_of_ok (q := q.unordered) hc
  -- the reversed query, once its order is known
  have hrun {turned : String} (hturned :
      (Query.renderOrder ctx { q with reversed := true }).runFrom m = (.ok turned, b'))
      (hne : turned ≠ "") : (Query.render schema { q with reversed := true }).runFrom b =
        (.ok (c.headSql ++ (" ORDER BY " ++ turned) ++ q.limitClause), b') := by
    rw [render_ordered hctx, runFrom_bind_eq_ok]
    refine ⟨c, m, hc, runFrom_map_eq_ok.mpr ⟨turned, hturned, ?_⟩⟩
    rw [orderClause, if_neg hne, hlimit]
  refine ⟨ctx, c.headSql, hctx, fun hne => ?_, fun hnil => ?_⟩
  · obtain ⟨written, hturns, rfl, hturned⟩ := renderOrder_terms hne horder
    exact ⟨written, hturns, by rw [hlimit],
      hrun hturned (commaSeparated_turned_ne_empty hturns hne)⟩
  obtain ⟨hunordered, hrowId⟩ := renderOrder_no_terms hnil ctx
  rw [hunordered] at horder
  cases horder
  refine ⟨by rw [hlimit]; exact congrArg (· ++ _) String.append_empty, ?_, fun hnot => ?_⟩
  · intro table hfirst hoffers
    obtain ⟨scope, aliasName, links, name, hchain, hl, hid, hname⟩ :=
      exists_firstName hq hctx hfirst
    obtain ⟨rfl, hsources⟩ := Context.of_eq_ok hctx
    refine ⟨_, name, hid, hname, hrun ?_ ?_⟩
    · rw [hrowId, Context.reversedRowId_of_offers (hsources.trans hchain) hl hoffers hname]
      rfl
    · rw [Ne, String.append_eq_empty_iff]
      exact fun h => absurd h.2 (by decide)
  · obtain ⟨cause, hcause, hrefused⟩ := reversedRowId_of_not_offers hq hctx hnot
    refine ⟨cause, hcause, ?_⟩
    rw [render_ordered hctx, hrowId, hrefused, runFrom_bind, hc]
    rfl

def mentored : Query :=
  (((table 0 "persons").including (.hasOne "mentor" "persons" [("mentor_id", "id")])).filter
    (.binary .greater (.column (some (.source ⟨0, 1⟩)) "age") (.value (.integer 40)))).limitTo
      3 none

/-- The same by the age of the person, then by that of the mentor, and the latest first. -/
def mentoredByAge : Query :=
  mentored.order [⟨.column (some (.source ⟨0, 0⟩)) "age", .unstated⟩,
    ⟨.column (some (.source ⟨0, 1⟩)) "age", .ascending⟩,
    ⟨.column (some (.source ⟨0, 0⟩)) "joined", .descending⟩]

def mentoredSchema : Schema where
  columns := fun _ => .ok ["id", "mentor_id", "age", "joined"]
  hasRowId := fun _ => .ok true
  quote := Text.quoteIdentifier

def mentoredHead : String :=
  "SELECT \"persons0\".*, \"persons1\".* FROM \"persons\" \"persons0\" LEFT JOIN \"persons\" " ++
    "\"persons1\" ON \"persons1\".\"id\" = \"persons0\".\"mentor_id\" " ++
    "WHERE (\"persons1\".\"age\" > ?)"

theorem mentored_reversed : mentored.Built ∧
    (Query.render mentoredSchema { mentored with reversed := false }).runFrom .empty =
      (.ok (mentoredHead ++ " LIMIT 3"), ⟨[.integer 40]⟩) ∧
    (Query.render mentoredSchema { mentored with reversed := true }).runFrom .empty =
      (.ok (mentoredHead ++ (" ORDER BY " ++ ("\"persons0\"" ++ "._rowid_ DESC")) ++ " LIMIT 3"),
        ⟨[.integer 40]⟩) ∧
    mentoredByAge.Built ∧
    (Query.render mentoredSchema { mentoredByAge with reversed := false }).runFrom .empty =
      (.ok (mentoredHead ++ (" ORDER BY " ++
        "\"persons0\".\"age\", \"persons1\".\"age\" ASC, \"persons0\".\"joined\" DESC") ++
          " LIMIT 3"), ⟨[.integer 40]⟩) ∧
    (Query.render mentoredSchema { mentoredByAge with reversed := true }).runFrom .empty =
      (.ok (mentoredHead ++ (" ORDER BY " ++
        "\"persons0\".\"age\" DESC, \"persons1\".\"age\" DESC, \"persons0\".\"joined\" ASC") ++
          " LIMIT 3"), ⟨[.integer 40]⟩) := by
  have hsteps (terms : List SortTerm) : (mentored.order terms).Built :=
    ⟨table 0 "persons", [.including (.hasOne "mentor" "persons" [("mentor_id", "id")]),
      .filter (.binary .greater (.column (some (.source ⟨0, 1⟩)) "age") (.value (.integer 40))),
      .limit 3 none, .order terms], .table 0 "persons", rfl⟩
  have hbuilt : mentored.Built := hsteps []
  have hrun : (Query.render mentoredSchema { mentored with reversed := false }).runFrom .empty =
      (.ok (mentoredHead ++ " LIMIT 3"), ⟨[.integer 40]⟩) := rfl
  have hoffers : mentoredSchema.OffersRowId "persons" :=
    ⟨rfl, ["id", "mentor_id", "age", "joined"], rfl, by decide⟩
  obtain ⟨ctx, head, hctx, -, hrowIds⟩ := reversed_or_refused hbuilt hrun
  obtain ⟨hhead, hordered, -⟩ := hrowIds rfl
  obtain ⟨id, name, hid, hname, hreversed⟩ := hordered "persons" rfl hoffers
  cases hid
  obtain ⟨names, hnames, rfl⟩ := Outcome.map_eq_ok.mp hctx
  cases hnames
  cases hname
  have hbyAge : (Query.render mentoredSchema { mentoredByAge with reversed := false }).runFrom
      .empty = (.ok (mentoredHead ++ (" ORDER BY " ++
        "\"persons0\".\"age\", \"persons1\".\"age\" ASC, \"persons0\".\"joined\" DESC") ++
          " LIMIT 3"), ⟨[.integer 40]⟩) := rfl
  obtain ⟨ctx', head', hctx', hterms, -⟩ := reversed_or_refused (hsteps _) hbyAge
  obtain ⟨written, hturns, hwritten, hturned⟩ := hterms nofun
  obtain ⟨names, hnames, rfl⟩ := Outcome.map_eq_ok.mp hctx'
  cases hnames
  -- the texts of the terms, and those of the terms turned round
  cases List.right_unique_forall₂' (SortTerm.turns_rightUnique _) hturns
    (.cons (b := (_, _)) (.unstated (Expr.column_lowersTo rfl))
      (.cons (b := (_, _)) (.ascending (Expr.column_lowersTo rfl))
        (.cons (b := (_, _)) (.descending (Expr.column_lowersTo rfl)) .nil)))
  refine ⟨hbuilt, hrun, hreversed.trans ?_, hsteps _, hbyAge, hturned.trans ?_⟩
  · rw [← (String.append_left_inj _).mp hhead]
    rfl
  · have hhead' : head' = mentoredHead :=
      (String.append_left_inj _).mp ((String.append_left_inj _).mp hwritten.symm)
    rw [hhead']
    rfl

end Query

end RelQuery
