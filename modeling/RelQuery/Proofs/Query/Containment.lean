import RelQuery.Proofs.Query.ArgumentOrder
import RelQuery.Proofs.Query.ValueIndependence
import RelQuery.Proofs.Text.Identifiers
import RelQuery.Proofs.Text.Words

/-!
# Names inside their quotes

Names of tables, columns, sources and qualifiers are any strings. Quoted, they open nothing and
close nothing outside of their quotes, and neither does any text that they are written in: every
text of a query can stand inside another one without changing where that one ends.
-/

set_option autoImplicit false

namespace RelQuery

def BalancedText (s : String) (_ : List Value) (s' : String) : Prop :=
  s' = s ∧ Text.Balanced s.toList

variable {schema : Schema}

theorem balancedText_relation :
    TextRelation Text.quoteIdentifier (fun s => Text.Flat s.toList) BalancedText where
  plain := fun hs => ⟨rfl, .flat fun c hc => (hs.1 c hc).2⟩
  raw := fun hs => ⟨rfl, .flat hs⟩
  quoted := fun name => ⟨rfl, .identifier name⟩
  append := by
    rintro s _ t _ _ _ ⟨rfl, hs⟩ ⟨rfl, ht⟩
    exact ⟨rfl, Text.balanced_append hs ht⟩
  group := by
    rintro s _ _ ⟨rfl, hs⟩
    exact ⟨rfl, Text.balanced_group hs⟩
  collate := by
    rintro s _ c _ hc ⟨rfl, hs⟩
    exact ⟨rfl, hs.collate hc⟩
  empty_iff := by
    rintro s _ _ ⟨rfl, -⟩
    exact Iff.rfl

theorem Recast.erase_balanced (hq : schema.quote = Text.quoteIdentifier) :
    (Recast.revalue Value.erased id).Faithful schema (fun s => Text.Flat s.toList) BalancedText
      (fun _ => [.integer 0]) where
  text := hq ▸ balancedText_relation
  scope := Function.injective_id
  null := rfl
  kept := (@Recast.erase_faithful schema id Function.injective_id).kept
  leaf := by
    intro v hv
    obtain ⟨s, rfl, hr⟩ := (@Recast.erase_faithful schema id Function.injective_id).leaf v hv
    exact ⟨"?", ⟨rfl, by decide⟩, hr⟩

theorem Rendering.Gives.of_writes {vs : List Value} {r r' : Rendering String}
    (h : Writes BalancedText (fun _ => [.integer 0]) vs r r') : r.Gives Text.SelfContained := by
  intro b b' sql hrun
  rcases h with ⟨left, -, related⟩ | ⟨-, left, -⟩
  · rw [left b] at hrun
    cases hrun
    exact related.2.selfContained
  · rw [left b] at hrun
    cases hrun

/-- Every text written in a context is self-contained: that of an expression, of an item, of a sort
term, of a source and of a star. -/
structure Context.Contains (ctx : Context) : Prop where
  expression : ∀ (e : Expr) (p : Polarity), (∀ s ∈ e.rawParts, Text.Flat s.toList) →
    (e.render ctx p).Gives Text.SelfContained
  item : ∀ item : Item, (∀ s ∈ item.rawParts, Text.Flat s.toList) →
    (item.render ctx).Gives Text.SelfContained
  order : ∀ (term : SortTerm) (reversed : Bool), (∀ s ∈ term.rawParts, Text.Flat s.toList) →
    (term.render ctx reversed).Gives Text.SelfContained
  source : (∀ s ∈ Source.rawPartsNodes ctx.sources.nodes, Text.Flat s.toList) → ∀ x : SourceId,
    (ctx.fromSql (ctx.sources.sqls ctx.schema) x).Gives Text.SelfContained
  star : ∀ (x : SourceId) (sql : String), ctx.starSql x = .ok sql → Text.SelfContained sql

theorem Context.contains_of_quote {ctx : Context}
    (hq : ctx.schema.quote = Text.quoteIdentifier) : ctx.Contains where
  expression := fun e p he =>
    .of_writes (e.render_writes (Recast.erase_balanced hq) rfl ctx.alike_self he p)
  item := fun item he =>
    .of_writes (item.render_writes (Recast.erase_balanced hq) rfl ctx.alike_self he)
  order := fun term reversed he =>
    .of_writes
      (term.render_writes (Recast.erase_balanced hq) rfl ctx.alike_self reversed he)
  source := by
    intro he x
    have hleaves := Source.leaves_select (Recast.erase_balanced hq) ctx.sources.nodes he
    exact .of_writes (fromWithin_writes (hq ▸ balancedText_relation) Function.injective_id
      ctx rfl hleaves _ x)
  star := fun _ _ hx => (starWithin_text (hq ▸ balancedText_relation) hx).2.selfContained

namespace Query

theorem render_contained (hq : schema.quote = Text.quoteIdentifier) {q : Query}
    (he : ∀ s ∈ q.rawParts, Text.Flat s.toList) : (q.render schema).Gives Text.SelfContained :=
  .of_writes (q.render_writes (Recast.erase_balanced hq) he)

/-- Whatever the names are, the text of a query, of its count queries and of every part of a
SELECT alone ends outside of identifiers with every parenthesis closed, and can be put into any
other text. -/
theorem names_contained (hq : schema.quote = Text.quoteIdentifier) :
    (∀ q : Query, (∀ s ∈ q.rawParts, Text.Flat s.toList) →
      (q.render schema).Gives Text.SelfContained ∧
        ∀ scope : Nat, ((q.countQueryIn scope).render schema).Gives Text.SelfContained) ∧
    ∀ ctx : Context, ctx.schema = schema → ctx.Contains := by
  refine ⟨fun q he => ⟨render_contained hq he, fun scope => ?_⟩, fun ctx hs => ?_⟩
  · exact render_contained hq fun s hs => he s (rawParts_countQueryIn hs)
  · exact Context.contains_of_quote (hs ▸ hq)

/-- A table, an alias and a column whose names try to close what they stand in, in a subquery with
a collation. -/
def hostile : Query :=
  ((table 0 "t\") --").aliased "a\"\"(").filter
    (.inQuery (.column (some (.source ⟨0, 0⟩)) ")\"")
      ((table 1 "\"").select [.expr (.collate (.function "max" [.column none "("]) "NOCASE")
        (some "\")\"")]))

def quotingSchema : Schema where
  columns := fun _ => .ok []
  hasRowId := fun _ => .ok true
  quote := Text.quoteIdentifier

def hostileSql : String :=
  "SELECT * FROM \"t\"\") --\" \"a\"\"\"\"(\" WHERE (\"a\"\"\"\"(\".\")\"\"\" IN (SELECT " ++
    "MAX(\"(\" COLLATE NOCASE) AS \"\"\")\"\"\" FROM \"\"\"\"))"

theorem hostile_contained : quotingSchema.quote = Text.quoteIdentifier ∧
    (∀ s ∈ hostile.rawParts, Text.Flat s.toList) ∧
    (hostile.render quotingSchema).runFrom .empty = (.ok hostileSql, .empty) ∧
    Text.SelfContained hostileSql := by
  have hraw : ∀ s ∈ hostile.rawParts, Text.Flat s.toList := by decide
  have hrun : (hostile.render quotingSchema).runFrom .empty = (.ok hostileSql, .empty) := rfl
  have hgives := ((@names_contained quotingSchema rfl).1 hostile hraw).1
  exact ⟨rfl, hraw, hrun, hgives _ _ _ hrun⟩

end Query

end RelQuery
