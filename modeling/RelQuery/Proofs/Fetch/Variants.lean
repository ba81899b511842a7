import RelQuery.Proofs.Fetch.Sequences
import RelQuery.Proofs.Query.Blocks
import RelQuery.Proofs.Query.Included

/-!
# Variants of fetched rows

Attaching an association, laying out the columns of a query, resolving its shape and reading a row
agree: a variant lists the columns that were selected for the join that it is named after.
-/

set_option autoImplicit false

namespace RelQuery.Query

/-- A row lists the block of a result that the star of a join's target has selected. -/
def Exposes (schema : Schema) (q : Query) (entries : List (String × Value)) (j : Join)
    (variant : Row) : Prop :=
  ∃ (blocks : List (List (String × Value))) (block : List (String × Value)),
    q.selection[j.selectionIndex]? = some (.star j.target) ∧ q.Blocks schema entries blocks ∧
      blocks[j.selectionIndex]? = some block ∧ variant.entries = .ok block

theorem star_of_stillSelects {q : Query} {j : Join} (h : q.stillSelects j = true) :
    q.selection[j.selectionIndex]? = some (.star j.target) := by
  rw [stillSelects] at h
  split at h
  · rename_i id hid
    rw [hid, beq_iff_eq.mp h]
  · cases h

section Spans

variable {schema : Schema} {q : Query} {n : Nat} {offsets : List Nat} {columns : List String}

theorem exposes_of_spans (hwidth : q.width schema = .ok n)
    (hoffsets : offsetsFrom (q.sources.widths schema) q.selection 0 = .ok offsets)
    (hcolumns : columns.length = n) {values : List Value} (hvalues : values.length = n)
    {base : Row} (hbase : Row.Base columns values base) {j : Join}
    (hstill : q.stillSelects j = true) {view : View}
    (hview : Spans (q.sources.widths schema) offsets columns j view) :
    q.Exposes schema (columns.zip values) j (.adapted base view) := by
  obtain ⟨start, width, hstart, hw, hlayout⟩ := hview
  have hstar := star_of_stillSelects hstill
  have hlen : (columns.zip values).length = n := by simp [hcolumns, hvalues]
  obtain ⟨blocks, hblocks, hblock⟩ := blocks_of_offsets hwidth hoffsets hstar hstart hw hlen
  have hentries := Row.entries_of_span (hvalues.trans hcolumns.symm) hbase hlayout
  rw [Nat.add_sub_cancel_left] at hentries
  exact ⟨blocks, _, hstar, hblocks, hblock, hentries⟩

/-- The shape of a query fits any row with as many columns. -/
theorem resolve_shape (hwidth : q.width schema = .ok n)
    (hoffsets : offsetsFrom (q.sources.widths schema) q.selection 0 = .ok offsets)
    (hcolumns : columns.length = n) {depth : Nat} {origin : SourceId}
    {shapes : List (String × Shape)}
    (hshapes : variantsOf q (q.sources.widths schema) offsets depth origin = .ok shapes) :
    ∃ view : View, (Shape.nested .identity shapes).resolve columns = .ok view ∧
      Shape.resolveVariants columns shapes [] = .ok view.variants := by
  obtain ⟨views, hviews⟩ : ∃ views, Shape.resolveVariants columns shapes [] = .ok views := by
    apply resolve_variantsOf _ hshapes
    intro j start width hstill hstart hw
    rw [hcolumns]
    exact offset_add_width_le hwidth hoffsets (star_of_stillSelects hstill) hstart hw
  have hlayout := Row.spanLayout_eq_ok.mpr ⟨⟨Nat.zero_le _, Nat.le_refl columns.length⟩, rfl⟩
  exact ⟨⟨_, views⟩, Shape.resolve_nested_identity.mpr ⟨hlayout, hviews⟩, hviews⟩

end Spans

theorem shape?_cases {schema : Schema} {q : Query} {shape : Option Shape}
    (h : q.shape? schema = .ok shape) :
    (shape = none ∧ (q.source? = none ∨ q.sources.joins = [])) ∨
      ∃ origin offsets shapes, q.source? = some origin ∧
        offsetsFrom (q.sources.widths schema) q.selection 0 = .ok offsets ∧
        variantsOf q (q.sources.widths schema) offsets q.sources.depth origin = .ok shapes ∧
        shape = some (.nested .identity shapes) := by
  rw [shape?] at h
  cases hsource : q.source? with
  | none =>
    rw [hsource] at h
    cases h
    exact .inl ⟨rfl, .inl rfl⟩
  | some origin =>
    rw [hsource] at h
    by_cases hjoins : q.sources.hasJoins = true
    · simp only [hjoins, if_true] at h
      obtain ⟨offsets, hoffsets, h⟩ := Outcome.bind_eq_ok.mp h
      obtain ⟨shapes, hshapes, h⟩ := Outcome.bind_eq_ok.mp h
      cases h
      exact .inr ⟨origin, offsets, shapes, rfl, hoffsets, hshapes, rfl⟩
    · simp only [hjoins] at h
      cases h
      have hnone : q.sources.joins = [] := by
        simpa [Arena.hasJoins] using hjoins
      exact .inl ⟨rfl, .inr hnone⟩

/-- Every variant of a fetched row, whether a pass steps to it or it is among those that are fetched
at once, lists the block of the star at the end of a chain of joins with the names of its path.
Where no selection is replaced after an association is included, and siblings have different names,
every included association has such a variant. -/
theorem variants_expose_blocks {scope : Nat} {source : Source} {calls : List Call} {q : Query}
    (hq : q = (ofSource scope source).afterAll calls) {s : Session} {compiled : Compiled}
    {shape : Option Shape} {n : Nat} {st : Statement}
    (hcompile : (Request.query q).compile s.engine.schema = .ok compiled)
    (hshape : q.shape? s.engine.schema = .ok shape) (hwidth : q.width s.engine.schema = .ok n)
    (hprepare : s.engine.prepare compiled.sql = .ok st) (hcolumns : st.columns.length = n)
    (hrows : ∀ cursor, s.engine.run st compiled.arguments = .ok cursor →
      ∀ values ∈ cursor.rows, values.length = n) :
    (∀ adapter, shape = some adapter → ∃ view, adapter.resolve st.columns = .ok view) ∧
    ∃ seq t, (fetch (.query q)).runIn s = (.ok seq, t) ∧ seq.statement = st ∧
      (∀ rows u, (fetchAll (.query q)).runIn s = (.ok rows, u) →
        ∀ row ∈ rows, ∃ values, seq.Shows s.engine values row) ∧
      (∀ row u, (fetchOne (.query q)).runIn s = (.ok (some row), u) →
        ∃ values, seq.Shows s.engine values row) ∧
      ∀ (values : List Value) (row : Row), seq.Shows s.engine values row →
        (∀ (path : List String) (variant : Row), path ≠ [] →
          row.variantAt? path = some variant →
            ∃ origin j, q.source? = some origin ∧ Join.Leads q.sources.joins origin path j ∧
              q.Exposes s.engine.schema (st.columns.zip values) j variant) ∧
        (SelectsFirst calls → Association.AllApart (included calls) →
          ∀ (path : List String) (a : Association), Association.At (included calls) path a →
            ∃ origin j variant, q.source? = some origin ∧
              Join.Leads q.sources.joins origin path j ∧ q.Attaches a j ∧
                row.variantAt? path = some variant ∧
                  q.Exposes s.engine.schema (st.columns.zip values) j variant) := by
  have hcarries : SelectsFirst calls → q.Carries (included calls) := by
    intro hfirst
    rw [hq]
    exact carries_afterAll (carries_ofSource scope source) hfirst
  rcases shape?_cases hshape with
    ⟨rfl, hnone⟩ | ⟨origin, offsets, shapes, ho, hoffsets, hshapes, rfl⟩
  · have hfetch := fetch_plain hcompile hprepare hshape
    refine ⟨?_, _, _, hfetch, rfl, fun _ _ h _ hrow => fetchAll_shows hfetch h hrow,
      fun _ _ h => fetchOne_shows hfetch h, ?_⟩
    · intro adapter hadapter
      cases hadapter
    intro values row hrow
    obtain ⟨base, hbase, rfl⟩ := hrow.row_eq
    constructor
    · intro path variant hp hvariant
      cases path with
      | nil => exact absurd rfl hp
      | cons name path => cases hbase <;> cases hvariant
    · intro hfirst hapart path a ha
      obtain ⟨origin, ho⟩ := (hcarries hfirst).source?
      obtain ⟨j, hj, -⟩ := (hcarries hfirst).leads ho ha
      rcases hnone with hnone | hnone
      · rw [hnone] at ho
        cases ho
      · have hmem := hj.mem
        rw [hnone] at hmem
        cases hmem
  · obtain ⟨view, hview, hviews⟩ := resolve_shape hwidth hoffsets hcolumns hshapes
    have hfetch := fetch_shaped hcompile hprepare hshape hview
    refine ⟨?_, _, _, hfetch, rfl, fun _ _ h _ hrow => fetchAll_shows hfetch h hrow,
      fun _ _ h => fetchOne_shows hfetch h, ?_⟩
    · intro adapter hadapter
      cases hadapter
      exact ⟨view, hview⟩
    intro values row hrow
    obtain ⟨base, hbase, rfl⟩ := hrow.row_eq
    have hvalues : values.length = n := by
      obtain ⟨cursor, hrun, hmem⟩ := hrow.mem
      exact hrows cursor hrun values hmem
    constructor
    · intro path variant hp hvariant
      have hat : (view.at? path).map (Row.adapted base ·) = some variant := by
        rw [← Row.variantAt?_adapted]
        exact hvariant
      obtain ⟨w, hw, rfl⟩ := Option.map_eq_some_iff.mp hat
      obtain ⟨j, hleads, hstill, hspans⟩ := leads_of_at? hp hshapes hviews hw
      exact ⟨origin, j, ho, hleads,
        exposes_of_spans hwidth hoffsets hcolumns hvalues hbase hstill hspans⟩
    · intro hfirst hapart path a ha
      have hc := hcarries hfirst
      obtain ⟨j, hleads, hattaches⟩ := hc.leads ho ha
      have hstill := hc.stillSelects hleads.mem
      obtain ⟨w, hw, hspans⟩ := at?_of_leads (fun k hk => hc.stillSelects hk)
        (hc.joinsApart hapart) hleads hshapes hviews
      have hat := Row.variantAt?_adapted base view path
      rw [hw] at hat
      exact ⟨origin, j, .adapted base w, ho, hleads, hattaches, hat,
        exposes_of_spans hwidth hoffsets hcolumns hvalues hbase hstill hspans⟩

def withAuthors : List Call :=
  [.including ((Association.belongsTo "author" "authors" [("author_id", "id")]).including
    (.hasOne "agent" "agents" [("id", "author_id")]))]

def booksWithAuthors : Query :=
  (table 0 "books").afterAll withAuthors

def bookStatement : Statement where
  sql := "SELECT \"books\".*, \"author\".*, \"agents\".* FROM \"books\" LEFT JOIN \"authors\" " ++
    "\"author\" ON \"author\".\"id\" = \"books\".\"author_id\" LEFT JOIN \"agents\" ON " ++
    "\"agents\".\"author_id\" = \"author\".\"id\""
  columns := ["id", "author_id", "id", "id", "author_id"]
  handle := 0

/-- Two columns in each table but that of the authors. The first book has an author with an agent,
and the second has no author. -/
def bookEngine : Engine where
  name := "books"
  schema := ⟨fun table => .ok (if table = "authors" then ["id"] else ["id", "author_id"]),
    fun _ => .ok true, Text.quoteIdentifier⟩
  prepare := fun sql => .ok { bookStatement with sql := sql }
  run := fun _ _ => .ok ⟨[[.integer 7, .integer 3, .integer 3, .integer 9, .integer 3],
    [.integer 8, .null, .null, .null, .null]], none, 0⟩

/-- The view of a row of a book: the author is its third column, and the agent the last two. -/
def bookView : View where
  layout := ⟨[(0, "id"), (1, "author_id"), (2, "id"), (3, "id"), (4, "author_id")]⟩
  variants := [("author", ⟨⟨[(2, "id")]⟩, [("agent", ⟨⟨[(3, "id"), (4, "author_id")]⟩, []⟩)]⟩)]

def bookSequence : RowSequence :=
  ⟨bookStatement, [], some bookView⟩

def bookRow (values : List Value) : Row :=
  .adapted (.live values bookStatement.columns) bookView

/-- The row that is fetched at once is the first one, and a missing agent is exposed too. -/
theorem booksWithAuthors_exposed :
    (fetch (.query booksWithAuthors)).runIn ⟨bookEngine, []⟩ =
      (.ok bookSequence, ⟨bookEngine, [.prepare bookStatement.sql]⟩) ∧
    (fetchOne (.query booksWithAuthors)).runIn ⟨bookEngine, []⟩ =
      (.ok (some (bookRow
        [.integer 7, .integer 3, .integer 3, .integer 9, .integer 3]).copy),
          ⟨bookEngine, [.prepare bookStatement.sql, .run []]⟩) ∧
    (∃ (j : Join) (variant : Row),
      (bookRow [.integer 7, .integer 3, .integer 3, .integer 9, .integer 3]).copy.variantAt?
        ["author", "agent"] = some variant ∧
      booksWithAuthors.Exposes bookEngine.schema
        [("id", .integer 7), ("author_id", .integer 3), ("id", .integer 3), ("id", .integer 9),
          ("author_id", .integer 3)] j variant ∧
      variant.entries = .ok [("id", .integer 9), ("author_id", .integer 3)]) ∧
    ∃ (j : Join) (variant : Row),
      bookSequence.Shows bookEngine [.integer 8, .null, .null, .null, .null]
        (bookRow [.integer 8, .null, .null, .null, .null]) ∧
      (bookRow [.integer 8, .null, .null, .null, .null]).variantAt?
        ["author", "agent"] = some variant ∧
      booksWithAuthors.Exposes bookEngine.schema
        [("id", .integer 8), ("author_id", .null), ("id", .null), ("id", .null),
          ("author_id", .null)] j variant ∧
      variant.entries = .ok [("id", .null), ("author_id", .null)] := by
  have hrows : ∀ cursor, bookEngine.run bookStatement [] = .ok cursor →
      ∀ values ∈ cursor.rows, values.length = 5 := by
    intro cursor hrun values hv
    cases hrun
    rcases List.mem_pair.mp hv with rfl | rfl <;> rfl
  have hfetch : (fetch (.query booksWithAuthors)).runIn ⟨bookEngine, []⟩ =
      (.ok bookSequence, ⟨bookEngine, [.prepare bookStatement.sql]⟩) :=
    @fetch_shaped (.query booksWithAuthors) ⟨bookEngine, []⟩ ⟨bookStatement.sql, []⟩ bookStatement _
      bookView rfl rfl rfl rfl
  obtain ⟨-, seq, t, hseq, -, -, -, hshown⟩ := @variants_expose_blocks 0 (.table "books" none)
    withAuthors booksWithAuthors rfl ⟨bookEngine, []⟩ ⟨bookStatement.sql, []⟩ _ 5 bookStatement
    rfl rfl rfl rfl rfl hrows
  obtain ⟨rfl, -⟩ : bookSequence = seq ∧ _ := by
    simpa using hfetch.symm.trans hseq
  have hagent : Association.At (included withAuthors) ["author", "agent"]
      (.hasOne "agent" "agents" [("id", "author_id")]) :=
    .inside List.mem_cons_self (.here List.mem_cons_self)
  have hapart : Association.AllApart (included withAuthors) := by
    simp [included, withAuthors, includedAfter, Association.AllApart, Association.Apart,
      Association.including, Association.belongsTo, Association.hasOne]
  have hexposed {values : List Value} {row : Row}
      (hrow : bookSequence.Shows bookEngine values row) :=
    (hshown values row hrow).2 (List.pairwise_singleton _ _) hapart _ _ hagent
  have hfirst : bookSequence.Shows bookEngine
      [.integer 7, .integer 3, .integer 3, .integer 9, .integer 3]
      (bookRow [.integer 7, .integer 3, .integer 3, .integer 9, .integer 3]) :=
    @RowSequence.Shows.step _ _ _ [] _ _ _ 0 rfl rfl rfl
  have hsecond : bookSequence.Shows bookEngine [.integer 8, .null, .null, .null, .null]
      (bookRow [.integer 8, .null, .null, .null, .null]) :=
    @RowSequence.Shows.step _ _ _ [] _ _ _ 1 rfl rfl rfl
  obtain ⟨-, j, variant, -, -, -, hvariant, hexposes⟩ := hexposed hfirst.copy
  obtain ⟨-, j', variant', -, -, -, hvariant', hexposes'⟩ := hexposed hsecond
  have hread : variant.entries = .ok [("id", .integer 9), ("author_id", .integer 3)] := by
    cases hvariant
    rfl
  have hread' : variant'.entries = .ok [("id", .null), ("author_id", .null)] := by
    cases hvariant'
    rfl
  refine ⟨hfetch, ?_, ⟨j, variant, hvariant, hexposes, hread⟩,
    j', variant', hsecond, hvariant', hexposes', hread'⟩
  rw [fetchOne, Fetch.runIn_bind, hfetch]
  rfl

end RelQuery.Query
