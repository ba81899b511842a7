import RelQuery.Proofs.Query.RecastWidth
import RelQuery.Proofs.Query.Steps
import RelQuery.Query.Request

/-!
# Ids of other queries

Only the name of a source is looked up by the whole of its id. A star and a width are looked up by
the index alone, so that the id of another query can stand there for a source of this one, or for
none. Columns of another query's id are always refused, and so is the star of one whose index is
that of a leaf.
-/

set_option autoImplicit false

namespace RelQuery

namespace Context

variable {ctx : Context} {x : SourceId}

def ownId (ctx : Context) (x : SourceId) : SourceId :=
  ⟨ctx.sources.scope, x.index⟩

theorem sourceName_foreign (hx : x.scope ≠ ctx.sources.scope) :
    ctx.sourceName x = .error (.refused (.mismatch .foreignSource)) := by
  have hcontains : ctx.sources.contains x = false := by simp [Arena.contains, hx]
  rw [sourceName, hcontains]
  rfl

theorem starSql_foreign_leaf (hx : x.scope ≠ ctx.sources.scope) {source : Source}
    (hnode : ctx.sources.node x = .ok (.leaf source)) :
    ctx.starSql x = .error (.refused (.mismatch .foreignSource)) := by
  rw [starSql, Arena.depth, starWithin, hnode]
  show (ctx.sourceName x >>= fun name => _) = _
  rw [sourceName_foreign hx]
  rfl

theorem starSql_join {j : Join} (hnode : ctx.sources.node x = .ok (.join j)) :
    ctx.starSql x = ctx.starSql (ctx.ownId x) := by
  have hown : ctx.sources.node (ctx.ownId x) = .ok (.join j) := hnode
  rw [starSql, starSql, Arena.depth, starWithin, starWithin, hnode, hown]
  rfl

theorem starSql_pastEnd (hx : ctx.sources.nodes.length ≤ x.index) :
    ctx.starSql x = .error .outOfBounds := by
  have hnode : ctx.sources.node x = .error .outOfBounds := by
    rw [Arena.node, Outcome.element, List.getElem?_eq_none hx]
  rw [starSql, Arena.depth, starWithin, hnode]
  rfl

end Context

theorem Arena.width_congr (a : Arena (Outcome Nat)) {x y : SourceId} (hxy : x.index = y.index) :
    a.width x = a.width y := by
  have hnode : a.node x = a.node y := by rw [node, node, hxy]
  rw [width, width, depth, widthWithin, widthWithin, hnode]

theorem Arena.width_pastEnd {a : Arena (Outcome Nat)} {x : SourceId}
    (hx : a.nodes.length ≤ x.index) : a.width x = .error .outOfBounds := by
  have hnode : a.node x = .error .outOfBounds := by
    rw [node, Outcome.element, List.getElem?_eq_none hx]
  rw [width, depth, widthWithin, hnode]
  rfl

theorem Arena.length_widths (schema : Schema) (a : Arena Source) :
    (a.widths schema).nodes.length = a.nodes.length := by
  rw [widths_eq, recast, List.length_map]

section Widths

variable {sources : Arena (Outcome Nat)} {before after : List Item} {item : Item} {f : Failure}

theorem Item.totalWidth_of_failing (hbefore : ∀ i ∈ before, ∃ n, i.width sources = .ok n)
    (hf : item.width sources = .error f) (n : Nat) :
    Item.totalWidth sources (before ++ item :: after) n = .error f := by
  induction before generalizing n with
  | nil =>
    rw [List.nil_append, totalWidth, hf]
    rfl
  | cons i before ih =>
    obtain ⟨width, hwidth⟩ := hbefore i List.mem_cons_self
    rw [List.cons_append, totalWidth, hwidth]
    exact ih (fun k hk => hbefore k (List.mem_cons_of_mem i hk)) (n + width)

theorem Query.offsetsFrom_of_failing (hbefore : ∀ i ∈ before, ∃ n, i.width sources = .ok n)
    (hf : item.width sources = .error f) (start : Nat) :
    Query.offsetsFrom sources (before ++ item :: after) start = .error f := by
  induction before generalizing start with
  | nil =>
    rw [List.nil_append, offsetsFrom, hf]
    rfl
  | cons i before ih =>
    obtain ⟨width, hwidth⟩ := hbefore i List.mem_cons_self
    have hrest := ih (fun k hk => hbefore k (List.mem_cons_of_mem i hk)) (start + width)
    rw [List.cons_append, offsetsFrom, hwidth]
    show (offsetsFrom sources (before ++ item :: after) (start + width) >>= fun rest => _) = _
    rw [hrest]
    rfl

end Widths

namespace Query

variable {schema : Schema} {q : Query} {ctx : Context} {m : Mention} {f : Failure}

/-- Rendering gets to a mention: no step before it fails. -/
def Reaches (schema : Schema) (q : Query) (ctx : Context) (m : Mention) : Prop :=
  ∃ before after : List Step, q.steps schema = before ++ .mention ctx m :: after ∧
    ∀ step ∈ before, step.outcome = .ok ()

theorem failsWith_of_reaches (h : q.Reaches schema ctx m) (hf : m.lookup ctx = .error f) :
    q.FailsWith schema f := by
  obtain ⟨before, after, hsteps, hbefore⟩ := h
  have hstep : (Step.mention ctx m).outcome = .error f := by
    rw [Step.outcome, hf]
    rfl
  rw [failsWith_iff, hsteps]
  exact Step.run_of_failing hbefore hstep

theorem renderAll_congr_star (ctx : Context) {x y : SourceId} (hxy : ctx.starSql x = ctx.starSql y)
    (before after : List Item) :
    Item.renderAll ctx (before ++ .star x :: after) =
      Item.renderAll ctx (before ++ .star y :: after) := by
  have hitem : Item.render ctx (.star x) = Item.render ctx (.star y) := by
    rw [Item.render, Item.render, hxy]
  induction before with
  | nil => rw [List.nil_append, List.nil_append, Item.renderAll, Item.renderAll, hitem]
  | cons i before ih => rw [List.cons_append, List.cons_append, Item.renderAll, Item.renderAll, ih]

theorem selectsBareStar_join {a : Arena Source} {x : SourceId} {j : Join}
    (hnode : a.node x = .ok (.join j)) (before after : List Item) :
    selectsBareStar (before ++ .star x :: after) a = .ok false := by
  rw [selectsBareStar]
  rcases a.root with _ | root
  · rfl
  · rcases before with _ | ⟨_ | _, _ | _⟩
    · rcases after with _ | _
      · show (if x = root then _ else Except.ok false) = _
        split
        · rename_i hroot
          rw [← hroot, hnode]
          rfl
        · rfl
      · rfl
    all_goals rfl

theorem clauses_congr_selection {items others : List Item}
    (hempty : items.isEmpty = others.isEmpty)
    (hbare : selectsBareStar items q.sources = selectsBareStar others q.sources)
    (hitems : ∀ ctx, ctx.sources = q.sources →
      Item.renderAll ctx items = Item.renderAll ctx others) :
    Query.clauses schema { q with selection := items } =
      Query.clauses schema { q with selection := others } := by
  rw [clauses_eq, clauses_eq]
  show (if items.isEmpty && q.sources.root.isNone then _ else
      Rendering.ofOutcome (Context.of schema q.sources) >>= fun ctx =>
        Rendering.ofOutcome (selectsBareStar items q.sources) >>= fun bare => _) =
    (if others.isEmpty && q.sources.root.isNone then _ else
      Rendering.ofOutcome (Context.of schema q.sources) >>= fun ctx =>
        Rendering.ofOutcome (selectsBareStar others q.sources) >>= fun bare => _)
  rw [hempty, hbare]
  rcases hctx : Context.of schema q.sources with f | ctx
  · rfl
  · have hsources : ctx.sources = q.sources := by
      obtain ⟨names, -, rfl⟩ := Outcome.map_eq_ok.mp hctx
      rfl
    show (if others.isEmpty && q.sources.root.isNone then _ else
        Rendering.ofOutcome (selectsBareStar others q.sources) >>= fun bare =>
          (if bare then pure ["*"] else Item.renderAll ctx items) >>= fun items => _) =
      (if others.isEmpty && q.sources.root.isNone then _ else
        Rendering.ofOutcome (selectsBareStar others q.sources) >>= fun bare =>
          (if bare then pure ["*"] else Item.renderAll ctx others) >>= fun items => _)
    rw [hitems ctx hsources]

/-- The star of a join of the same index is written in the place of another query's star. -/
theorem render_foreign_join {before after : List Item} {x : SourceId} {j : Join}
    (hselection : q.selection = before ++ .star x :: after)
    (hnode : q.sources.node x = .ok (.join j)) :
    q.render schema = Query.render schema
      { q with selection := before ++ .star ⟨q.sources.scope, x.index⟩ :: after } := by
  have hown : q.sources.node ⟨q.sources.scope, x.index⟩ = .ok (.join j) := hnode
  have hclauses : Query.clauses schema { q with selection := before ++ .star x :: after } =
      Query.clauses schema
        { q with selection := before ++ .star ⟨q.sources.scope, x.index⟩ :: after } := by
    apply clauses_congr_selection
    · cases before <;> rfl
    · rw [selectsBareStar_join hnode, selectsBareStar_join hown]
    · intro ctx hsources
      have hjoin : ctx.sources.node x = .ok (.join j) := by rw [hsources, hnode]
      apply renderAll_congr_star
      rw [Context.starSql_join hjoin, Context.ownId, hsources]
  rw [render, render, ← hclauses, ← hselection]
  cases q
  rfl

/-- What becomes of the ids of other queries where rendering or a width gets to them. -/
structure ForeignLookups (schema : Schema) (q : Query) : Prop where
  /-- A column is refused, and so is the star of an id whose index is that of a leaf. -/
  refused : ∀ {ctx : Context} {m : Mention}, q.Reaches schema ctx m →
    m.id.scope ≠ ctx.sources.scope →
    (∀ x, m = .star x → ∃ source, ctx.sources.node x = .ok (.leaf source)) →
    q.FailsWith schema (.refused (.mismatch .foreignSource))
  /-- The star of an id whose index is that of a join is written as the star of the join. -/
  joinStar : ∀ {ctx : Context} {x : SourceId} {j : Join}, ctx.sources.node x = .ok (.join j) →
    (Mention.star x).lookup ctx = (Mention.star (ctx.ownId x)).lookup ctx
  joinSelected : ∀ {before after : List Item} {x : SourceId} {j : Join},
    q.selection = before ++ .star x :: after → q.sources.node x = .ok (.join j) →
    q.render schema = Query.render schema
      { q with selection := before ++ .star ⟨q.sources.scope, x.index⟩ :: after }
  /-- The star of an id past the last source ends rendering without an answer. -/
  pastEnd : ∀ {ctx : Context} {x : SourceId}, q.Reaches schema ctx (.star x) →
    ctx.sources.nodes.length ≤ x.index → q.FailsWith schema .outOfBounds
  /-- Columns are counted without a look at the scope. -/
  width : ∀ x, (Item.star x).width (q.sources.widths schema) =
    (Item.star ⟨q.sources.scope, x.index⟩).width (q.sources.widths schema)
  widthPastEnd : ∀ {before after : List Item} {x : SourceId},
    q.selection = before ++ .star x :: after →
    (∀ item ∈ before, ∃ n, item.width (q.sources.widths schema) = .ok n) →
    q.sources.nodes.length ≤ x.index →
    q.width schema = .error .outOfBounds ∧ ∀ first, q.source? = some first →
      q.sources.hasJoins = true → q.shape? schema = .error .outOfBounds

theorem foreign_lookups (schema : Schema) (q : Query) : q.ForeignLookups schema where
  refused := by
    intro ctx m hreaches hforeign hleaf
    apply failsWith_of_reaches hreaches
    cases m with
    | column x => exact Context.sourceName_foreign hforeign
    | star x =>
      obtain ⟨source, hnode⟩ := hleaf x rfl
      exact Context.starSql_foreign_leaf hforeign hnode
  joinStar := Context.starSql_join
  joinSelected := render_foreign_join
  pastEnd := fun hreaches hx => failsWith_of_reaches hreaches (Context.starSql_pastEnd hx)
  width := fun x => Arena.width_congr _ rfl
  widthPastEnd := by
    intro before after x hselection hbefore hx
    have hwidth : (Item.star x).width (q.sources.widths schema) = .error .outOfBounds :=
      Arena.width_pastEnd (by rwa [Arena.length_widths])
    have hne : q.selection ≠ [] := by simp [hselection]
    constructor
    · rw [width_of_selection hne, hselection]
      exact Item.totalWidth_of_failing hbefore hwidth 0
    · intro first hfirst hjoins
      rw [shape?, hfirst, hjoins, hselection]
      show (offsetsFrom (q.sources.widths schema) (before ++ .star x :: after) 0 >>= _) = _
      rw [offsetsFrom_of_failing hbefore hwidth]
      rfl

def mentors : Query :=
  (table 1 "persons").including (.hasOne "mentor" "persons" [("mentor_id", "id")])

def mentorsRoot : SourceId :=
  ⟨1, 2⟩

def shelfSchema : Schema :=
  ⟨fun _ => .ok ["id", "author_id"], fun _ => .ok true, Text.quoteIdentifier⟩

def shelf : Query :=
  (table 0 "books").including (.belongsTo "author" "authors" [("author_id", "id")])

def shelfByMentor : Query :=
  shelf.filter (.column (some (.source mentorsRoot)) "id")

theorem shelfByMentor_refused :
    shelfByMentor.FailsWith shelfSchema (.refused (.mismatch .foreignSource)) := by
  let ctx : Context := ⟨shelfSchema, shelf.sources, [some "books", some "author", none]⟩
  -- two stars, and a check of the key, two names and a condition for the join
  let before : List Step := (shelfByMentor.steps shelfSchema).take 6
  have hsteps : shelfByMentor.steps shelfSchema =
      before ++ [.mention ctx (.column mentorsRoot)] := rfl
  have hoks : before.map Step.outcome = List.replicate 6 (.ok ()) := rfl
  have hbefore : ∀ step ∈ before, step.outcome = .ok () := by
    intro step hstep
    have hmem := List.mem_map_of_mem (f := Step.outcome) hstep
    rw [hoks] at hmem
    exact List.eq_of_mem_replicate hmem
  have hforeign : mentorsRoot.scope ≠ ctx.sources.scope := by decide
  exact (foreign_lookups shelfSchema shelfByMentor).refused ⟨before, [], hsteps, hbefore⟩ hforeign
    fun x hx => nomatch hx

/-- The star of another query's join is written as that of the books with their authors, and
counted as wide. Without a join at its index there is no answer at all. -/
theorem shelf_writes_mentors :
    mentors.sources.root = some mentorsRoot ∧
      shelf.sources.contains mentorsRoot = false ∧
      (Request.query (shelf.select [.star mentorsRoot])).compile shelfSchema =
        .ok ⟨"SELECT \"books\".*, \"author\".* FROM \"books\" LEFT JOIN \"authors\" \"author\" " ++
          "ON \"author\".\"id\" = \"books\".\"author_id\"", []⟩ ∧
      (shelf.select [.star mentorsRoot]).width shelfSchema = .ok 4 ∧
      (Request.query ((table 0 "books").select [.star mentorsRoot])).compile shelfSchema =
        .error .outOfBounds ∧
      ((table 0 "books").select [.star mentorsRoot]).width shelfSchema = .error .outOfBounds :=
  ⟨rfl, rfl, rfl, rfl, rfl, rfl⟩

end Query

end RelQuery
