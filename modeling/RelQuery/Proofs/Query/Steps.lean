import RelQuery.Proofs.Query.Correspondence

/-!
# Steps of rendering

Rendering a query looks up names, checks foreign keys and finds an order, one after another, and
nothing else in it can fail. So the outcome of rendering is the outcome of these steps in their
order, and the first step that fails decides how it fails.
-/

set_option autoImplicit false

namespace RelQuery

def Outcome.done {α : Type} (r : Outcome α) : Outcome Unit :=
  r.map fun _ => ()

/-- The place of an id in a query: before the name of a column, or before a star. -/
inductive Mention
  | column (id : SourceId)
  | star (id : SourceId)

def Mention.id : Mention → SourceId
  | .column id => id
  | .star id => id

def Mention.lookup (ctx : Context) : Mention → Outcome String
  | .column id => ctx.sourceName id
  | .star id => ctx.starSql id

/-- A step of rendering that can fail. A mention is looked up among the sources of its SELECT. -/
inductive Step
  | mention (ctx : Context) (m : Mention)
  | check (outcome : Outcome Unit)

namespace Step

def outcome : Step → Outcome Unit
  | .mention ctx m => (m.lookup ctx).done
  | .check o => o

def run : List Step → Outcome Unit
  | [] => .ok ()
  | step :: steps => do
    step.outcome
    run steps

theorem run_append (steps rest : List Step) :
    run (steps ++ rest) = run steps >>= fun _ => run rest := by
  induction steps with
  | nil => rfl
  | cons step steps ih =>
    rw [List.cons_append, run, run, ih]
    rcases step.outcome with _ | _ <;> rfl

/-- A failing step that comes after steps without a failure decides the outcome. -/
theorem run_of_failing {before after : List Step} {step : Step} {f : Failure}
    (hbefore : ∀ s ∈ before, s.outcome = .ok ()) (hf : step.outcome = .error f) :
    run (before ++ step :: after) = .error f := by
  induction before with
  | nil =>
    rw [List.nil_append, run, hf]
    rfl
  | cons s before ih =>
    rw [List.cons_append, run, hbefore s List.mem_cons_self]
    exact ih fun t ht => hbefore t (List.mem_cons_of_mem s ht)

end Step

namespace Rendering

variable {α β : Type} {steps rest : List Step}

/-- A rendering that succeeds when all of the steps do, and else fails as the first that fails. -/
def Follows (r : Rendering α) (steps : List Step) : Prop :=
  ∀ b : Bindings, (r.runFrom b).1.done = Step.run steps

theorem follows_pure (a : α) : Follows (pure a) [] := fun _ => rfl

theorem follows_bindValue (v : Value) : Follows (bindValue v) [] := fun _ => rfl

theorem follows_throw (f : Failure) : Follows (throw f : Rendering α) [.check (.error f)] :=
  fun _ => rfl

theorem follows_ofOutcome (o : Outcome α) : Follows (ofOutcome o) [.check o.done] := by
  intro b
  show o.done = (o.done >>= fun _ => .ok ())
  cases o <;> rfl

theorem follows_mention (ctx : Context) (m : Mention) :
    Follows (ofOutcome (m.lookup ctx)) [.mention ctx m] := by
  intro b
  show (m.lookup ctx).done = ((m.lookup ctx).done >>= fun _ => .ok ())
  cases m.lookup ctx <;> rfl

theorem Follows.bind {r : Rendering α} {k : α → Rendering β} (hr : r.Follows steps)
    (hk : ∀ a, (k a).Follows rest) : (r >>= k).Follows (steps ++ rest) := by
  intro b
  have hrun := hr b
  rw [runFrom_bind, Step.run_append, ← hrun]
  rcases r.runFrom b with ⟨_ | a, b'⟩
  · rfl
  · exact hk a b'

theorem Follows.bind_pure {r : Rendering α} (hr : r.Follows steps) (k : α → β) :
    (r >>= fun a => pure (k a)).Follows steps := by
  have h := hr.bind fun a => follows_pure (k a)
  rwa [List.append_nil] at h

theorem Follows.map {r : Rendering α} (hr : r.Follows steps) (k : α → β) :
    (k <$> r).Follows steps := by
  rw [map_eq_pure_bind]
  exact hr.bind_pure k

theorem Follows.bind_ok {o : Outcome α} {a : α} (ho : o = .ok a) {k : α → Rendering β}
    (hk : (k a).Follows steps) : (ofOutcome o >>= k).Follows steps := by
  intro b
  rw [runFrom_bind, ho]
  exact hk b

theorem Follows.bind_error {o : Outcome α} {f : Failure} (ho : o = .error f)
    (k : α → Rendering β) : (ofOutcome o >>= k).Follows [.check (.error f)] := by
  intro b
  rw [runFrom_bind, ho]
  rfl

end Rendering

namespace Context

def leafSteps (ctx : Context) (id : SourceId) : Option (List Step) → List Step
  | some steps => steps
  | none => [.check (ctx.sourceName id).done]

def fromStepsWithin (ctx : Context) (leaves : Arena (Option (List Step))) :
    Nat → SourceId → List Step
  | 0, _ => [.check (.error .endless)]
  | depth + 1, id =>
    match leaves.node id with
    | .ok (.leaf leaf) => ctx.leafSteps id leaf
    | .ok (.join j) =>
      [.check (ctx.checkForeignKey j).done] ++ ctx.fromStepsWithin leaves depth j.base ++
        ctx.fromStepsWithin leaves depth j.target ++ [.check (ctx.joinCondition j).done]
    | .error f => [.check (.error f)]

def fromSteps (ctx : Context) (leaves : Arena (Option (List Step))) : List Step :=
  match leaves.root with
  | some id => ctx.fromStepsWithin leaves leaves.depth id
  | none => []

end Context

mutual

def Expr.steps (ctx : Context) : Expr → List Step
  | .literal _ => []
  | .value _ => []
  | .column (some (.source id)) _ => [.mention ctx (.column id)]
  | .column _ _ => []
  | .collate e _ => e.steps ctx
  | .not e => e.steps ctx
  | .compare _ left right => left.steps ctx ++ right.steps ctx
  | .prefixOp _ e => e.steps ctx
  | .infixOp _ left right => left.steps ctx ++ right.steps ctx
  | .inList e candidates =>
    if candidates.isEmpty then [] else e.steps ctx ++ Expr.stepsAll ctx candidates
  | .inQuery e q => e.steps ctx ++ q.steps ctx.schema
  | .existsIn q => q.steps ctx.schema
  | .between e low high => e.steps ctx ++ low.steps ctx ++ high.steps ctx
  | .function _ arguments => Expr.stepsAll ctx arguments
  | .countAll => []
  | .count e => e.steps ctx
  | .countDistinct e => e.steps ctx

def Expr.stepsAll (ctx : Context) : List Expr → List Step
  | [] => []
  | e :: es => e.steps ctx ++ Expr.stepsAll ctx es

def Expr.stepsOption (ctx : Context) : Option Expr → List Step
  | none => []
  | some e => e.steps ctx

def Item.steps (ctx : Context) : Item → List Step
  | .star id => [.mention ctx (.star id)]
  | .expr e _ => e.steps ctx

def Item.stepsAll (ctx : Context) : List Item → List Step
  | [] => []
  | item :: items => item.steps ctx ++ Item.stepsAll ctx items

def SortTerm.steps (ctx : Context) : SortTerm → List Step
  | ⟨e, _⟩ => e.steps ctx

def SortTerm.stepsAll (ctx : Context) : List SortTerm → List Step
  | [] => []
  | term :: terms => term.steps ctx ++ SortTerm.stepsAll ctx terms

def Source.steps? (schema : Schema) : Source → Option (List Step)
  | .table _ _ => none
  | .query q _ => some (q.steps schema)

def Source.nodeSteps (schema : Schema) : List (Node Source) → List (Node (Option (List Step)))
  | [] => []
  | .leaf source :: nodes => .leaf (source.steps? schema) :: Source.nodeSteps schema nodes
  | .join j :: nodes => .join j :: Source.nodeSteps schema nodes

def Query.steps (schema : Schema) : Query → List Step
  | ⟨selection, _, ⟨scope, nodes, root⟩, condition, grouping, having, ordering, reversed, _⟩ =>
    if selection.isEmpty && root.isNone then [.check (.error (.refused .emptySelection))]
    else
      match Context.of schema ⟨scope, nodes, root⟩ with
      | .error f => [.check (.error f)]
      | .ok ctx =>
        match selectsBareStar selection ⟨scope, nodes, root⟩ with
        | .error f => [.check (.error f)]
        | .ok bare =>
          (if bare then [] else Item.stepsAll ctx selection) ++
            ctx.fromSteps ⟨scope, Source.nodeSteps schema nodes, root⟩ ++
            Expr.stepsOption ctx condition ++ Expr.stepsAll ctx grouping ++
            Expr.stepsOption ctx having ++
            (if reversed && ordering.isEmpty then [.check ctx.reversedRowId.done]
            else SortTerm.stepsAll ctx ordering)

end

theorem Source.nodeSteps_eq (schema : Schema) (nodes : List (Node Source)) :
    Source.nodeSteps schema nodes = nodes.map (Node.recast id (Source.steps? schema)) :=
  eq_map_of_cons rfl (fun node _ => by cases node <;> rfl) nodes

def Arena.steps (schema : Schema) (a : Arena Source) : Arena (Option (List Step)) :=
  ⟨a.scope, Source.nodeSteps schema a.nodes, a.root⟩

theorem Arena.node_steps (schema : Schema) (a : Arena Source) (x : SourceId) :
    (a.steps schema).node x = (a.node x).map (Node.recast id (Source.steps? schema)) := by
  rw [steps, Source.nodeSteps_eq]
  exact Arena.node_recast a x

section

open Rendering

variable {schema : Schema}

def LeavesFollow (schema : Schema) (nodes : List (Node Source)) : Prop :=
  ∀ (q : Query) (aliasName : Option String), .leaf (.query q aliasName) ∈ nodes →
    (q.clauses schema).Follows (q.steps schema)

namespace Context

theorem leafSql_follows (ctx : Context) (x : SourceId) (source : Source)
    (hq : ∀ (q : Query) (aliasName : Option String), source = .query q aliasName →
      (q.clauses schema).Follows (q.steps schema)) :
    (ctx.leafSql x (source.sql schema)).Follows (ctx.leafSteps x (source.steps? schema)) := by
  cases source with
  | table name aliasName => exact (follows_ofOutcome (ctx.sourceName x)).bind_pure _
  | query q aliasName =>
    have hsql := (hq q aliasName rfl).map Clauses.sql
    simp only [Source.sql, leafSql]
    rcases ctx.names[x.index]? with _ | _ | name <;> exact hsql.bind_pure _

theorem fromWithin_follows (ctx : Context) {a : Arena Source} (hl : LeavesFollow schema a.nodes)
    (n : Nat) (x : SourceId) :
    (ctx.fromWithin (a.sqls schema) n x).Follows (ctx.fromStepsWithin (a.steps schema) n x) := by
  induction n generalizing x with
  | zero => exact follows_throw .endless
  | succ n ih =>
    rw [fromWithin, fromStepsWithin, Arena.node_sqls, Arena.node_steps]
    rcases hx : a.node x with f | source | j
    · exact follows_throw f
    · have hmem : .leaf source ∈ a.nodes := List.mem_of_getElem? (Outcome.element_eq_ok.mp hx)
      exact ctx.leafSql_follows x source fun q aliasName hq => hl q aliasName (hq ▸ hmem)
    · have hcheck := follows_ofOutcome (ctx.checkForeignKey j)
      have hcondition := follows_ofOutcome (ctx.joinCondition j)
      have hsteps := hcheck.bind fun _ => (ih j.base).bind fun base => (ih j.target).bind
        fun target => hcondition.bind_pure fun condition =>
          base ++ " LEFT JOIN " ++ target ++ " ON " ++ condition
      rw [← List.append_assoc, ← List.append_assoc] at hsteps
      exact hsteps

theorem fromClause_follows (ctx : Context) {a : Arena Source}
    (hl : LeavesFollow schema a.nodes) :
    (ctx.fromClause (a.sqls schema)).Follows (ctx.fromSteps (a.steps schema)) := by
  have hdepth : (a.steps schema).depth = (a.sqls schema).depth := by
    simp [Arena.depth, Arena.steps, Arena.sqls, Source.nodeSteps_eq, Source.nodesSql_eq]
  rw [fromClause, fromSteps, hdepth, show (a.steps schema).root = (a.sqls schema).root from rfl]
  rcases (a.sqls schema).root with _ | x
  · exact follows_pure none
  · exact (ctx.fromWithin_follows hl _ x).map some

end Context

theorem Query.steps_eq (schema : Schema) (q : Query) :
    q.steps schema =
      if q.selection.isEmpty && q.sources.root.isNone then
        [.check (.error (.refused .emptySelection))]
      else
        match Context.of schema q.sources with
        | .error f => [.check (.error f)]
        | .ok ctx =>
          match selectsBareStar q.selection q.sources with
          | .error f => [.check (.error f)]
          | .ok bare =>
            (if bare then [] else Item.stepsAll ctx q.selection) ++
              ctx.fromSteps (q.sources.steps schema) ++ Expr.stepsOption ctx q.condition ++
              Expr.stepsAll ctx q.grouping ++ Expr.stepsOption ctx q.having ++
              (if q.reversed && q.ordering.isEmpty then [.check ctx.reversedRowId.done]
              else SortTerm.stepsAll ctx q.ordering) := by
  obtain ⟨_, _, ⟨_, _, _⟩, _, _, _, _, _, _⟩ := q
  rfl

structure Query.PartsFollow (q : Query) (ctx : Context) : Prop where
  items : (Item.renderAll ctx q.selection).Follows (Item.stepsAll ctx q.selection)
  condition : (Expr.renderClause ctx "WHERE" q.condition).Follows (Expr.stepsOption ctx q.condition)
  groups : (Expr.renderAll ctx q.grouping).Follows (Expr.stepsAll ctx q.grouping)
  having : (Expr.renderClause ctx "HAVING" q.having).Follows (Expr.stepsOption ctx q.having)
  ordering : (SortTerm.renderAll ctx q.reversed q.ordering).Follows
    (SortTerm.stepsAll ctx q.ordering)

theorem Query.clauses_follow_of_parts {q : Query} (hl : LeavesFollow schema q.sources.nodes)
    (hparts : ∀ ctx, q.PartsFollow ctx) :
    (q.clauses schema).Follows (q.steps schema) := by
  rw [clauses_eq, steps_eq]
  split
  · exact follows_throw _
  rcases Context.of schema q.sources with f | ctx
  · exact Follows.bind_error rfl _
  refine Follows.bind_ok rfl ?_
  rcases selectsBareStar q.selection q.sources with f | bare
  · exact Follows.bind_error rfl _
  refine Follows.bind_ok rfl ?_
  obtain ⟨hitems, hcondition, hgroups, hhaving, hordering⟩ := hparts ctx
  have hselection : (if bare then pure ["*"] else Item.renderAll ctx q.selection).Follows
      (if bare then [] else Item.stepsAll ctx q.selection) := by
    cases bare
    · exact hitems
    · exact follows_pure ["*"]
  have horder : (if q.reversed && q.ordering.isEmpty then ofOutcome ctx.reversedRowId
        else commaSeparated <$> SortTerm.renderAll ctx q.reversed q.ordering).Follows
      (if q.reversed && q.ordering.isEmpty then [.check ctx.reversedRowId.done]
        else SortTerm.stepsAll ctx q.ordering) := by
    split
    · exact follows_ofOutcome _
    · exact hordering.map commaSeparated
  simp only [List.append_assoc]
  exact hselection.bind fun items => (ctx.fromClause_follows hl).bind fun source =>
    hcondition.bind fun condition => hgroups.bind fun groups => hhaving.bind fun having =>
      horder.bind_pure _

theorem Expr.steps_of_isNull (ctx : Context) {e : Expr} (hn : e.isNull = true) :
    e.steps ctx = [] := by
  cases e with
  | value v => rfl
  | _ => cases hn

mutual

theorem Expr.render_follows (ctx : Context) :
    (e : Expr) → (p : Polarity) → (e.render ctx p).Follows (e.steps ctx)
  | .literal _, _ => follows_pure _
  | .value v, p => by
    cases v with
    | null => exact follows_pure _
    | _ => exact (follows_bindValue _).bind_pure _
  | .column none name, p => follows_pure _
  | .column (some (.named source)) name, p => follows_pure _
  | .column (some (.source x)) name, p => by
    have hname := (follows_mention ctx (.column x)).bind_pure fun source =>
      p.wrap (ctx.quote source ++ "." ++ ctx.quote name)
    have heq : (Expr.column (some (.source x)) name).render ctx p =
        ofOutcome (ctx.sourceName x) >>= fun source =>
          pure (p.wrap (ctx.quote source ++ "." ++ ctx.quote name)) := by
      show (ofOutcome (ctx.sourceName x >>= fun source => _) >>= fun sql => _) = _
      rcases ctx.sourceName x with _ | _ <;> rfl
    rw [heq]
    exact hname
  | .collate e _, p => (Expr.render_follows ctx e .plain).bind_pure _
  | .not e, p => Expr.render_follows ctx e p.flip
  | .compare c left right, p => by
    have hl := Expr.render_follows ctx left .plain
    have hr := Expr.render_follows ctx right .plain
    rw [Expr.render, Expr.steps]
    split
    · rename_i hn
      rw [Expr.steps_of_isNull ctx hn, List.append_nil]
      exact hl.bind_pure _
    · split
      · rename_i hn
        rw [Expr.steps_of_isNull ctx hn, List.nil_append]
        exact hr.bind_pure _
      · exact hl.bind fun _ => hr.bind_pure _
  | .prefixOp _ e, p => (Expr.render_follows ctx e .plain).bind_pure _
  | .infixOp _ left right, p =>
    (Expr.render_follows ctx left .plain).bind fun _ =>
      (Expr.render_follows ctx right .plain).bind_pure _
  | .inList e candidates, p => by
    rw [Expr.render, Expr.steps]
    split
    · exact follows_pure _
    · exact (Expr.render_follows ctx e .plain).bind fun _ =>
        (Expr.renderAll_follows ctx candidates).bind_pure _
  | .inQuery e q, p =>
    (Expr.render_follows ctx e .plain).bind fun _ => (Query.clauses_follow ctx.schema q).bind_pure _
  | .existsIn q, p => (Query.clauses_follow ctx.schema q).bind_pure _
  | .between e low high, p => by
    rw [Expr.steps, List.append_assoc]
    exact (Expr.render_follows ctx e .plain).bind fun _ =>
      (Expr.render_follows ctx low .plain).bind fun _ =>
        (Expr.render_follows ctx high .plain).bind_pure _
  | .function _ arguments, p => (Expr.renderAll_follows ctx arguments).bind_pure _
  | .countAll, _ => follows_pure _
  | .count e, p => (Expr.render_follows ctx e .plain).bind_pure _
  | .countDistinct e, p => (Expr.render_follows ctx e .plain).bind_pure _

theorem Expr.renderAll_follows (ctx : Context) :
    (es : List Expr) → (Expr.renderAll ctx es).Follows (Expr.stepsAll ctx es)
  | [] => follows_pure []
  | e :: es => (Expr.render_follows ctx e .plain).bind fun _ =>
      (Expr.renderAll_follows ctx es).bind_pure _

theorem Expr.renderClause_follows (ctx : Context) (keyword : String) :
    (e : Option Expr) → (Expr.renderClause ctx keyword e).Follows (Expr.stepsOption ctx e)
  | none => follows_pure ""
  | some e => (Expr.render_follows ctx e .plain).bind_pure _

theorem Item.render_follows (ctx : Context) :
    (item : Item) → (item.render ctx).Follows (item.steps ctx)
  | .star x => follows_mention ctx (.star x)
  | .expr e aliasName => by
    cases aliasName with
    | none => exact (Expr.render_follows ctx e .plain).bind_pure _
    | some name => exact (Expr.render_follows ctx e .plain).bind_pure _

theorem Item.renderAll_follows (ctx : Context) :
    (items : List Item) → (Item.renderAll ctx items).Follows (Item.stepsAll ctx items)
  | [] => follows_pure []
  | item :: items => (Item.render_follows ctx item).bind fun _ =>
      (Item.renderAll_follows ctx items).bind_pure _

theorem SortTerm.render_follows (ctx : Context) (reversed : Bool) :
    (term : SortTerm) → (term.render ctx reversed).Follows (term.steps ctx)
  | ⟨e, _⟩ => (Expr.render_follows ctx e .plain).bind_pure _

theorem SortTerm.renderAll_follows (ctx : Context) (reversed : Bool) :
    (terms : List SortTerm) →
      (SortTerm.renderAll ctx reversed terms).Follows (SortTerm.stepsAll ctx terms)
  | [] => follows_pure []
  | term :: terms => (SortTerm.render_follows ctx reversed term).bind fun _ =>
      (SortTerm.renderAll_follows ctx reversed terms).bind_pure _

theorem Source.leaf_follows (schema : Schema) :
    (source : Source) → (q : Query) → (aliasName : Option String) → source = .query q aliasName →
      (q.clauses schema).Follows (q.steps schema)
  | .table _ _, _, _, hq => nomatch hq
  | .query q _, _, _, hq => by
    have h := Query.clauses_follow schema q
    cases hq
    exact h

theorem Source.leaves_follow (schema : Schema) :
    (nodes : List (Node Source)) → LeavesFollow schema nodes
  | [] => fun _ _ hmem => nomatch hmem
  | .leaf source :: nodes => by
    intro q aliasName hmem
    rcases List.mem_cons.mp hmem with heq | hmem
    · injection heq with heq
      exact Source.leaf_follows schema source q aliasName heq.symm
    · exact Source.leaves_follow schema nodes q aliasName hmem
  | .join _ :: nodes => by
    intro q aliasName hmem
    rcases List.mem_cons.mp hmem with heq | hmem
    · cases heq
    · exact Source.leaves_follow schema nodes q aliasName hmem

theorem Query.clauses_follow (schema : Schema) :
    (q : Query) → (q.clauses schema).Follows (q.steps schema)
  | ⟨selection, distinct, ⟨scope, nodes, root⟩, condition, grouping, having, ordering,
      reversed, limit⟩ => by
    refine Query.clauses_follow_of_parts (Source.leaves_follow schema nodes) fun ctx =>
      ⟨?_, ?_, ?_, ?_, ?_⟩
    · exact Item.renderAll_follows ctx selection
    · exact Expr.renderClause_follows ctx "WHERE" condition
    · exact Expr.renderAll_follows ctx grouping
    · exact Expr.renderClause_follows ctx "HAVING" having
    · exact SortTerm.renderAll_follows ctx reversed ordering

end

/-- Rendering a query fails as the first of its steps that fails, or not at all. -/
theorem Query.render_follows (schema : Schema) (q : Query) :
    (q.render schema).Follows (q.steps schema) :=
  (Query.clauses_follow schema q).map Clauses.sql

def Query.FailsWith (schema : Schema) (q : Query) (f : Failure) : Prop :=
  ∀ b : Bindings, ((q.render schema).runFrom b).1 = .error f

theorem Query.failsWith_iff {q : Query} {f : Failure} :
    q.FailsWith schema f ↔ Step.run (q.steps schema) = .error f := by
  have hdone : ∀ o : Outcome String, o.done = .error f ↔ o = .error f := by
    intro o
    cases o <;> simp [Outcome.done, Except.map]
  constructor
  · intro h
    rw [← q.render_follows schema .empty, h .empty]
    rfl
  · intro h b
    rw [← hdone, q.render_follows schema b, h]

end

end RelQuery
