import RelQuery.Proofs.Query.Steps
import RelQuery.Proofs.Query.ValueIndependence

/-!
# Written expressions

An expression is written as a text with the arguments of its placeholders, the same after whatever
was bound before. The text around operands is written with the texts of the operands in it, and
their arguments one after another.
-/

set_option autoImplicit false

namespace RelQuery

/-- A text with the arguments of its placeholders. -/
structure Fragment where
  text : String
  arguments : List Value
deriving DecidableEq

/-- What an expression is written as. -/
def Expr.LowersTo (ctx : Context) (e : Expr) (x : Fragment) : Prop :=
  (e.render ctx .plain).Appends (.ok x.text) x.arguments

def Query.LowersTo (schema : Schema) (q : Query) (x : Fragment) : Prop :=
  (q.render schema).Appends (.ok x.text) x.arguments

open Rendering

variable {ctx : Context} {s : String} {vs : List Value}

theorem Expr.LowersTo.unique {e : Expr} {x y : Fragment} (hx : e.LowersTo ctx x)
    (hy : e.LowersTo ctx y) : x = y := by
  obtain ⟨ht, ha⟩ := Appends.unique hx hy
  cases x
  cases y
  cases ht
  cases ha
  rfl

theorem Expr.column_lowersTo {qualifier : Option Qualifier} {name sql : String}
    (h : ctx.columnSql qualifier name = .ok sql) :
    (Expr.column qualifier name).LowersTo ctx ⟨sql, []⟩ := by
  intro b
  rw [Expr.render, h, List.append_nil]
  rfl

theorem Expr.render_uniform (ctx : Context) (e : Expr) (p : Polarity) :
    (e.render ctx p).Uniform :=
  (e.render_writes (Recast.erase_faithful Function.injective_id) rfl ctx.alike_self
    (fun _ _ => trivial) p).uniform

theorem Query.clauses_uniform (schema : Schema) (q : Query) : (q.clauses schema).Uniform :=
  (q.clauses_selects (Recast.erase_faithful Function.injective_id) fun _ _ => trivial).uniform

theorem Expr.renderAll_uniform (ctx : Context) (es : List Expr) :
    (Expr.renderAll ctx es).Uniform := by
  induction es with
  | nil => exact uniform_pure []
  | cons e es ih =>
    exact (e.render_uniform ctx .plain).bind fun s => ih.bind fun ss => uniform_pure (s :: ss)

theorem Expr.lowers_one {e : Expr} {f : String → String}
    (h : (e.render ctx .plain >>= fun s => pure (f s)).Appends (.ok s) vs) :
    ∃ x : Fragment, e.LowersTo ctx x ∧ s = f x.text ∧ vs = x.arguments := by
  obtain ⟨a, ha, rfl⟩ := h.of_bind_pure (e.render_uniform ctx .plain)
  exact ⟨⟨a, vs⟩, ha, rfl, rfl⟩

theorem Expr.lowers_two {e e' : Expr} {f : String → String → String}
    (h : (e.render ctx .plain >>= fun s => e'.render ctx .plain >>= fun t =>
      pure (f s t)).Appends (.ok s) vs) :
    ∃ x y : Fragment, e.LowersTo ctx x ∧ e'.LowersTo ctx y ∧ s = f x.text y.text ∧
      vs = x.arguments ++ y.arguments := by
  obtain ⟨a, us, ws, ha, hrest, rfl⟩ := h.of_bind (e.render_uniform ctx .plain) fun a =>
    (e'.render_uniform ctx .plain).bind fun _ => uniform_pure _
  obtain ⟨y, hy, rfl, rfl⟩ := lowers_one (f := f a) hrest
  exact ⟨⟨a, us⟩, y, ha, hy, rfl, rfl⟩

theorem Expr.lowers_three {e e' e'' : Expr} {f : String → String → String → String}
    (h : (e.render ctx .plain >>= fun s => e'.render ctx .plain >>= fun t =>
      e''.render ctx .plain >>= fun u => pure (f s t u)).Appends (.ok s) vs) :
    ∃ x y z : Fragment, e.LowersTo ctx x ∧ e'.LowersTo ctx y ∧ e''.LowersTo ctx z ∧
      s = f x.text y.text z.text ∧ vs = x.arguments ++ (y.arguments ++ z.arguments) := by
  obtain ⟨a, us, ws, ha, hrest, rfl⟩ := h.of_bind (e.render_uniform ctx .plain) fun a =>
    (e'.render_uniform ctx .plain).bind fun _ =>
      (e''.render_uniform ctx .plain).bind fun _ => uniform_pure _
  obtain ⟨y, z, hy, hz, rfl, rfl⟩ := lowers_two (f := f a) hrest
  exact ⟨⟨a, us⟩, y, z, ha, hy, hz, rfl, rfl⟩

theorem Expr.lowers_all {es : List Expr} {ss : List String}
    (h : (Expr.renderAll ctx es).Appends (.ok ss) vs) :
    ∃ xs : List Fragment, List.Forall₂ (Expr.LowersTo ctx) es xs ∧
      ss = xs.map Fragment.text ∧ vs = xs.flatMap Fragment.arguments := by
  induction es generalizing ss vs with
  | nil =>
    obtain ⟨hs, rfl⟩ := h.unique (appends_pure [])
    cases hs
    exact ⟨[], .nil, rfl, rfl⟩
  | cons e es ih =>
    obtain ⟨a, us, ws, ha, hrest, rfl⟩ := h.of_bind (e.render_uniform ctx .plain) fun a =>
      (Expr.renderAll_uniform ctx es).bind fun _ => uniform_pure _
    obtain ⟨ss, hs, rfl⟩ := hrest.of_bind_pure (Expr.renderAll_uniform ctx es)
    obtain ⟨xs, hxs, rfl, rfl⟩ := ih hs
    exact ⟨⟨a, us⟩ :: xs, .cons ha hxs, rfl, rfl⟩

theorem Expr.lowered_of_mem {es : List Expr} {xs : List Fragment}
    (h : List.Forall₂ (Expr.LowersTo ctx) es xs) {x : Fragment} (hx : x ∈ xs) :
    ∃ e ∈ es, e.LowersTo ctx x := by
  induction h with
  | nil => cases hx
  | cons he _ ih =>
    rcases List.mem_cons.mp hx with rfl | hx
    · exact ⟨_, List.mem_cons_self, he⟩
    · obtain ⟨e, hmem, he⟩ := ih hx
      exact ⟨e, List.mem_cons_of_mem _ hmem, he⟩

theorem Expr.lowers_list {es : List Expr} {f : List String → String}
    (h : (Expr.renderAll ctx es >>= fun ss => pure (f ss)).Appends (.ok s) vs) :
    ∃ xs : List Fragment, List.Forall₂ (Expr.LowersTo ctx) es xs ∧
      s = f (xs.map Fragment.text) ∧ vs = xs.flatMap Fragment.arguments := by
  obtain ⟨ss, hs, rfl⟩ := h.of_bind_pure (Expr.renderAll_uniform ctx es)
  obtain ⟨xs, hxs, rfl, rfl⟩ := lowers_all hs
  exact ⟨xs, hxs, rfl, rfl⟩

theorem Query.lowers {schema : Schema} {q : Query} {f : Clauses → String}
    (h : (q.clauses schema >>= fun c => pure (f c)).Appends (.ok s) vs) :
    ∃ c : Clauses, q.LowersTo schema ⟨c.sql, vs⟩ ∧ s = f c := by
  obtain ⟨c, hc, rfl⟩ := h.of_bind_pure (q.clauses_uniform schema)
  refine ⟨c, ?_, rfl⟩
  have hp := hc.bind (k := fun c => pure c.sql) (appends_pure c.sql)
  rw [List.append_nil] at hp
  show (Clauses.sql <$> q.clauses schema).Appends (.ok c.sql) vs
  rwa [map_eq_pure_bind]

theorem Expr.lowers_members {e : Expr} {es : List Expr} {f : String → List String → String}
    (h : (e.render ctx .plain >>= fun s => Expr.renderAll ctx es >>= fun ss =>
      pure (f s ss)).Appends (.ok s) vs) :
    ∃ (x : Fragment) (xs : List Fragment), e.LowersTo ctx x ∧
      List.Forall₂ (Expr.LowersTo ctx) es xs ∧ s = f x.text (xs.map Fragment.text) ∧
      vs = x.arguments ++ xs.flatMap Fragment.arguments := by
  obtain ⟨a, us, ws, ha, hrest, rfl⟩ := h.of_bind (e.render_uniform ctx .plain) fun a =>
    (Expr.renderAll_uniform ctx es).bind fun _ => uniform_pure _
  obtain ⟨xs, hxs, rfl, rfl⟩ := lowers_list (f := f a) hrest
  exact ⟨⟨a, us⟩, xs, ha, hxs, rfl, rfl⟩

theorem Expr.lowers_subquery {e : Expr} {q : Query} {f : String → Clauses → String}
    (h : (e.render ctx .plain >>= fun s => q.clauses ctx.schema >>= fun c =>
      pure (f s c)).Appends (.ok s) vs) :
    ∃ (x : Fragment) (c : Clauses) (us : List Value), e.LowersTo ctx x ∧
      q.LowersTo ctx.schema ⟨c.sql, us⟩ ∧ s = f x.text c ∧ vs = x.arguments ++ us := by
  obtain ⟨a, us, ws, ha, hrest, rfl⟩ := h.of_bind (e.render_uniform ctx .plain) fun a =>
    (q.clauses_uniform ctx.schema).bind fun _ => uniform_pure _
  obtain ⟨c, hc, rfl⟩ := Query.lowers (f := f a) hrest
  exact ⟨⟨a, us⟩, c, ws, ha, hc, rfl, rfl⟩

/-- A negation is written where the expression is, since neither polarity adds a step. -/
theorem Expr.not_lowers {e : Expr} {x : Fragment} (h : e.LowersTo ctx x) :
    ∃ y : Fragment, (Expr.not e).LowersTo ctx y := by
  have hplain := e.render_follows ctx .plain .empty
  have hnot := e.render_follows ctx .negated .empty
  obtain ⟨o, us, ho⟩ := e.render_uniform ctx .negated
  rw [h, ← hnot, ho] at hplain
  cases o with
  | error f => cases hplain
  | ok s => exact ⟨⟨s, us⟩, ho⟩

def Expr.written (ctx : Context) (e : Expr) : Fragment :=
  match (e.render ctx .plain).runFrom .empty with
  | (.ok s, b) => ⟨s, b.values⟩
  | (.error _, _) => ⟨"", []⟩

def Query.written (schema : Schema) (q : Query) : Fragment :=
  match (q.render schema).runFrom .empty with
  | (.ok s, b) => ⟨s, b.values⟩
  | (.error _, _) => ⟨"", []⟩

theorem Expr.LowersTo.written {e : Expr} {x : Fragment} (h : e.LowersTo ctx x) :
    e.written ctx = x := by
  rw [Expr.written, h .empty]
  rfl

theorem Query.LowersTo.written {schema : Schema} {q : Query} {x : Fragment}
    (h : q.LowersTo schema x) : q.written schema = x := by
  rw [Query.written, h .empty]
  rfl

end RelQuery
