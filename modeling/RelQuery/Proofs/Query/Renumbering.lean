import RelQuery.Proofs.Query.ValueIndependence

/-!
# Renumbered scopes

The numbers of scopes are seen nowhere. A query and the one that has other numbers in the places
of its own, distinct ones for distinct ones, are rendered alike, with the same arguments and the
same failures, and have the same width, shape and names.
-/

set_option autoImplicit false

namespace RelQuery

def Recast.renumber (ρ : Nat → Nat) : Recast where
  value := .value
  scope := ρ

namespace Query

/-- What a schema shows of a query. The bindings are the arguments of the text, or what was bound
until rendering failed. -/
structure Report where
  rendering : Outcome String × Bindings
  width : Outcome Nat
  shape : Outcome (Option Shape)
  names : Outcome (List (Option String))

def report (schema : Schema) (q : Query) : Report where
  rendering := (q.render schema).runFrom .empty
  width := q.width schema
  shape := q.shape? schema
  names := q.sources.resolveNames Source.declaredName

end Query

variable {schema : Schema} {ρ : Nat → Nat}

theorem Recast.renumber_faithful (hρ : Function.Injective ρ) :
    (Recast.renumber ρ).Faithful schema (fun _ => True) (fun s _ s' => s' = s)
      (fun v => [v]) where
  text := sameText_relation schema.quote
  scope := hρ
  null := rfl
  kept := by
    intro v hv
    cases v <;> first | rfl | cases hv
  leaf := fun _ hv => ⟨"?", rfl, fun ctx p => Expr.appends_value ctx p hv⟩

theorem Rendering.runFrom_eq_of_paired {vs : List Value} {r r' : Rendering String}
    (h : Writes (fun s _ s' => s' = s) (fun v => [v]) vs r r') (b : Bindings) :
    r'.runFrom b = r.runFrom b := by
  have hvs : ∀ us : List Value, us.flatMap (fun v => [v]) = us := by simp
  rcases h with ⟨left, right, rfl⟩ | ⟨-, left, right⟩
  · rw [left b, right b, hvs]
  · rw [left b, right b, hvs]

namespace Query

theorem runFrom_renumber (hρ : Function.Injective ρ) (q : Query) (b : Bindings) :
    ((q.recast (.renumber ρ)).render schema).runFrom b = (q.render schema).runFrom b :=
  Rendering.runFrom_eq_of_paired
    (q.render_writes (Recast.renumber_faithful hρ) fun _ _ => trivial) b

theorem report_renumber (hρ : Function.Injective ρ) (q : Query) :
    (q.recast (.renumber ρ)).report schema = q.report schema := by
  have hnames : (q.recast (.renumber ρ)).sources.resolveNames Source.declaredName =
      q.sources.resolveNames Source.declaredName := by
    rw [recast_eq]
    exact Arena.resolveNames_recast hρ (Source.declaredName_recast _) q.sources
  rw [report, runFrom_renumber hρ, width_recast, shape?_recast hρ, hnames, report]

end Query

end RelQuery
