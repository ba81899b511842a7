import RelQuery.Proofs.Query.Correspondence
import RelQuery.Proofs.Query.RecastCount
import RelQuery.Proofs.Query.RecastWidth
import RelQuery.Proofs.Query.Revalue

/-!
# Independence of bound values

Queries that differ in values alone, with null in the same places, have one text, one outcome, one
width and one shape. Their arguments are their values at the same places.
-/

set_option autoImplicit false

namespace RelQuery

def Value.erased (v : Value) : Value :=
  if v.isNull then .null else .integer 0

theorem Value.isNull_erased (v : Value) : v.erased.isNull = v.isNull := by
  cases v <;> rfl

/-- A query without its values, of which only the nulls can be told from the others. -/
def Query.erased (ρ : Nat → Nat) (q : Query) : Query :=
  q.recast (.revalue Value.erased ρ)

/-- One query up to its values, null apart, and up to the numbers of its scopes. -/
def Query.SameButValues (q q' : Query) : Prop :=
  ∃ ρ : Nat → Nat, Function.Injective ρ ∧ q.erased ρ = q'.erased id

/-- Both queries give one text, or fail alike, and bind equally many of their arguments, all of
them where they give a text. -/
def Query.RendersAs (schema : Schema) (q q' : Query) : Prop :=
  ∃ (o : Outcome String) (us us' : List Value), (q.render schema).Appends o us ∧
    (q'.render schema).Appends o us' ∧ us.length = us'.length ∧ us <+: q.arguments ∧
    us' <+: q'.arguments ∧ ∀ sql, o = .ok sql → us = q.arguments ∧ us' = q'.arguments

/-- What a schema shows of two queries is the same but for the values bound, and those are the
values of the queries at the same places. -/
structure Query.Indistinct (schema : Schema) (q q' : Query) : Prop where
  rendering : q.RendersAs schema q'
  places : q.values.length = q'.values.length ∧ ∃ places : List Nat, places.Pairwise (· < ·) ∧
    q.arguments.map some = places.map (fun p => q.values[p]?) ∧
    q'.arguments.map some = places.map (fun p => q'.values[p]?)
  width : q.width schema = q'.width schema
  shape : q.shape? schema = q'.shape? schema

theorem sameText_relation (quote : String → String) :
    TextRelation quote (fun _ => True) (fun s (_ : List Value) s' => s' = s) where
  plain := fun _ => rfl
  raw := fun _ => rfl
  quoted := fun _ => rfl
  append := by
    rintro s _ t _ _ _ rfl rfl
    rfl
  group := by
    rintro s _ _ rfl
    rfl
  collate := by
    rintro s _ c _ _ rfl
    rfl
  empty_iff := by
    rintro s _ _ rfl
    rfl

variable {schema : Schema} {ρ : Nat → Nat}

theorem Recast.erase_faithful (hρ : Function.Injective ρ) :
    (Recast.revalue Value.erased ρ).Faithful schema (fun _ => True) (fun s _ s' => s' = s)
      (fun _ => [.integer 0]) where
  text := sameText_relation schema.quote
  scope := hρ
  null := rfl
  kept := by
    intro v hv
    cases v <;> first | rfl | cases hv
  leaf := by
    intro v hv
    have he : v.erased = .integer 0 := by
      rw [Value.erased, hv]
      rfl
    refine ⟨"?", rfl, fun ctx p => ?_⟩
    show ((Expr.value v.erased).render ctx p).Appends (.ok (p.wrap "?")) [.integer 0]
    rw [he]
    exact Expr.appends_value ctx p rfl

namespace Query

theorem render_erased (schema : Schema) (hρ : Function.Injective ρ) (q : Query) :
    Writes (fun s _ s' => s' = s) (fun _ => [.integer 0]) q.arguments (q.render schema)
      ((q.erased ρ).render schema) :=
  q.render_writes (Recast.erase_faithful hρ) fun _ _ => trivial

/-- Both queries end as the query without values does, and bind as many values as it binds
zeros. -/
theorem rendersAs_of_erased {x x' : Query} (hρ : Function.Injective ρ)
    (hr : (x.erased ρ).render schema = (x'.erased id).render schema) : x.RendersAs schema x' := by
  have hzeros : ∀ us us' : List Value, us.flatMap (fun _ => [Value.integer 0]) =
      us'.flatMap (fun _ => [Value.integer 0]) → us.length = us'.length := by
    intro us us' h
    rw [← List.map_eq_flatMap, ← List.map_eq_flatMap] at h
    simpa only [List.length_map] using congrArg List.length h
  have hx := x.render_erased schema hρ
  have hx' := x'.render_erased schema Function.injective_id
  rw [hr] at hx
  rcases hx with ⟨left, right, rfl⟩ | ⟨before, left, right⟩
  · rcases hx' with ⟨left', right', rfl⟩ | ⟨before', left', right'⟩
    · obtain ⟨ho, hvs⟩ := right.unique right'
      cases ho
      exact ⟨_, _, _, left, left', hzeros _ _ hvs, List.prefix_rfl, List.prefix_rfl,
        fun _ _ => ⟨rfl, rfl⟩⟩
    · cases (right.unique right').1
  · rcases hx' with ⟨left', right', rfl⟩ | ⟨before', left', right'⟩
    · cases (right.unique right').1
    · obtain ⟨ho, hvs⟩ := right.unique right'
      cases ho
      exact ⟨_, _, _, left, left', hzeros _ _ hvs, before, before', fun _ he => nomatch he⟩

theorem slots_erased (q : Query) : (q.erased ρ).slots = Slots.revalue Value.erased q.slots :=
  q.slots_revalue Value.isNull_erased

theorem indistinct_of_erased {x x' : Query} (hρ : Function.Injective ρ)
    (hr : (x.erased ρ).render schema = (x'.erased id).render schema)
    (hs : (x.erased ρ).slots = (x'.erased id).slots)
    (hw : (x.erased ρ).width schema = (x'.erased id).width schema)
    (hshape : (x.erased ρ).shape? schema = (x'.erased id).shape? schema) :
    Indistinct schema x x' := by
  rw [slots_erased, slots_erased] at hs
  have hplaces : x'.slots.places = x.slots.places := by
    rw [← Slots.places_revalue (g := Value.erased) x'.slots, ← hs, Slots.places_revalue]
  refine ⟨rendersAs_of_erased hρ hr, ⟨?_, x.slots.places, x.slots.places_pairwise, ?_, ?_⟩, ?_, ?_⟩
  · have hlen := congrArg List.length hs
    simpa [values, Slots.revalue] using hlen
  · exact x.slots.bound_eq_places
  · rw [← hplaces]
    exact x'.slots.bound_eq_places
  · rwa [erased, erased, width_recast, width_recast] at hw
  · rwa [erased, erased, shape?_recast hρ, shape?_recast Function.injective_id] at hshape

/-- Values are told apart neither by the query nor by its count queries, whatever scopes these
take. -/
theorem indistinct_of_sameButValues {q q' : Query} (h : q.SameButValues q') (schema : Schema) :
    Indistinct schema q q' ∧
      ∀ a b : Nat, Indistinct schema (q.countQueryIn a) (q'.countQueryIn b) := by
  obtain ⟨ρ, hρ, he⟩ := h
  refine ⟨indistinct_of_erased hρ (by rw [he]) (by rw [he]) (by rw [he]) (by rw [he]), ?_⟩
  intro a b
  have ha : (q.countQueryIn a).erased ρ = (q.erased ρ).countQueryIn (ρ a) :=
    (countQueryIn_recast hρ q a).symm
  have hb : (q'.countQueryIn b).erased id = (q.erased ρ).countQueryIn b := by
    rw [he]
    exact (countQueryIn_recast Function.injective_id q' b).symm
  refine indistinct_of_erased hρ ?_ ?_ ?_ ?_
  · rw [ha, hb, render_countQueryIn_scope]
  · rw [ha, hb]
    exact countQueryIn_scope (fun _ _ => rfl) _ _
  · rw [ha, hb, width_countQueryIn_scope]
  · rw [ha, hb, shape?_countQueryIn_scope]

def personsAbove (scope : Nat) (age name : Value) : Query :=
  ((table scope "persons").filter
    (.binary .greater (.column (some (.source ⟨scope, 0⟩)) "age") (.value age))).filter
      (.inList (.column none "name") [.value .null, .value name])

def personsSchema : Schema where
  columns := fun _ => .ok ["id", "name", "age"]
  hasRowId := fun _ => .ok true
  quote := Text.quoteIdentifier

theorem personsAbove_indistinct :
    (personsAbove 3 (.integer 30) (.text "Ann")).SameButValues
      (personsAbove 8 (.text "old") (.blob [1])) ∧
    Indistinct personsSchema (personsAbove 3 (.integer 30) (.text "Ann"))
      (personsAbove 8 (.text "old") (.blob [1])) := by
  have h : (personsAbove 3 (.integer 30) (.text "Ann")).SameButValues
      (personsAbove 8 (.text "old") (.blob [1])) :=
    ⟨(· + 5), fun _ _ => Nat.add_right_cancel, rfl⟩
  exact ⟨h, (indistinct_of_sameButValues h personsSchema).1⟩

end Query

end RelQuery
