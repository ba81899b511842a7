import RelQuery.Proofs.Row.Spans
import RelQuery.Proofs.Row.Views
import RelQuery.Query.Variants

/-!
# Joins behind a path

A path of names in the resolved variants of a query was made from joins of these names, each from
the target of the one before. Where no two joins from one source share a name, every such chain of
selected joins is found under its path.
-/

set_option autoImplicit false

namespace RelQuery

/-- Joins with the names of a path, each from the target of the one before, the last being `j`. -/
inductive Join.Leads (joins : List Join) : SourceId → List String → Join → Prop
  | last {origin : SourceId} {j : Join} (hj : j ∈ joins) (ho : j.origin = origin) :
    Leads joins origin [j.variant] j
  | step {origin : SourceId} {path : List String} {j k : Join} (hj : j ∈ joins)
    (ho : j.origin = origin) (h : Leads joins j.target path k) :
    Leads joins origin (j.variant :: path) k

theorem Join.Leads.mem {joins : List Join} {origin : SourceId} {path : List String} {j : Join}
    (h : Leads joins origin path j) : j ∈ joins := by
  induction h with
  | last hj _ => exact hj
  | step _ _ _ ih => exact ih

theorem Join.Leads.mono {joins more : List Join} (hsub : ∀ j ∈ joins, j ∈ more)
    {origin : SourceId} {path : List String} {j : Join} (h : Leads joins origin path j) :
    Leads more origin path j := by
  induction h with
  | last hj ho => exact .last (hsub _ hj) ho
  | step hj ho _ ih => exact .step (hsub _ hj) ho ih

namespace Query

variable {q : Query} {sources : Arena (Outcome Nat)} {offsets : List Nat} {columns : List String}

section Joins

variable {inner : SourceId → Outcome (List (String × Shape))} {js : List Join}
  {shapes : List (String × Shape)}

def ShapeOf (sources : Arena (Outcome Nat)) (offsets : List Nat)
    (inner : SourceId → Outcome (List (String × Shape))) (j : Join) (shape : Shape) : Prop :=
  ∃ (start width : Nat) (nested : List (String × Shape)),
    offsets[j.selectionIndex]? = some start ∧ sources.width j.target = .ok width ∧
      inner j.target = .ok nested ∧ shape = .nested (.span start (start + width)) nested

theorem variantsOfJoins_cons {j : Join}
    (h : variantsOfJoins sources offsets inner (j :: js) = .ok shapes) :
    ∃ shape rest, ShapeOf sources offsets inner j shape ∧
      variantsOfJoins sources offsets inner js = .ok rest ∧
        shapes = (j.variant, shape) :: rest := by
  rw [variantsOfJoins] at h
  obtain ⟨start, hstart, h⟩ := Outcome.bind_eq_ok.mp h
  obtain ⟨width, hwidth, h⟩ := Outcome.bind_eq_ok.mp h
  obtain ⟨nested, hnested, h⟩ := Outcome.bind_eq_ok.mp h
  obtain ⟨rest, hrest, h⟩ := Outcome.bind_eq_ok.mp h
  cases h
  exact ⟨_, rest, ⟨start, width, nested, Outcome.element_eq_ok.mp hstart, hwidth, hnested, rfl⟩,
    hrest, rfl⟩

theorem join_of_mem (h : variantsOfJoins sources offsets inner js = .ok shapes) {name : String}
    {shape : Shape} (hs : (name, shape) ∈ shapes) :
    ∃ j ∈ js, j.variant = name ∧ ShapeOf sources offsets inner j shape := by
  induction js generalizing shapes with
  | nil =>
    rw [variantsOfJoins] at h
    cases h
    cases hs
  | cons j js ih =>
    obtain ⟨head, rest, hhead, hrest, rfl⟩ := variantsOfJoins_cons h
    rcases List.mem_cons.mp hs with heq | hs
    · cases heq
      exact ⟨j, List.mem_cons_self, rfl, hhead⟩
    · obtain ⟨k, hk, hname, hshape⟩ := ih hrest hs
      exact ⟨k, List.mem_cons_of_mem j hk, hname, hshape⟩

theorem mem_of_join (h : variantsOfJoins sources offsets inner js = .ok shapes) {j : Join}
    (hj : j ∈ js) : ∃ shape, (j.variant, shape) ∈ shapes := by
  induction js generalizing shapes with
  | nil => cases hj
  | cons k js ih =>
    obtain ⟨head, rest, -, hrest, rfl⟩ := variantsOfJoins_cons h
    rcases List.mem_cons.mp hj with heq | hj
    · rw [heq]
      exact ⟨head, List.mem_cons_self⟩
    · obtain ⟨shape, hs⟩ := ih hrest hj
      exact ⟨shape, List.mem_cons_of_mem _ hs⟩

end Joins

def Selected (q : Query) (origin : SourceId) (j : Join) : Prop :=
  j ∈ q.sources.joins ∧ j.origin = origin ∧ q.stillSelects j = true

theorem mem_selected {origin : SourceId} {j : Join} :
    (j ∈ q.sources.joins.filter fun j => decide (j.origin = origin) && q.stillSelects j) ↔
      q.Selected origin j := by
  simp [Selected]

/-- What a view shows of a row: the columns of the item that a join selected. -/
def Spans (sources : Arena (Outcome Nat)) (offsets : List Nat) (columns : List String) (j : Join)
    (view : View) : Prop :=
  ∃ start width : Nat, offsets[j.selectionIndex]? = some start ∧
    sources.width j.target = .ok width ∧
      Shape.spanLayout columns start (start + width) = .ok view.layout

section Resolved

variable {depth : Nat} {origin : SourceId} {shapes : List (String × Shape)}
  {views : List (String × View)}

theorem depth_of_variantsOf (h : variantsOf q sources offsets depth origin = .ok shapes) :
    ∃ n, depth = n + 1 := by
  cases depth with
  | zero =>
    rw [variantsOf] at h
    cases h
  | succ n => exact ⟨n, rfl⟩

/-- The variants of a query resolve where every selected item ends within the columns. -/
theorem resolve_variantsOf
    (hfits : ∀ (j : Join) (start width : Nat), q.stillSelects j = true →
      offsets[j.selectionIndex]? = some start → sources.width j.target = .ok width →
        start + width ≤ columns.length)
    (h : variantsOf q sources offsets depth origin = .ok shapes) :
    ∃ views, Shape.resolveVariants columns shapes [] = .ok views := by
  induction depth generalizing origin shapes with
  | zero =>
    rw [variantsOf] at h
    cases h
  | succ depth ih =>
    rw [variantsOf] at h
    apply Shape.resolveVariants_ok
    rintro ⟨name, shape⟩ hs
    obtain ⟨j, hj, -, start, width, nested, hstart, hwidth, hnested, rfl⟩ := join_of_mem h hs
    obtain ⟨-, -, hstill⟩ := mem_selected.mp hj
    obtain ⟨inside, hinside⟩ := ih hnested
    have hlayout := Row.spanLayout_eq_ok.mpr ⟨⟨Nat.le_add_right start width,
      hfits j start width hstill hstart hwidth⟩, rfl⟩
    exact ⟨⟨_, inside⟩, Shape.resolve_nested_span.mpr ⟨hlayout, hinside⟩⟩

theorem selected_of_lookup (h : variantsOf q sources offsets (depth + 1) origin = .ok shapes)
    (hr : Shape.resolveVariants columns shapes [] = .ok views) {name : String} {view : View}
    (hl : views.lookup name = some view) :
    ∃ j, q.Selected origin j ∧ j.variant = name ∧ Spans sources offsets columns j view ∧
      ∃ nested, variantsOf q sources offsets depth j.target = .ok nested ∧
        Shape.resolveVariants columns nested [] = .ok view.variants := by
  rw [variantsOf] at h
  rcases Shape.of_lookup_resolveVariants hr hl with hnil | ⟨shape, hs, hview⟩
  · cases hnil
  · obtain ⟨j, hj, hname, start, width, nested, hstart, hwidth, hnested, rfl⟩ := join_of_mem h hs
    obtain ⟨hlayout, hinside⟩ := Shape.resolve_nested_span.mp hview
    exact ⟨j, mem_selected.mp hj, hname, ⟨start, width, hstart, hwidth, hlayout⟩, nested, hnested,
      hinside⟩

theorem lookup_of_selected (h : variantsOf q sources offsets (depth + 1) origin = .ok shapes)
    (hr : Shape.resolveVariants columns shapes [] = .ok views) {j : Join}
    (hj : q.Selected origin j) : ∃ view, views.lookup j.variant = some view := by
  rw [variantsOf] at h
  exact Shape.lookup_resolveVariants hr (.inr (mem_of_join h (mem_selected.mpr hj)))

variable {view : View}

/-- What a path leads to spans the columns of the last of a chain of joins with its names. -/
theorem leads_of_at? {path : List String} (hp : path ≠ [])
    (h : variantsOf q sources offsets depth origin = .ok shapes)
    (hr : Shape.resolveVariants columns shapes [] = .ok view.variants) {w : View}
    (hw : view.at? path = some w) :
    ∃ j, Join.Leads q.sources.joins origin path j ∧ q.stillSelects j = true ∧
      Spans sources offsets columns j w := by
  induction path generalizing depth origin shapes view with
  | nil => exact absurd rfl hp
  | cons name path ih =>
    obtain ⟨n, rfl⟩ := depth_of_variantsOf h
    rw [View.at?] at hw
    cases hv : view.variant? name with
    | none =>
      rw [hv] at hw
      cases hw
    | some v =>
      rw [hv] at hw
      obtain ⟨j, ⟨hj, ho, hstill⟩, rfl, hspans, nested, hnested, hinside⟩ :=
        selected_of_lookup h hr hv
      cases path with
      | nil =>
        cases hw
        exact ⟨j, .last hj ho, hstill, hspans⟩
      | cons next path =>
        obtain ⟨k, hk, hkstill, hkspans⟩ := ih (List.cons_ne_nil next path) hnested hinside hw
        exact ⟨k, .step hj ho hk, hkstill, hkspans⟩

/-- No two joins from one source share a name. -/
def JoinsApart (joins : List Join) : Prop :=
  ∀ j ∈ joins, ∀ k ∈ joins, j.origin = k.origin → j.variant = k.variant → j = k

theorem view_of_join (hstill : ∀ j ∈ q.sources.joins, q.stillSelects j = true)
    (hapart : JoinsApart q.sources.joins) {j : Join} (hj : j ∈ q.sources.joins)
    (ho : j.origin = origin) (h : variantsOf q sources offsets depth origin = .ok shapes)
    (hr : Shape.resolveVariants columns shapes [] = .ok view.variants) :
    ∃ w n nested, view.variant? j.variant = some w ∧ Spans sources offsets columns j w ∧
      variantsOf q sources offsets n j.target = .ok nested ∧
        Shape.resolveVariants columns nested [] = .ok w.variants := by
  obtain ⟨n, rfl⟩ := depth_of_variantsOf h
  obtain ⟨w, hw⟩ := lookup_of_selected h hr ⟨hj, ho, hstill j hj⟩
  obtain ⟨k, ⟨hk, hko, -⟩, hname, hspans, nested, hnested, hinside⟩ := selected_of_lookup h hr hw
  have hjk : k = j := hapart k hk j hj (hko.trans ho.symm) hname
  rw [hjk] at hspans hnested
  exact ⟨w, n, nested, hw, hspans, hnested, hinside⟩

theorem at?_of_leads (hstill : ∀ j ∈ q.sources.joins, q.stillSelects j = true)
    (hapart : JoinsApart q.sources.joins) {path : List String} {j : Join}
    (hleads : Join.Leads q.sources.joins origin path j)
    (h : variantsOf q sources offsets depth origin = .ok shapes)
    (hr : Shape.resolveVariants columns shapes [] = .ok view.variants) :
    ∃ w, view.at? path = some w ∧ Spans sources offsets columns j w := by
  induction hleads generalizing depth shapes view with
  | @last origin k hj ho =>
    obtain ⟨w, n, nested, hw, hspans, -, -⟩ := view_of_join hstill hapart hj ho h hr
    have hat : view.at? [k.variant] = some w := by
      rw [View.at?, hw]
      rfl
    exact ⟨w, hat, hspans⟩
  | @step origin path k m hj ho _ ih =>
    obtain ⟨v, n, nested, hv, -, hnested, hinside⟩ := view_of_join hstill hapart hj ho h hr
    obtain ⟨w, hw, hspans⟩ := ih hnested hinside
    have hat : view.at? (k.variant :: path) = some w := by
      rw [View.at?, hv]
      exact hw
    exact ⟨w, hat, hspans⟩

end Resolved

end Query

end RelQuery
