import RelQuery.Proofs.Outcome
import RelQuery.Row.Basic

/-!
# Variants at paths

A path of names leads from a view to a variant inside it. What a path leads to in the resolved
variants is one of the shapes of that name, resolved against the same columns.
-/

set_option autoImplicit false

namespace RelQuery

namespace View

def at? (v : View) : List String → Option View
  | [] => some v
  | name :: path =>
    match v.variant? name with
    | some w => w.at? path
    | none => none

theorem lookup_cons (name other : String) (v : View) (variants : List (String × View)) :
    ((name, v) :: variants).lookup other =
      if other = name then some v else variants.lookup other := by
  by_cases h : other = name
  · simp [h]
  · have hne : (other == name) = false := beq_false_of_ne h
    simp [List.lookup_cons, h, hne]

theorem lookup_insertVariant (name : String) (v : View) (variants : List (String × View))
    (other : String) : (insertVariant name v variants).lookup other =
      if other = name then some v else variants.lookup other := by
  induction variants with
  | nil => rw [insertVariant, lookup_cons]
  | cons entry rest ih =>
    obtain ⟨n, w⟩ := entry
    rw [insertVariant]
    split
    · rw [lookup_cons]
    split
    · rename_i heq
      rw [heq, lookup_cons, lookup_cons]
      by_cases h : other = n <;> simp [h]
    · rename_i hne
      rw [lookup_cons, lookup_cons, ih]
      by_cases h : other = n
      · have hon : ¬other = name := fun hname => hne (hname.symm.trans h)
        rw [if_pos h, if_neg hon, if_pos h]
      · rw [if_neg h, if_neg h]

end View

namespace Row

def variantAt? (r : Row) : List String → Option Row
  | [] => some r
  | name :: path =>
    match r.variant? name with
    | some s => s.variantAt? path
    | none => none

theorem variantAt?_adapted (base : Row) (view : View) (path : List String) :
    (Row.adapted base view).variantAt? path = (view.at? path).map (.adapted base ·) := by
  induction path generalizing view with
  | nil => rfl
  | cons name path ih =>
    rw [variantAt?, View.at?, variant?]
    cases view.variant? name with
    | none => rfl
    | some w => exact ih w

end Row

namespace Shape

variable {columns : List String}

theorem resolveVariants_cons {name : String} {shape : Shape} {rest : List (String × Shape)}
    {known views : List (String × View)} :
    resolveVariants columns ((name, shape) :: rest) known = .ok views ↔
      ∃ view, shape.resolve columns = .ok view ∧
        resolveVariants columns rest (View.insertVariant name view known) = .ok views := by
  rw [resolveVariants]
  rcases shape.resolve columns with cause | view
  · exact ⟨nofun, fun ⟨_, h, _⟩ => nomatch h⟩
  · constructor
    · intro h
      exact ⟨view, rfl, h⟩
    · rintro ⟨_, ⟨⟩, h⟩
      exact h

theorem resolve_nested {main : Shape} {variants : List (String × Shape)} {view : View} :
    (nested main variants).resolve columns = .ok view ↔
      ∃ inner, main.resolve columns = .ok inner ∧ view.layout = inner.layout ∧
        resolveVariants columns variants inner.variants = .ok view.variants := by
  rw [resolve]
  rcases main.resolve columns with cause | inner
  · exact ⟨nofun, fun ⟨_, h, _⟩ => nomatch h⟩
  · show (resolveVariants columns variants inner.variants >>= fun all =>
      pure (View.mk inner.layout all)) = _ ↔ _
    constructor
    · intro h
      rcases hall : resolveVariants columns variants inner.variants with cause | all
      · rw [hall] at h
        cases h
      · rw [hall] at h
        cases h
        exact ⟨inner, rfl, rfl, hall⟩
    · rintro ⟨_, ⟨⟩, hl, hv⟩
      rw [hv, ← hl]
      cases view
      rfl

theorem resolveVariants_ok {variants : List (String × Shape)}
    (h : ∀ entry ∈ variants, ∃ view, entry.2.resolve columns = .ok view)
    (known : List (String × View)) :
    ∃ views, resolveVariants columns variants known = .ok views := by
  induction variants generalizing known with
  | nil => exact ⟨known, rfl⟩
  | cons entry rest ih =>
    obtain ⟨name, shape⟩ := entry
    obtain ⟨view, hview⟩ := h (name, shape) List.mem_cons_self
    obtain ⟨views, hviews⟩ := ih (fun e he => h e (List.mem_cons_of_mem _ he))
      (View.insertVariant name view known)
    exact ⟨views, resolveVariants_cons.mpr ⟨view, hview, hviews⟩⟩

theorem of_lookup_resolveVariants {variants : List (String × Shape)}
    {known views : List (String × View)} (h : resolveVariants columns variants known = .ok views)
    {name : String} {view : View} (hl : views.lookup name = some view) :
    known.lookup name = some view ∨
      ∃ shape, (name, shape) ∈ variants ∧ shape.resolve columns = .ok view := by
  induction variants generalizing known with
  | nil =>
    rw [resolveVariants] at h
    cases h
    exact .inl hl
  | cons entry rest ih =>
    obtain ⟨n, shape⟩ := entry
    obtain ⟨w, hshape, hrest⟩ := resolveVariants_cons.mp h
    rcases ih hrest with hknown | ⟨s, hs, hview⟩
    · rw [View.lookup_insertVariant] at hknown
      split at hknown
      · rename_i hname
        cases hknown
        exact .inr ⟨shape, hname ▸ List.mem_cons_self, hshape⟩
      · exact .inl hknown
    · exact .inr ⟨s, List.mem_cons_of_mem _ hs, hview⟩

theorem lookup_resolveVariants {variants : List (String × Shape)}
    {known views : List (String × View)} (h : resolveVariants columns variants known = .ok views)
    {name : String} (hn : (∃ view, known.lookup name = some view) ∨
      ∃ shape, (name, shape) ∈ variants) : ∃ view, views.lookup name = some view := by
  induction variants generalizing known with
  | nil =>
    rw [resolveVariants] at h
    cases h
    rcases hn with hn | ⟨shape, hs⟩
    · exact hn
    · cases hs
  | cons entry rest ih =>
    obtain ⟨n, shape⟩ := entry
    obtain ⟨w, -, hrest⟩ := resolveVariants_cons.mp h
    apply ih hrest
    by_cases hname : name = n
    · have hw : (View.insertVariant n w known).lookup name = some w := by
        simp [View.lookup_insertVariant, hname]
      exact .inl ⟨w, hw⟩
    · rw [View.lookup_insertVariant, if_neg hname]
      rcases hn with hn | ⟨s, hs⟩
      · exact .inl hn
      · rcases List.mem_cons.mp hs with heq | hs
        · cases heq
          exact absurd rfl hname
        · exact .inr ⟨s, hs⟩

theorem resolve_nested_span {start stop : Nat} {variants : List (String × Shape)} {view : View} :
    (nested (.span start stop) variants).resolve columns = .ok view ↔
      spanLayout columns start stop = .ok view.layout ∧
        resolveVariants columns variants [] = .ok view.variants := by
  rw [resolve_nested, resolve]
  rcases spanLayout columns start stop with cause | layout
  · constructor
    · rintro ⟨_, ⟨⟩, -⟩
    · rintro ⟨⟨⟩, -⟩
  · constructor
    · rintro ⟨_, ⟨⟩, hl, hv⟩
      rw [hl]
      exact ⟨rfl, hv⟩
    · rintro ⟨⟨⟩, hv⟩
      exact ⟨⟨view.layout, []⟩, rfl, rfl, hv⟩

theorem resolve_nested_identity {variants : List (String × Shape)} {view : View} :
    (nested .identity variants).resolve columns = .ok view ↔
      spanLayout columns 0 columns.length = .ok view.layout ∧
        resolveVariants columns variants [] = .ok view.variants :=
  resolve_nested_span

end Shape

end RelQuery
