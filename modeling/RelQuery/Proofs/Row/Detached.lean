import RelQuery.Proofs.Row.Observed
import RelQuery.Row.Access

/-!
# Detached rows

A copy is a row of its own that no accessor tells from the row it was made of. Copying changes the
base under the views and leaves the views, a variant changes the view and leaves the base, so the
two are exchanged along every path of variant names.
-/

set_option autoImplicit false

namespace RelQuery.Row

/-- Two rows give the same to every accessor, failures included. -/
structure ReadsAs (r s : Row) : Prop where
  length : r.length = s.length
  isEmpty : r.isEmpty = s.isEmpty
  columnNames : r.columnNames = s.columnNames
  columnName (i : Nat) : r.columnName i = s.columnName i
  indexOf? (name : String) : r.indexOf? name = s.indexOf? name
  hasColumn (name : String) : r.hasColumn name = s.hasColumn name
  tryValue (i : Nat) : r.tryValue i = s.tryValue i
  value (i : Nat) : r.value i = s.value i
  valueNamed? (name : String) : r.valueNamed? name = s.valueNamed? name
  tryGet (α : Type) [OfValue α] (i : Nat) : r.tryGet α i = s.tryGet α i
  get (α : Type) [OfValue α] (i : Nat) : r.get α i = s.get α i
  get? (α : Type) [OfValue α] (i : Nat) : r.get? α i = s.get? α i
  tryGetNamed (α : Type) [OfValue α] (name : String) : r.tryGetNamed α name = s.tryGetNamed α name
  getNamed (α : Type) [OfValue α] (name : String) : r.getNamed α name = s.getNamed α name
  getNamed? (α : Type) [OfValue α] (name : String) : r.getNamed? α name = s.getNamed? α name
  blob? (i : Nat) : r.blob? i = s.blob? i
  values : r.values = s.values
  entries : r.entries = s.entries
  display : r.display = s.display
  variantNames : r.variantNames = s.variantNames

variable {r s : Row}

/-- Every accessor goes through the columns, the index of a name and the stored values. -/
theorem readsAs_of_interchangeable (h : r.Interchangeable s)
    (hindex : ∀ name, r.indexOf? name = s.indexOf? name)
    (hvariants : r.variantNames = s.variantNames) : r.ReadsAs s := by
  have hlength : r.length = s.length := congrArg List.length h.names
  have hvalue (i : Nat) : r.value i = s.value i := by
    rw [value, value, h.tryValue]
  have htryGet (α : Type) [OfValue α] (i : Nat) : r.tryGet α i = s.tryGet α i := by
    rw [tryGet, tryGet, h.tryValue]
  have hget? (α : Type) [OfValue α] (i : Nat) : r.get? α i = s.get? α i := by
    rw [get?, get?, htryGet]
  have htryNamed (α : Type) [OfValue α] (name : String) :
      r.tryGetNamed α name = s.tryGetNamed α name := by
    simp only [tryGetNamed, hindex, htryGet]
  exact {
    length := hlength
    isEmpty := by rw [isEmpty, isEmpty, hlength]
    columnNames := h.names
    columnName := fun i => by rw [columnName, columnName, h.names, hlength]
    indexOf? := hindex
    hasColumn := fun name => by rw [hasColumn, hasColumn, hindex]
    tryValue := h.tryValue
    value := hvalue
    valueNamed? := fun name => by simp only [valueNamed?, hindex, hvalue]
    tryGet := htryGet
    get := fun α _ i => by rw [get, get, htryGet]
    get? := hget?
    tryGetNamed := htryNamed
    getNamed := fun α _ name => by rw [getNamed, getNamed, htryNamed]
    getNamed? := fun α _ name => by simp only [getNamed?, hindex, hget?]
    blob? := fun i => by rw [blob?, blob?, hvalue]
    values := h.values
    entries := h.entries
    display := by rw [display, display, h.entries]
    variantNames := hvariants }

theorem isLive_copy (r : Row) : r.copy.isLive = false := by
  induction r with
  | live | detached | literal => rfl
  | adapted _ _ ih => exact ih

theorem readsAs_copy (r : Row) : r.copy.ReadsAs r := by
  refine readsAs_of_interchangeable (interchangeable_copy r) (fun name => ?_) ?_
  · cases r <;> rfl
  · cases r <;> rfl

theorem equals_of_tree (hr : r.Sound) (hs : s.Sound) (h : r.tree = s.tree) :
    r.equals s = .ok true := by
  obtain ⟨b, hb, htree⟩ := equals_eq hr hs
  rw [hb, htree.mpr h]

theorem variant?_copy (r : Row) (name : String) :
    r.copy.variant? name = (r.variant? name).map copy := by
  cases r with
  | live | detached | literal => rfl
  | adapted base view =>
    rw [copy, variant?, variant?, Option.map_map]
    rfl

theorem variantAt?_copy (r : Row) (path : List String) :
    r.copy.variantAt? path = (r.variantAt? path).map copy := by
  induction path generalizing r with
  | nil => rfl
  | cons name path ih =>
    rw [variantAt?, variantAt?, variant?_copy]
    cases r.variant? name with
    | none => rfl
    | some s => exact ih s

theorem Sound.variantAt (hr : r.Sound) {path : List String} (hs : r.variantAt? path = some s) :
    s.Sound := by
  induction path generalizing r with
  | nil =>
    cases hs
    exact hr
  | cons name path ih =>
    rw [variantAt?] at hs
    split at hs
    · rename_i t ht
      exact ih (hr.variant ht) hs
    · cases hs

/-- A copy is detached, equals its row and reads as it; the variants of the copy are the copies of
the variants, at every path. -/
theorem copy_unobservable (hr : r.Sound) :
    r.copy.isLive = false ∧ r.copy.equals r = .ok true ∧ r.copy.ReadsAs r ∧
    ∀ path, (r.copy.variantAt? path).isSome = (r.variantAt? path).isSome ∧
      ∀ s, r.variantAt? path = some s → ∃ t, r.copy.variantAt? path = some t ∧
        t.isLive = false ∧ t.equals s.copy = .ok true ∧ t.equals s = .ok true ∧ t.ReadsAs s := by
  refine ⟨isLive_copy r, equals_of_tree hr.copy hr (tree_copy r), readsAs_copy r, ?_⟩
  refine fun path => ⟨?_, ?_⟩
  · rw [variantAt?_copy, Option.isSome_map]
  · intro s hs
    have hsound : s.Sound := hr.variantAt hs
    refine ⟨s.copy, ?_, isLive_copy s, equals_of_tree hsound.copy hsound.copy rfl,
      equals_of_tree hsound.copy hsound (tree_copy s), readsAs_copy s⟩
    rw [variantAt?_copy, hs]
    rfl

/-- A view of the columns from the second on, with the last column as a variant of it. -/
def endings : Shape :=
  .nested .identity [("rest", .nested (.suffix 1) [("last", .suffix 2)])]

/-- The engine's row of three columns, seen in full and through `endings`. -/
theorem endings_copied : ∃ a r : Row,
    (Row.live [.integer 1, .text "m", .null] ["id", "unit", "note"]).adapt .identity = .ok a ∧
      a.adapt endings = .ok r ∧ r.isLive = true ∧ r.copy.isLive = false ∧
      r.copy.equals r = .ok true ∧ ∃ s t : Row, r.variantAt? ["rest", "last"] = some s ∧
        r.copy.variantAt? ["rest", "last"] = some t ∧ s.isLive = true ∧ t.isLive = false ∧
        t.equals s.copy = .ok true ∧ t.columnNames = ["note"] := by
  have hlive : (Row.live [.integer 1, .text "m", .null] ["id", "unit", "note"]).Made :=
    .live (Nat.le_refl 3)
  obtain ⟨a, ha⟩ : ∃ a, (Row.live [.integer 1, .text "m", .null] ["id", "unit", "note"]).adapt
      .identity = .ok a := ⟨_, rfl⟩
  obtain ⟨r, hr⟩ : ∃ r, a.adapt endings = .ok r := by
    cases ha
    exact ⟨_, rfl⟩
  obtain ⟨s, hs⟩ : ∃ s, r.variantAt? ["rest", "last"] = some s := by
    cases ha
    cases hr
    exact ⟨_, rfl⟩
  have hmade : r.Made := .adapt (.adapt hlive ha) hr
  obtain ⟨hdetached, hequal, -, hvariants⟩ := copy_unobservable hmade.sound
  obtain ⟨t, ht, htdetached, htequal, -, hreads⟩ := (hvariants ["rest", "last"]).2 s hs
  refine ⟨a, r, ha, hr, ?_, hdetached, hequal, s, t, hs, ht, ?_, htdetached, htequal, ?_⟩
  · cases ha
    cases hr
    rfl
  · cases ha
    cases hr
    cases hs
    rfl
  · rw [hreads.columnNames]
    cases ha
    cases hr
    cases hs
    rfl

end RelQuery.Row
