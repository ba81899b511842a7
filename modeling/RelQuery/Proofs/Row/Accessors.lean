import RelQuery.Proofs.Row.Detached
import RelQuery.Proofs.Row.Names

/-!
# Accessors of rows that can be made

An accessor compares an index with the length of its row, and the value is read through chained
base indexes of other rows. Every view fits the row below it, so that the read ends in a value, and
what is left to fail is told: an index past the last column, an absent name, a value of another
type.
-/

set_option autoImplicit false

namespace RelQuery.Row

variable {r s : Row}

def GivesUp (f : Failure) : Prop :=
  ∃ cause, f = .gaveUp cause

theorem trusted_failsOnly {α : Type} {o : Outcome α} (h : o.FailsOnly Failure.IsRefusal) :
    o.trusted.FailsOnly GivesUp := by
  rcases o with f | a
  · obtain ⟨cause, rfl⟩ := h f rfl
    exact Outcome.failsOnly_error ⟨cause, rfl⟩
  · exact Outcome.failsOnly_ok a

theorem present_failsOnly {α : Type} [OfValue α] {o : Outcome (Option α)}
    (h : o.FailsOnly Failure.IsRefusal) : (present α o).FailsOnly GivesUp := by
  refine (trusted_failsOnly h).bind fun a _ => ?_
  cases a with
  | none => exact Outcome.failsOnly_error ⟨_, rfl⟩
  | some a => exact Outcome.failsOnly_ok a

theorem decode?_failsOnly (α : Type) [OfValue α] (v : Value) :
    (decode? α v).FailsOnly (· = .refused (.notConvertible v (OfValue.typeName α))) := by
  rw [decode?]
  split
  · exact Outcome.failsOnly_ok _
  split
  · exact Outcome.failsOnly_ok _
  · exact Outcome.failsOnly_error rfl

theorem indexOf?_lt {name : String} {i : Nat} (h : r.indexOf? name = some i) : i < r.length :=
  (indexOf?_eq_some_iff.mp h).lt

theorem columnName_eq {i : Nat} (hi : i < r.length) : r.columnName i = .ok r.columnNames[i] := by
  rw [columnName, List.getElem?_eq_getElem hi]

theorem Sound.tryValue (h : r.Sound) {i : Nat} (hi : i < r.length) :
    ∃ v, r.tryValue i = .ok v := by
  rw [Row.tryValue, if_pos hi]
  exact h.stored hi

theorem tryValue_eq_error {i : Nat} (hi : r.length ≤ i) :
    r.tryValue i = .error (.refused (.indexOutOfRange i r.length)) := by
  rw [Row.tryValue, if_neg (Nat.not_lt_of_le hi)]

theorem Sound.tryValue_failsOnly (h : r.Sound) (i : Nat) :
    (r.tryValue i).FailsOnly Failure.IsRefusal := by
  by_cases hi : i < r.length
  · exact Outcome.failsOnly_of_exists (h.tryValue hi)
  · rw [tryValue_eq_error (Nat.le_of_not_lt hi)]
    exact Outcome.failsOnly_error (Failure.isRefusal_refused _)

/-- What the fallible accessor of an index says: there is no such column, or its value is of
another type. -/
inductive Refuses (r : Row) (α : Type) [OfValue α] (i : Nat) : Failure → Prop
  | range (h : r.length ≤ i) : Refuses r α i (.refused (.indexOutOfRange i r.length))
  | conversion {v : Value} (h : r.tryValue i = .ok v) :
    Refuses r α i (.refused (.notConvertible v (OfValue.typeName α)))

theorem Refuses.isRefusal {α : Type} [OfValue α] {i : Nat} {f : Failure} (h : r.Refuses α i f) :
    f.IsRefusal := by
  cases h with
  | range | conversion => exact Failure.isRefusal_refused _

/-- What the fallible accessor of a name says: it is absent, or its value is of another type. -/
inductive RefusesNamed (r : Row) (α : Type) [OfValue α] (name : String) : Failure → Prop
  | absent (h : r.indexOf? name = none) : RefusesNamed r α name (.refused (.missingColumn name))
  | conversion {i : Nat} {v : Value} (hi : r.indexOf? name = some i) (h : r.tryValue i = .ok v) :
    RefusesNamed r α name (.refused (.notConvertible v (OfValue.typeName α)))

theorem RefusesNamed.isRefusal {α : Type} [OfValue α] {name : String} {f : Failure}
    (h : r.RefusesNamed α name f) : f.IsRefusal := by
  cases h with
  | absent | conversion => exact Failure.isRefusal_refused _

theorem Sound.tryGet_failsOnly (h : r.Sound) (α : Type) [OfValue α] (i : Nat) :
    (r.tryGet α i).FailsOnly (r.Refuses α i) := by
  by_cases hi : i < r.length
  · obtain ⟨v, hv⟩ := h.tryValue hi
    refine (Outcome.failsOnly_of_exists ⟨v, hv⟩).bind fun w hw => ?_
    refine (decode?_failsOnly α w).mono ?_
    rintro _ rfl
    exact .conversion hw
  · have hlen := Nat.le_of_not_lt hi
    rw [tryGet, tryValue_eq_error hlen]
    exact Outcome.failsOnly_error (.range hlen)

theorem Sound.tryGetNamed_failsOnly (h : r.Sound) (α : Type) [OfValue α] (name : String) :
    (r.tryGetNamed α name).FailsOnly (r.RefusesNamed α name) := by
  rw [tryGetNamed]
  split
  · rename_i i hi
    refine (h.tryGet_failsOnly α i).mono fun f hf => ?_
    cases hf with
    | range hlen => exact absurd (indexOf?_lt hi) (Nat.not_lt_of_le hlen)
    | conversion hv => exact .conversion hi hv
  · rename_i hi
    exact Outcome.failsOnly_error (.absent hi)

/-- No accessor of a row stops at an index that nothing has checked. The fallible accessors say what
they refuse, and the trusting ones give up with it. -/
structure Readable (r : Row) : Prop where
  inside (i : Nat) (hi : i < r.length) : ∃ v, r.tryValue i = .ok v
  outside (i : Nat) (hi : r.length ≤ i) :
    r.tryValue i = .error (.refused (.indexOutOfRange i r.length))
  index (name : String) (i : Nat) (h : r.indexOf? name = some i) : i < r.length
  columnName (i : Nat) (hi : i < r.length) :
    ∃ name, r.columnNames[i]? = some name ∧ r.columnName i = .ok name
  values : ∃ values, r.values = .ok values ∧ values.length = r.length
  entries : ∃ entries, r.entries = .ok entries ∧ entries.length = r.length
  display : ∃ text, r.display = .ok text
  valueNamed? (name : String) : ∃ v?, r.valueNamed? name = .ok v?
  tryGet (α : Type) [OfValue α] (i : Nat) : (r.tryGet α i).FailsOnly (r.Refuses α i)
  tryGetNamed (α : Type) [OfValue α] (name : String) :
    (r.tryGetNamed α name).FailsOnly (r.RefusesNamed α name)
  value (i : Nat) : (r.value i).FailsOnly GivesUp
  blob? (i : Nat) : (r.blob? i).FailsOnly GivesUp
  get (α : Type) [OfValue α] (i : Nat) : (r.get α i).FailsOnly GivesUp
  get? (α : Type) [OfValue α] (i : Nat) : (r.get? α i).FailsOnly GivesUp
  getNamed (α : Type) [OfValue α] (name : String) : (r.getNamed α name).FailsOnly GivesUp
  getNamed? (α : Type) [OfValue α] (name : String) : (r.getNamed? α name).FailsOnly GivesUp

theorem Sound.readable (h : r.Sound) : r.Readable := by
  obtain ⟨entries, hentries⟩ := h.lists
  have hvalue (i : Nat) : (r.value i).FailsOnly GivesUp :=
    trusted_failsOnly (h.tryValue_failsOnly i)
  have hget? (α : Type) [OfValue α] (i : Nat) : (r.get? α i).FailsOnly GivesUp :=
    trusted_failsOnly ((h.tryGet_failsOnly α i).mono fun _ => Refuses.isRefusal)
  exact {
    inside := fun _ => h.tryValue
    outside := fun _ => tryValue_eq_error
    index := fun _ _ => indexOf?_lt
    columnName := fun i hi => ⟨_, List.getElem?_eq_getElem hi, columnName_eq hi⟩
    values := ⟨_, hentries.values_eq, by rw [List.length_map, hentries.length]⟩
    entries := ⟨_, hentries.entries_eq, hentries.length.symm⟩
    display := ⟨_, by rw [Row.display, hentries.entries_eq]; rfl⟩
    valueNamed? := fun name => by
      rw [Row.valueNamed?]
      split
      · rename_i i hi
        obtain ⟨v, hv⟩ := h.tryValue (indexOf?_lt hi)
        exact ⟨some v, by rw [Row.value, hv]; rfl⟩
      · exact ⟨none, rfl⟩
    tryGet := h.tryGet_failsOnly
    tryGetNamed := h.tryGetNamed_failsOnly
    value := hvalue
    blob? := fun i => (hvalue i).map _
    get := fun α _ i => present_failsOnly ((h.tryGet_failsOnly α i).mono fun _ => Refuses.isRefusal)
    get? := hget?
    getNamed := fun α _ name =>
      present_failsOnly ((h.tryGetNamed_failsOnly α name).mono fun _ => RefusesNamed.isRefusal)
    getNamed? := fun α _ name => by
      rw [Row.getNamed?]
      split
      · exact hget? α _
      · exact Outcome.failsOnly_ok _ }

theorem Made.variantAt (hr : r.Made) {path : List String} (hs : r.variantAt? path = some s) :
    s.Made := by
  induction path generalizing r with
  | nil =>
    cases hs
    exact hr
  | cons name path ih =>
    rw [variantAt?] at hs
    split at hs
    · rename_i t ht
      exact ih (.variant hr ht) hs
    · cases hs

theorem length_adapted (base : Row) (view : View) :
    (Row.adapted base view).length = view.layout.length :=
  List.length_map _

theorem tryValue_adapted {base : Row} {view : View} (hview : view.Sound base.length) {i : Nat}
    (hi : i < view.layout.length) : ∃ j, view.layout.baseIndex i = .ok j ∧ j < base.length ∧
      (Row.adapted base view).tryValue i = base.tryValue j := by
  obtain ⟨layout, variants⟩ := view
  cases hview with
  | mk indexes _ _ =>
    have hbase : layout.baseIndex i = .ok layout.columns[i].1 :=
      Outcome.map_eq_ok.mpr ⟨_, Outcome.element_eq_ok.mpr (List.getElem?_eq_getElem hi), rfl⟩
    have hj : layout.columns[i].1 < base.length := indexes _ (List.getElem_mem hi)
    refine ⟨_, hbase, hj, ?_⟩
    rw [tryValue, length_adapted, if_pos hi, tryValue, if_pos hj, stored, hbase]
    show (if _ then _ else _) = _
    rw [if_pos hj]

/-- Every accessor of a row that can be made ends well, and reads through a path of variants what
the row below has at the base index that the view at the path gives. -/
theorem accessors_of_made (hr : r.Made) :
    r.Readable ∧
    (∀ s : Row, s.Made → ∀ identical : Bool, ∃ b, r.same identical s = .ok b) ∧
    ∀ (path : List String) (s : Row), r.variantAt? path = some s → s.Made ∧
      ∀ (base : Row) (view : View), r = .adapted base view →
        ∃ inner, view.at? path = some inner ∧ s = .adapted base inner ∧
          ∀ i < s.length, ∃ j, inner.layout.baseIndex i = .ok j ∧ j < base.length ∧
            s.tryValue i = base.tryValue j := by
  refine ⟨hr.sound.readable, ?_, fun path s hs => ⟨hr.variantAt hs, ?_⟩⟩
  · intro s hs identical
    cases identical with
    | true => exact ⟨true, rfl⟩
    | false =>
      obtain ⟨b, hb, -⟩ := equals_eq hr.sound hs.sound
      exact ⟨b, hb⟩
  · rintro base view rfl
    have hsound := (hr.variantAt hs).sound
    rw [variantAt?_adapted] at hs
    obtain ⟨inner, hinner, rfl⟩ := Option.map_eq_some_iff.mp hs
    refine ⟨inner, hinner, rfl, fun i hi => ?_⟩
    cases hsound with
    | adapted _ hview => exact tryValue_adapted hview (length_adapted base inner ▸ hi)

/-- The last of the engine's three columns, read through a variant of a variant of a copied view. -/
theorem endings_readable : ∃ a r s : Row,
    (Row.live [.integer 1, .text "m", .text "spare"] ["id", "unit", "note"]).adapt
        .identity = .ok a ∧
      a.adapt endings = .ok r ∧ r.copy.variantAt? ["rest", "last"] = some s ∧ s.Readable ∧
      s.tryValue 0 = .ok (.text "spare") ∧ s.tryValue 0 = a.copy.tryValue 2 ∧
      s.tryValue 1 = .error (.refused (.indexOutOfRange 1 1)) ∧
      ∃ b, s.same false r = .ok b := by
  have hlive : (Row.live [.integer 1, .text "m", .text "spare"] ["id", "unit", "note"]).Made :=
    .live (Nat.le_refl 3)
  obtain ⟨a, ha⟩ : ∃ a, (Row.live [.integer 1, .text "m", .text "spare"]
      ["id", "unit", "note"]).adapt .identity = .ok a := ⟨_, rfl⟩
  obtain ⟨r, hr⟩ : ∃ r, a.adapt endings = .ok r := by
    cases ha
    exact ⟨_, rfl⟩
  have hmade : r.Made := .adapt (.adapt hlive ha) hr
  obtain ⟨s, hs⟩ : ∃ s, r.copy.variantAt? ["rest", "last"] = some s := by
    cases ha
    cases hr
    exact ⟨_, rfl⟩
  obtain ⟨-, -, hpaths⟩ := accessors_of_made hmade.copy
  obtain ⟨hvariant, hthrough⟩ := hpaths ["rest", "last"] s hs
  obtain ⟨hreadable, hsame, -⟩ := accessors_of_made hvariant
  refine ⟨a, r, s, ha, hr, hs, hreadable, ?_, ?_, ?_, hsame r hmade false⟩
  · cases ha
    cases hr
    cases hs
    rfl
  · cases ha
    cases hr
    obtain ⟨inner, hinner, -, hread⟩ := hthrough _ _ rfl
    cases hinner
    cases hs
    obtain ⟨j, hj, -, hvalue⟩ := hread 0 (by decide)
    cases hj
    exact hvalue
  · cases ha
    cases hr
    cases hs
    exact hreadable.outside 1 (Nat.le_refl 1)

end RelQuery.Row
