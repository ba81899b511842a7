import RelQuery.Proofs.Outcome
import RelQuery.Row.Basic

/-!
# Entries of a span

A row under the layout of a span lists the columns of the span with their values, and nothing
else of its base.
-/

set_option autoImplicit false

namespace RelQuery.Row

variable {columns : List String} {values : List Value}

/-- A row as an engine gives it, on its cursor or copied from it. -/
inductive Base (columns : List String) (values : List Value) : Row → Prop
  | live : Base columns values (.live values columns)
  | detached : Base columns values (.detached values columns)

theorem Base.copy {base : Row} (h : Base columns values base) : Base columns values base.copy := by
  cases h <;> exact .detached

theorem Base.columnNames_eq {base : Row} (h : Base columns values base) :
    base.columnNames = columns := by
  cases h <;> rfl

theorem Base.stored_eq {base : Row} (h : Base columns values base) (i : Nat) :
    base.stored i = Outcome.element values i := by
  cases h <;> rfl

theorem valuesFrom_eq {r : Row} {xs : List Value} {k : Nat}
    (h : ∀ (i : Nat) (v : Value), xs[i]? = some v → r.value (k + i) = .ok v) :
    r.valuesFrom xs.length k = .ok xs := by
  induction xs generalizing k with
  | nil => rfl
  | cons x xs ih =>
    have hx : r.value k = .ok x := h 0 x rfl
    have hrest : r.valuesFrom xs.length (k + 1) = .ok xs := by
      apply ih
      intro i v hv
      rw [Nat.add_assoc, Nat.add_comm 1 i]
      exact h (i + 1) v hv
    rw [List.length_cons, valuesFrom, hx]
    show (r.valuesFrom xs.length (k + 1) >>= fun vs => pure (x :: vs)) = _
    rw [hrest]
    rfl

theorem values_eq {r : Row} {xs : List Value} (hlen : r.length = xs.length)
    (h : ∀ (i : Nat) (v : Value), xs[i]? = some v → r.stored i = .ok v) : r.values = .ok xs := by
  rw [values, hlen]
  apply valuesFrom_eq
  intro i v hv
  have hi : i < r.length := by
    rw [hlen]
    exact (List.getElem?_eq_some_iff.mp hv).1
  rw [Nat.zero_add, value, tryValue, if_pos hi, h i v hv]
  rfl

section Span

variable {start stop : Nat} {layout : Layout}

theorem spanLayout_eq_ok : Shape.spanLayout columns start stop = .ok layout ↔
    (start ≤ stop ∧ stop ≤ columns.length) ∧
      layout.columns = ((columns.zipIdx.drop start).take (stop - start)).map
        fun (name, i) => (i, name) := by
  rw [Shape.spanLayout]
  split
  · rename_i hout
    constructor
    · intro h
      cases h
    · rintro ⟨hin, -⟩
      omega
  · rename_i hin
    constructor
    · intro h
      cases h
      exact ⟨by omega, rfl⟩
    · rintro ⟨-, hl⟩
      cases layout
      cases hl
      rfl

theorem names_of_span (h : Shape.spanLayout columns start stop = .ok layout) :
    layout.names = (columns.drop start).take (stop - start) := by
  obtain ⟨-, hl⟩ := spanLayout_eq_ok.mp h
  rw [Layout.names, hl, List.map_map, List.map_take, List.map_drop]
  show ((columns.zipIdx.map Prod.fst).drop start).take (stop - start) = _
  rw [List.zipIdx_map_fst]

theorem baseIndex_of_span (h : Shape.spanLayout columns start stop = .ok layout) {i : Nat}
    (hi : i < stop - start) : layout.baseIndex i = .ok (start + i) := by
  obtain ⟨hbounds, hl⟩ := spanLayout_eq_ok.mp h
  have hlt : start + i < columns.length := by omega
  have hcolumn : layout.columns[i]? = some (start + i, columns[start + i]) := by
    simp [hl, hi, hlt]
  rw [Layout.baseIndex, Outcome.element, hcolumn]
  rfl

/-- The entries of a row under a span are those of its base from `start` up to `stop`. -/
theorem entries_of_span (hlen : values.length = columns.length) {base : Row}
    (hbase : Base columns values base) {view : View}
    (h : Shape.spanLayout columns start stop = .ok view.layout) :
    (Row.adapted base view).entries =
      .ok (((columns.zip values).drop start).take (stop - start)) := by
  have hnames : (Row.adapted base view).columnNames = (columns.drop start).take (stop - start) :=
    names_of_span h
  obtain ⟨hbounds, -⟩ := spanLayout_eq_ok.mp h
  have hvalues : (Row.adapted base view).values =
      .ok ((values.drop start).take (stop - start)) := by
    apply values_eq
    · rw [length, hnames]
      simp [hlen]
    · intro i v hv
      have hi : i < stop - start := by
        have hlt := (List.getElem?_eq_some_iff.mp hv).1
        rw [List.length_take] at hlt
        omega
      have hj : start + i < base.length := by
        rw [length, hbase.columnNames_eq]
        omega
      rw [stored, baseIndex_of_span h hi]
      show (if start + i < base.length then base.stored (start + i) else _) = _
      rw [if_pos hj, hbase.stored_eq, Outcome.element_eq_ok]
      rw [List.getElem?_take_of_lt hi, List.getElem?_drop] at hv
      exact hv
  rw [entries, hvalues, hnames]
  simp [Except.map, List.zip_eq_zipWith, List.take_zipWith, List.drop_zipWith]

end Span

end RelQuery.Row
