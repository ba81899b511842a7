import RelQuery.Proofs.Row.Accessors
import RelQuery.Proofs.Row.Resolution

/-!
# Shapes of shaped rows

A row under a shape can be put under another shape, which is resolved against the columns that the
first one exposes. A read then goes through both base indexes, and the variants are those of the
second shape alone. Of two spans, one after the other, there is one span that shows the same.
-/

set_option autoImplicit false

namespace RelQuery.Row

variable {r s t u : Row}

/-- The columns that a row lists, with the values of the row below the one that exposes columns to
it. -/
structure Through (r : Row) (exposed columns : List (Nat × String)) (t : Row) : Prop where
  length : t.length = columns.length
  name (i : Nat) (column : Nat × String) (h : columns[i]? = some column) :
    t.columnName i = .ok column.2
  value (i : Nat) (column : Nat × String) (h : columns[i]? = some column) :
    ∃ base, exposed[column.1]? = some base ∧ base.1 < r.length ∧ t.tryValue i = r.tryValue base.1

/-- Under a path stands nothing, or a shape, resolved against the exposed columns alone, and the row
that shows through both what the shape exposes of them. -/
inductive Composed (r : Row) (exposed : List (Nat × String)) : Option Shape → Option Row → Prop
  | none : Composed r exposed none none
  | some {shape : Shape} {view : View} {columns : List (Nat × String)} {t : Row}
    (resolves : shape.resolve (exposed.map (·.2)) = .ok view)
    (exposes : shape.Exposes (exposed.map (·.2)) columns) (shows : Through r exposed columns t) :
    Composed r exposed (some shape) (some t)

theorem read_adapted {base : Row} {view : View} (hview : view.Sound base.length) {i : Nat}
    {column : Nat × String} (h : view.layout.columns[i]? = some column) :
    (Row.adapted base view).columnName i = .ok column.2 ∧ column.1 < base.length ∧
      (Row.adapted base view).tryValue i = base.tryValue column.1 := by
  obtain ⟨hi, rfl⟩ := List.getElem?_eq_some_iff.mp h
  obtain ⟨j, hj, hlt, hvalue⟩ := tryValue_adapted hview hi
  rw [Layout.baseIndex, Outcome.element, h] at hj
  cases hj
  refine ⟨?_, hlt, hvalue⟩
  have hname : i < (Row.adapted base view).columnNames.length := by
    simpa [columnNames, Layout.names] using hi
  rw [columnName_eq hname]
  simp [columnNames, Layout.names]

theorem through_adapted {inner view : View} (hinner : inner.Sound r.length)
    (hview : view.Sound (Row.adapted r inner).length) :
    Through r inner.layout.columns view.layout.columns (.adapted (.adapted r inner) view) := by
  refine ⟨length_adapted _ view, fun i column h => (read_adapted hview h).1, ?_⟩
  intro i column h
  obtain ⟨-, hlt, hvalue⟩ := read_adapted hview h
  rw [length_adapted] at hlt
  have hbase : inner.layout.columns[column.1]? = some inner.layout.columns[column.1] :=
    List.getElem?_eq_getElem hlt
  obtain ⟨-, hlt', hvalue'⟩ := read_adapted hinner hbase
  exact ⟨_, hbase, hlt', hvalue.trans hvalue'⟩

/-- Whatever the two shapes are, the second sees the columns that the first exposes and nothing
else, and its variants are resolved against them at every path. -/
theorem composed_of_adapt {first second : Shape} (hs : r.adapt first = .ok s)
    (ht : s.adapt second = .ok t) : ∃ exposed, first.Exposes r.columnNames exposed ∧
      s.columnNames = exposed.map (·.2) ∧
      ∀ path, Composed r exposed (second.at? path) (t.variantAt? path) := by
  obtain ⟨inner, hinner, rfl⟩ := adapt_eq_ok.mp hs
  obtain ⟨view, hview, rfl⟩ := adapt_eq_ok.mp ht
  refine ⟨inner.layout.columns, Shape.exposes_of_resolve first hinner, rfl, fun path => ?_⟩
  rw [variantAt?_adapted]
  have hpath := Shape.at?_resolved hview path
  generalize second.at? path = shape, view.at? path = shown at hpath ⊢
  cases hpath with
  | none => exact .none
  | some hshape =>
    exact .some hshape (Shape.exposes_of_resolve _ hshape)
      (through_adapted (Shape.resolve_sound first hinner) (Shape.resolve_sound _ hshape))

/-- Rows that no accessor tells apart, and that are equal as far as they can be read. -/
structure Twin (t u : Row) : Prop where
  reads : t.ReadsAs u
  tree : t.tree = u.tree
  equals : t.equals u = t.values.map fun _ => true

theorem sameEntries_of_interchangeable (h : r.Interchangeable s) (n i : Nat)
    (hn : i + n ≤ r.length) : r.sameEntries s n i = (r.valuesFrom n i).map fun _ => true := by
  induction n generalizing i with
  | zero => rfl
  | succ n ih =>
    have hi : i < r.length := by omega
    have hname : s.columnName i = r.columnName i := by
      rw [columnName, columnName, length, length, h.names]
    have hvalue : s.value i = r.value i := by rw [value, value, h.tryValue]
    rw [sameEntries, valuesFrom, hname, hvalue, columnName_eq hi]
    cases r.value i with
    | error f => rfl
    | ok v =>
      have hrest := ih (i + 1) (by omega)
      simp only [bind, Except.bind, and_self, if_true, hrest]
      cases r.valuesFrom n (i + 1) <;> rfl

theorem adapt_span {start stop : Nat} : r.adapt (.span start stop) = .ok s ↔
    ∃ layout, Shape.spanLayout r.columnNames start stop = .ok layout ∧
      s = .adapted r ⟨layout, []⟩ := by
  rw [adapt_eq_ok]
  constructor
  · rintro ⟨view, hview, rfl⟩
    rw [Shape.resolve, Shape.layout_eq_ok] at hview
    obtain ⟨layout, variants⟩ := view
    obtain ⟨hlayout, rfl⟩ := hview
    exact ⟨layout, hlayout, rfl⟩
  · rintro ⟨layout, hlayout, rfl⟩
    refine ⟨_, ?_, rfl⟩
    rw [Shape.resolve, Shape.layout_eq_ok]
    exact ⟨hlayout, rfl⟩

theorem adapt_suffix (r : Row) (start : Nat) :
    r.adapt (.suffix start) = r.adapt (.span start r.length) := rfl

theorem span_columns {start stop : Nat} (h : r.adapt (.span start stop) = .ok s) :
    (start ≤ stop ∧ stop ≤ r.length) ∧
      s.columnNames = (r.columnNames.drop start).take (stop - start) ∧
      ∀ i < stop - start, s.stored i = r.stored (start + i) := by
  obtain ⟨layout, hlayout, rfl⟩ := adapt_span.mp h
  obtain ⟨hbounds, -⟩ := spanLayout_eq_ok.mp hlayout
  refine ⟨hbounds, names_of_span hlayout, fun i hi => ?_⟩
  rw [stored, baseIndex_of_span hlayout hi]
  show (if start + i < r.length then _ else _) = _
  rw [if_pos (by have := hbounds.2; change stop ≤ r.length at this; omega)]

theorem length_span {start stop : Nat} (h : r.adapt (.span start stop) = .ok s) :
    s.length = stop - start := by
  obtain ⟨⟨-, hstop⟩, hnames, -⟩ := span_columns h
  have hlength : r.columnNames.length = r.length := rfl
  rw [length, hnames, List.length_take, List.length_drop, hlength]
  omega

theorem twin_of_interchangeable {layout layout' : Layout} {base base' : Row}
    (h : (Row.adapted base ⟨layout, []⟩).Interchangeable (.adapted base' ⟨layout', []⟩)) :
    (Row.adapted base ⟨layout, []⟩).Twin (.adapted base' ⟨layout', []⟩) := by
  have hlength :
      (Row.adapted base ⟨layout, []⟩).length = (Row.adapted base' ⟨layout', []⟩).length :=
    congrArg List.length h.names
  have hsame : (Row.adapted base ⟨layout, []⟩).sameColumns (.adapted base' ⟨layout', []⟩) =
      (Row.adapted base ⟨layout, []⟩).values.map fun _ => true := by
    rw [sameColumns, if_pos hlength]
    exact sameEntries_of_interchangeable h _ 0 (by omega)
  refine ⟨readsAs_of_interchangeable h (fun name => ?_) rfl, ?_, ?_⟩
  · rw [indexOf?_eq_position, indexOf?_eq_position, h.names]
  · exact tree_eq_tree.mpr ⟨h.entries, fun _ => rfl⟩
  · rw [equals, View.shows, hsame]
    cases (Row.adapted base ⟨layout, []⟩).values <;> rfl

theorem span_span {a b c d : Nat} (hs : r.adapt (.span a b) = .ok s)
    (ht : s.adapt (.span c d) = .ok t) :
    ∃ u, r.adapt (.span (a + c) (a + d)) = .ok u ∧ t.Twin u := by
  obtain ⟨⟨hab, hb⟩, hnames, hstored⟩ := span_columns hs
  obtain ⟨⟨hcd, hd⟩, hnames', hstored'⟩ := span_columns ht
  rw [length_span hs] at hd
  obtain ⟨layout, hlayout⟩ : ∃ layout,
      Shape.spanLayout r.columnNames (a + c) (a + d) = .ok layout :=
    Shape.spanLayout_ok ⟨by omega, by change a + d ≤ r.length; omega⟩
  have hu : r.adapt (.span (a + c) (a + d)) = .ok (.adapted r ⟨layout, []⟩) :=
    adapt_span.mpr ⟨layout, hlayout, rfl⟩
  obtain ⟨-, hnamesu, hstoredu⟩ := span_columns hu
  refine ⟨_, hu, ?_⟩
  have hsame : t.Interchangeable (.adapted r ⟨layout, []⟩) := by
    constructor
    · rw [hnames', hnamesu, hnames, List.drop_take, List.drop_drop, List.take_take]
      congr 1
      omega
    · intro i hi
      rw [length_span ht] at hi
      rw [hstored' i hi, hstored (c + i) (by omega), hstoredu i (by omega), Nat.add_assoc]
  obtain ⟨_, -, rfl⟩ := adapt_span.mp ht
  exact twin_of_interchangeable hsame

theorem length_suffix {start : Nat} (h : r.adapt (.suffix start) = .ok s) :
    start ≤ r.length ∧ s.length = r.length - start := by
  rw [adapt_suffix] at h
  exact ⟨(span_columns h).1.1, length_span h⟩

theorem exists_suffix_iff {start : Nat} :
    (∃ s, r.adapt (.suffix start) = .ok s) ↔ start ≤ r.length := by
  constructor
  · rintro ⟨s, hs⟩
    exact (length_suffix hs).1
  · intro h
    obtain ⟨layout, hlayout⟩ : ∃ layout,
        Shape.spanLayout r.columnNames start r.length = .ok layout :=
      Shape.spanLayout_ok ⟨h, Nat.le_refl _⟩
    exact ⟨_, adapt_span.mpr ⟨layout, hlayout, rfl⟩⟩

theorem suffix_suffix_iff {a b : Nat} :
    (∃ s t, r.adapt (.suffix a) = .ok s ∧ s.adapt (.suffix b) = .ok t) ↔
      ∃ u, r.adapt (.suffix (a + b)) = .ok u := by
  rw [exists_suffix_iff]
  constructor
  · rintro ⟨s, t, hs, ht⟩
    obtain ⟨ha, hlength⟩ := length_suffix hs
    obtain ⟨hb, -⟩ := length_suffix ht
    omega
  · intro h
    obtain ⟨s, hs⟩ := exists_suffix_iff.mpr (show a ≤ r.length by omega)
    obtain ⟨-, hlength⟩ := length_suffix hs
    obtain ⟨t, ht⟩ := exists_suffix_iff.mpr (show b ≤ s.length by omega)
    exact ⟨s, t, hs, ht⟩

theorem suffix_suffix {a b : Nat} (hs : r.adapt (.suffix a) = .ok s)
    (ht : s.adapt (.suffix b) = .ok t) : ∃ u, r.adapt (.suffix (a + b)) = .ok u ∧ t.Twin u := by
  obtain ⟨ha, hlength⟩ := length_suffix hs
  rw [adapt_suffix] at hs ht
  obtain ⟨u, hu, htwin⟩ := span_span hs ht
  rw [hlength, Nat.add_sub_cancel' ha] at hu
  exact ⟨u, hu, htwin⟩

theorem Twin.equal (h : t.Twin u) (ht : t.Made) : t.equals u = .ok true := by
  obtain ⟨entries, hentries⟩ := ht.sound.lists
  rw [h.equals, hentries.values_eq]
  rfl

/-- A row under one shape and then another shows through both what the second exposes, at every path
of its variants. Two suffixes are one suffix, and two spans one span, of the same row. -/
theorem adapt_adapt (r : Row) :
    (∀ (first second : Shape) (s t : Row), r.adapt first = .ok s → s.adapt second = .ok t →
      ∃ exposed, first.Exposes r.columnNames exposed ∧ s.columnNames = exposed.map (·.2) ∧
        ∀ path, Composed r exposed (second.at? path) (t.variantAt? path)) ∧
    (∀ a b : Nat,
      ((∃ s t, r.adapt (.suffix a) = .ok s ∧ s.adapt (.suffix b) = .ok t) ↔
        ∃ u, r.adapt (.suffix (a + b)) = .ok u) ∧
      ∀ s t u : Row, r.adapt (.suffix a) = .ok s → s.adapt (.suffix b) = .ok t →
        r.adapt (.suffix (a + b)) = .ok u → t.Twin u ∧ (r.Made → t.equals u = .ok true)) ∧
    ∀ (a b c d : Nat) (s t : Row), r.adapt (.span a b) = .ok s → s.adapt (.span c d) = .ok t →
      ∃ u, r.adapt (.span (a + c) (a + d)) = .ok u ∧ t.Twin u ∧
        (r.Made → t.equals u = .ok true) := by
  refine ⟨fun first second s t => composed_of_adapt, fun a b => ⟨suffix_suffix_iff, ?_⟩, ?_⟩
  · intro s t u hs ht hu
    obtain ⟨u', hu', htwin⟩ := suffix_suffix hs ht
    cases hu.symm.trans hu'
    exact ⟨htwin, fun hr => htwin.equal (.adapt (.adapt hr hs) ht)⟩
  · intro a b c d s t hs ht
    obtain ⟨u, hu, htwin⟩ := span_span hs ht
    exact ⟨u, hu, htwin, fun hr => htwin.equal (.adapt (.adapt hr hs) ht)⟩

def renamed : Shape :=
  .nested (.mapping [("Title", "title"), ("title", "NAME"), ("key", "id")]) [("all", .identity)]

def titled : Shape :=
  .nested (.mapping [("t", "TITLE")]) [("titles", .suffix 1)]

def book : Row :=
  .live [.integer 1, .text "a", .integer 2, .text "b"] ["id", "name", "ID", "title"]

def renamedView : View :=
  ⟨⟨[(0, "key"), (1, "title"), (3, "Title")]⟩,
    [("all", ⟨⟨[(0, "id"), (1, "name"), (2, "ID"), (3, "title")]⟩, []⟩)]⟩

def titledView : View :=
  ⟨⟨[(1, "t")]⟩, [("titles", ⟨⟨[(1, "title"), (2, "Title")]⟩, []⟩)]⟩

theorem renamed_resolved : renamed.resolve book.columnNames = .ok renamedView := by
  have hfound : Shape.mappedColumns book.columnNames
      [("Title", "title"), ("title", "NAME"), ("key", "id")] =
        .ok [(3, "Title"), (1, "title"), (0, "key")] := rfl
  have hsorted : [(3, "Title"), (1, "title"), (0, "key")].mergeSort
      (fun a b : Nat × String => a.1 ≤ b.1) = renamedView.layout.columns := by
    simp [List.mergeSort, renamedView]
  rw [renamed, Shape.resolve, Shape.resolve, Shape.mappingLayout, hfound, Except.map, hsorted]
  rfl

theorem titled_resolved :
    titled.resolve (Row.adapted book renamedView).columnNames = .ok titledView := by
  have hfound : Shape.mappedColumns (Row.adapted book renamedView).columnNames
      [("t", "TITLE")] = .ok [(1, "t")] := rfl
  rw [titled, Shape.resolve, Shape.resolve, Shape.mappingLayout, hfound, Except.map,
    List.mergeSort_singleton]
  rfl

theorem book_renamed : book.adapt renamed = .ok (.adapted book renamedView) :=
  adapt_eq_ok.mpr ⟨_, renamed_resolved, rfl⟩

theorem renamed_titled : (Row.adapted book renamedView).adapt titled =
    .ok (.adapted (.adapted book renamedView) titledView) :=
  adapt_eq_ok.mpr ⟨_, titled_resolved, rfl⟩

theorem titles_through_names : ∃ s t titles exposed, book.adapt renamed = .ok s ∧
    s.adapt titled = .ok t ∧ t.columnNames = ["t"] ∧ t.tryValue 0 = .ok (.text "a") ∧
    t.variantAt? ["titles"] = some titles ∧ titles.values = .ok [.text "a", .text "b"] ∧
    Composed book exposed (titled.at? ["titles"]) (some titles) ∧ t.variantAt? ["all"] = none ∧
    ∃ tail rest last, s.adapt (.suffix 1) = .ok tail ∧ tail.adapt (.suffix 1) = .ok rest ∧
      s.adapt (.suffix 2) = .ok last ∧ rest.equals last = .ok true := by
  have hbook : book.Made := .live (Nat.le_refl 4)
  obtain ⟨hcomposed, -, -⟩ := adapt_adapt book
  obtain ⟨exposed, -, -, hpaths⟩ := hcomposed _ _ _ _ book_renamed renamed_titled
  obtain ⟨-, hsuffix, -⟩ := adapt_adapt (.adapted book renamedView)
  obtain ⟨hsucceeds, hequal⟩ := hsuffix 1 1
  obtain ⟨tail, rest, htail, hrest⟩ := hsucceeds.mpr ⟨_, rfl⟩
  exact ⟨_, _, _, exposed, book_renamed, renamed_titled, rfl, rfl, rfl, rfl, hpaths ["titles"], rfl,
    tail, rest, _, htail, hrest, rfl,
    (hequal _ _ _ htail hrest rfl).2 (.adapt hbook book_renamed)⟩

end RelQuery.Row
