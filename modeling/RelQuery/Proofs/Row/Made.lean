import Mathlib.Data.List.Sort
import Mathlib.Data.String.Basic
import RelQuery.Proofs.Row.Spans
import RelQuery.Proofs.Row.Views

/-!
# Rows that can be made

The view of a shape refers to columns that its base row has, and lists its variants in the order of
their names, each name once. A row that is made from the rows of an engine and from literal ones by
adapting, copying and taking variants can be read at all of its columns.
-/

set_option autoImplicit false

namespace RelQuery

namespace View

def Sorted (variants : List (String × View)) : Prop :=
  variants.Pairwise fun a b => a.1 < b.1

inductive Sound (n : Nat) : View → Prop
  | mk {layout : Layout} {variants : List (String × View)}
    (indexes : ∀ column ∈ layout.columns, column.1 < n) (sorted : Sorted variants)
    (inner : ∀ entry ∈ variants, Sound n entry.2) : Sound n ⟨layout, variants⟩

theorem Sound.sorted {n : Nat} {v : View} (h : v.Sound n) : Sorted v.variants := by
  cases h with
  | mk _ sorted _ => exact sorted

theorem Sound.inner {n : Nat} {v : View} (h : v.Sound n) :
    ∀ entry ∈ v.variants, entry.2.Sound n := by
  cases h with
  | mk _ _ inner => exact inner

theorem mem_insertVariant {name : String} {v : View} {variants : List (String × View)}
    {entry : String × View} (h : entry ∈ insertVariant name v variants) :
    entry = (name, v) ∨ entry ∈ variants := by
  induction variants with
  | nil => exact .inl (List.mem_singleton.mp h)
  | cons first rest ih =>
    obtain ⟨n, w⟩ := first
    rw [insertVariant] at h
    split at h
    · exact List.mem_cons.mp h
    split at h
    · rename_i hname
      rw [hname]
      exact (List.mem_cons.mp h).imp_right (List.mem_cons_of_mem _)
    · rcases List.mem_cons.mp h with rfl | h
      · exact .inr List.mem_cons_self
      · exact (ih h).imp_right (List.mem_cons_of_mem _)

theorem sorted_insertVariant (name : String) (v : View) {variants : List (String × View)}
    (h : Sorted variants) : Sorted (insertVariant name v variants) := by
  induction variants with
  | nil => exact List.pairwise_singleton _ _
  | cons first rest ih =>
    obtain ⟨n, w⟩ := first
    obtain ⟨hfirst, hrest⟩ := List.pairwise_cons.mp h
    rw [insertVariant]
    split
    · rename_i hlt
      refine List.pairwise_cons.mpr ⟨?_, h⟩
      intro entry he
      rcases List.mem_cons.mp he with rfl | he
      · exact hlt
      · exact lt_trans hlt (hfirst entry he)
    split
    · exact List.pairwise_cons.mpr ⟨hfirst, hrest⟩
    · rename_i hlt hne
      refine List.pairwise_cons.mpr ⟨?_, ih hrest⟩
      intro entry he
      rcases mem_insertVariant he with rfl | he
      · exact lt_of_le_of_ne (not_lt.mp hlt) fun heq => hne heq.symm
      · exact hfirst entry he

theorem lookup_of_mem {variants : List (String × View)} (h : Sorted variants)
    {entry : String × View} (he : entry ∈ variants) : variants.lookup entry.1 = some entry.2 := by
  induction variants with
  | nil => cases he
  | cons first rest ih =>
    obtain ⟨hfirst, hrest⟩ := List.pairwise_cons.mp h
    rw [lookup_cons]
    rcases List.mem_cons.mp he with rfl | he
    · rw [if_pos rfl]
    · rw [if_neg (ne_of_gt (hfirst entry he))]
      exact ih hrest he

theorem mem_of_lookup {variants : List (String × View)} {name : String} {v : View}
    (h : variants.lookup name = some v) : (name, v) ∈ variants := by
  obtain ⟨before, after, hvariants, -⟩ := List.lookup_eq_some_iff.mp h
  simp [hvariants]

theorem eq_of_lookup {variants variants' : List (String × View)} (h : Sorted variants)
    (h' : Sorted variants') (hl : ∀ name, variants.lookup name = variants'.lookup name) :
    variants = variants' := by
  have hanti : Std.Antisymm fun a b : String × View => a.1 < b.1 :=
    ⟨fun _ _ hab hba => (lt_asymm hab hba).elim⟩
  have hirrefl : Std.Irrefl fun a b : String × View => a.1 < b.1 := ⟨fun _ => lt_irrefl _⟩
  refine List.Pairwise.eq_of_mem_iff h h' ?_
  intro entry
  constructor
  · intro he
    exact mem_of_lookup ((hl entry.1).symm.trans (lookup_of_mem h he))
  · intro he
    exact mem_of_lookup ((hl entry.1).trans (lookup_of_mem h' he))

end View

namespace Shape

variable {columns : List String}

theorem spanLayout_indexes {start stop : Nat} {layout : Layout}
    (h : spanLayout columns start stop = .ok layout) :
    ∀ column ∈ layout.columns, column.1 < columns.length := by
  rw [spanLayout] at h
  split at h
  · cases h
  · cases h
    intro column hc
    obtain ⟨⟨name, i⟩, hi, rfl⟩ := List.mem_map.mp hc
    have hlt := (List.mem_zipIdx (List.mem_of_mem_drop (List.mem_of_mem_take hi))).2.1
    rwa [Nat.zero_add] at hlt

theorem mappedColumns_indexes {pairs : List (String × String)} {found : List (Nat × String)}
    (h : mappedColumns columns pairs = .ok found) :
    ∀ column ∈ found, column.1 < columns.length := by
  induction pairs generalizing found with
  | nil =>
    cases h
    nofun
  | cons pair pairs ih =>
    obtain ⟨exposed, base⟩ := pair
    rw [mappedColumns] at h
    cases hi : Text.position columns base with
    | none =>
      rw [hi] at h
      cases h
    | some i =>
      rw [hi] at h
      cases hrest : mappedColumns columns pairs with
      | error cause =>
        rw [hrest] at h
        cases h
      | ok rest =>
        rw [hrest] at h
        cases h
        intro column hc
        rcases List.mem_cons.mp hc with rfl | hc
        · exact (List.findIdx?_eq_some_iff_getElem.mp hi).1
        · exact ih hrest column hc

theorem mappingLayout_indexes {pairs : List (String × String)} {layout : Layout}
    (h : mappingLayout columns pairs = .ok layout) :
    ∀ column ∈ layout.columns, column.1 < columns.length := by
  rw [mappingLayout] at h
  cases hfound : mappedColumns columns pairs with
  | error cause =>
    rw [hfound] at h
    cases h
  | ok found =>
    rw [hfound] at h
    cases h
    intro column hc
    exact mappedColumns_indexes hfound column (List.mem_mergeSort.mp hc)

theorem sound_of_layout {r : Except Refusal Layout} {view : View}
    (hr : ∀ layout, r = .ok layout → ∀ column ∈ layout.columns, column.1 < columns.length)
    (h : r.map (View.mk · []) = .ok view) : view.Sound columns.length := by
  rcases r with cause | layout
  · cases h
  · cases h
    exact .mk (hr layout rfl) .nil nofun

mutual

theorem resolve_sound :
    (shape : Shape) → {view : View} → shape.resolve columns = .ok view →
      view.Sound columns.length
  | .identity, _, h | .suffix _, _, h | .span _ _, _, h =>
    sound_of_layout (fun _ => spanLayout_indexes) h
  | .mapping _, _, h => sound_of_layout (fun _ => mappingLayout_indexes) h
  | .nested main variants, ⟨_, all⟩, h => by
    obtain ⟨inner, hmain, rfl, hall⟩ := resolve_nested.mp h
    obtain ⟨indexes, sorted, sound⟩ := resolve_sound main hmain
    obtain ⟨hsorted, hsound⟩ := resolveVariants_sound variants sorted sound hall
    exact .mk indexes hsorted hsound

theorem resolveVariants_sound :
    (variants : List (String × Shape)) → {known views : List (String × View)} →
      View.Sorted known → (∀ entry ∈ known, entry.2.Sound columns.length) →
        resolveVariants columns variants known = .ok views →
          View.Sorted views ∧ ∀ entry ∈ views, entry.2.Sound columns.length
  | [], _, _, hsorted, hsound, h => by
    cases h
    exact ⟨hsorted, hsound⟩
  | (name, shape) :: rest, known, views, hsorted, hsound, h => by
    obtain ⟨view, hshape, hrest⟩ := resolveVariants_cons.mp h
    refine resolveVariants_sound rest (View.sorted_insertVariant name view hsorted) ?_ hrest
    intro entry he
    rcases View.mem_insertVariant he with rfl | he
    · exact resolve_sound shape hshape
    · exact hsound entry he

end

end Shape

namespace Row

inductive Sound : Row → Prop
  | live {values : List Value} {columns : List String} (h : columns.length ≤ values.length) :
    Sound (.live values columns)
  | detached {values : List Value} {columns : List String} (h : columns.length ≤ values.length) :
    Sound (.detached values columns)
  | literal (pairs : List (String × Value)) : Sound (.literal pairs)
  | adapted {base : Row} {view : View} (hbase : Sound base) (hview : view.Sound base.length) :
    Sound (.adapted base view)

/-- A row as it can be made. An engine gives a value for each column of a statement. -/
inductive Made : Row → Prop
  | live {values : List Value} {columns : List String} (h : columns.length ≤ values.length) :
    Made (.live values columns)
  | detached {values : List Value} {columns : List String} (h : columns.length ≤ values.length) :
    Made (.detached values columns)
  | literal (pairs : List (String × Value)) : Made (.literal pairs)
  | adapt {base r : Row} {shape : Shape} (hbase : Made base) (h : base.adapt shape = .ok r) : Made r
  | variant {r s : Row} {name : String} (hr : Made r) (h : r.variant? name = some s) : Made s
  | copy {r : Row} (hr : Made r) : Made r.copy

theorem columnNames_copy (r : Row) : r.copy.columnNames = r.columnNames := by
  cases r <;> rfl

theorem length_copy (r : Row) : r.copy.length = r.length := by
  rw [length, columnNames_copy, length]

theorem Sound.copy {r : Row} (h : r.Sound) : r.copy.Sound := by
  induction h with
  | live h | detached h => exact .detached h
  | literal pairs => exact .literal pairs
  | @adapted base view _ hview ih => exact .adapted ih ((length_copy base).symm ▸ hview)

theorem adapt_eq_ok {base r : Row} {shape : Shape} : base.adapt shape = .ok r ↔
    ∃ view, shape.resolve base.columnNames = .ok view ∧ r = .adapted base view := by
  rw [adapt, Outcome.bind_eq_ok]
  constructor
  · rintro ⟨view, hview, h⟩
    cases h
    exact ⟨view, Outcome.ofRefusable_eq_ok.mp hview, rfl⟩
  · rintro ⟨view, hview, rfl⟩
    exact ⟨view, Outcome.ofRefusable_eq_ok.mpr hview, rfl⟩

theorem Sound.variant {r s : Row} {name : String} (h : r.Sound) (hs : r.variant? name = some s) :
    s.Sound := by
  cases h with
  | live | detached | literal => cases hs
  | adapted hbase hview =>
    obtain ⟨w, hw, rfl⟩ := Option.map_eq_some_iff.mp hs
    exact .adapted hbase (hview.inner (name, w) (View.mem_of_lookup hw))

theorem Made.sound {r : Row} (h : r.Made) : r.Sound := by
  induction h with
  | live h => exact .live h
  | detached h => exact .detached h
  | literal pairs => exact .literal pairs
  | adapt _ h ih =>
    obtain ⟨view, hview, rfl⟩ := adapt_eq_ok.mp h
    exact .adapted ih (Shape.resolve_sound _ hview)
  | variant _ h ih => exact ih.variant h
  | copy _ ih => exact ih.copy

theorem Sound.stored {r : Row} (h : r.Sound) {i : Nat} (hi : i < r.length) :
    ∃ v, r.stored i = .ok v := by
  induction h generalizing i with
  | @live values columns h | @detached values columns h =>
    exact ⟨_, Outcome.element_eq_ok.mpr (List.getElem?_eq_getElem (Nat.lt_of_lt_of_le hi h))⟩
  | literal pairs =>
    have hlt : i < pairs.length := by simpa [length, columnNames] using hi
    exact ⟨_, Outcome.map_eq_ok.mpr
      ⟨_, Outcome.element_eq_ok.mpr (List.getElem?_eq_getElem hlt), rfl⟩⟩
  | @adapted base view _ hview ih =>
    cases hview with
    | @mk layout variants indexes _ _ =>
      have hlt : i < layout.columns.length := by simpa [length, columnNames, Layout.names] using hi
      have hj := indexes layout.columns[i] (List.getElem_mem hlt)
      obtain ⟨v, hv⟩ := ih hj
      refine ⟨v, Outcome.bind_eq_ok.mpr ⟨layout.columns[i].1, ?_, ?_⟩⟩
      · exact Outcome.map_eq_ok.mpr
          ⟨_, Outcome.element_eq_ok.mpr (List.getElem?_eq_getElem hlt), rfl⟩
      · rw [if_pos hj, hv]

structure Lists (r : Row) (entries : List (String × Value)) : Prop where
  length : r.length = entries.length
  entry : ∀ (i : Nat) (entry : String × Value), entries[i]? = some entry →
    r.columnName i = .ok entry.1 ∧ r.stored i = .ok entry.2

theorem Sound.lists {r : Row} (h : r.Sound) : ∃ entries, r.Lists entries := by
  have hstored : ∀ i : Fin r.length, ∃ v, r.stored i = .ok v := fun i => h.stored i.isLt
  choose f hf using hstored
  refine ⟨List.ofFn fun i : Fin r.length => (r.columnNames[i], f i), by simp, ?_⟩
  intro i entry he
  obtain ⟨hi, rfl⟩ := List.getElem?_eq_some_iff.mp he
  rw [List.length_ofFn] at hi
  rw [List.getElem_ofFn]
  refine ⟨?_, hf ⟨i, hi⟩⟩
  rw [columnName, List.getElem?_eq_getElem hi]
  rfl

namespace Lists

variable {r : Row} {entries : List (String × Value)}

theorem value (h : r.Lists entries) {i : Nat} {entry : String × Value}
    (he : entries[i]? = some entry) : r.value i = .ok entry.2 := by
  have hi : i < r.length := h.length ▸ (List.getElem?_eq_some_iff.mp he).1
  rw [Row.value, tryValue, if_pos hi, (h.entry i entry he).2]
  rfl

theorem columnNames_eq (h : r.Lists entries) : r.columnNames = entries.map (·.1) := by
  refine List.ext_getElem? fun i => ?_
  rw [List.getElem?_map]
  cases he : entries[i]? with
  | none =>
    have hi : r.length ≤ i := h.length ▸ List.getElem?_eq_none_iff.mp he
    exact List.getElem?_eq_none_iff.mpr hi
  | some entry =>
    have hname := (h.entry i entry he).1
    rw [columnName] at hname
    split at hname
    · rename_i name hi
      cases hname
      exact hi
    · cases hname

theorem values_eq (h : r.Lists entries) : r.values = .ok (entries.map (·.2)) := by
  refine Row.values_eq (h.length.trans (List.length_map _).symm) fun i v hv => ?_
  rw [List.getElem?_map] at hv
  obtain ⟨entry, he, rfl⟩ := Option.map_eq_some_iff.mp hv
  exact (h.entry i entry he).2

theorem entries_eq (h : r.Lists entries) : r.entries = .ok entries := by
  rw [Row.entries, h.values_eq, h.columnNames_eq]
  exact congrArg Except.ok (List.zip_of_prod rfl rfl).symm

end Lists

theorem Sound.lists_of_entries {r : Row} {entries : List (String × Value)} (h : r.Sound)
    (he : r.entries = .ok entries) : r.Lists entries := by
  obtain ⟨entries', hr⟩ := h.lists
  rwa [Except.ok.inj (he.symm.trans hr.entries_eq)]

end Row

end RelQuery
