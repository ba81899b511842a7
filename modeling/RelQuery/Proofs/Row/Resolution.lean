import Mathlib.Data.List.Perm.Basic
import RelQuery.Proofs.Row.Names
import RelQuery.Proofs.Row.Observed

/-!
# Shapes resolved against columns

A shape resolves exactly when every reference in its tree is to a column that is there. Under each
path of names the view then shows what the shape that was registered last under them exposes of the
one list that the whole shape was resolved against, and the order of registration is gone.
-/

set_option autoImplicit false

namespace RelQuery.Shape

variable {columns : List String} {shape : Shape} {view : View}

/-- The shapes in the tree of a shape: itself, and those of its main shape and of its variants. -/
inductive Part : Shape → Shape → Prop
  | self (shape : Shape) : Part shape shape
  | main {part main : Shape} {variants : List (String × Shape)} (h : Part part main) :
    Part part (.nested main variants)
  | variant {part main : Shape} {variants : List (String × Shape)} {entry : String × Shape}
    (hentry : entry ∈ variants) (h : Part part entry.2) : Part part (.nested main variants)

/-- What a shape refers to by itself is there. -/
def Fits (columns : List String) : Shape → Prop
  | .suffix start => start ≤ columns.length
  | .span start stop => start ≤ stop ∧ stop ≤ columns.length
  | .mapping pairs => ∀ pair ∈ pairs, ∃ column ∈ columns, Text.sameName column pair.2 = true
  | .identity | .nested _ _ => True

/-- What a shape refers to by itself is not there, with the mismatch that tells so. -/
inductive Fault (columns : List String) : Shape → Mismatch → Prop
  | suffix {start : Nat} (h : columns.length < start) :
    Fault columns (.suffix start) (.spanTooLong start columns.length columns.length)
  | span {start stop : Nat} (h : ¬(start ≤ stop ∧ stop ≤ columns.length)) :
    Fault columns (.span start stop) (.spanTooLong start stop columns.length)
  | mapping {pairs : List (String × String)} {pair : String × String} (hpair : pair ∈ pairs)
    (h : ∀ column ∈ columns, Text.sameName column pair.2 = false) :
    Fault columns (.mapping pairs) (.missingMappedColumn pair.2 columns)

/-- A pair of a mapping with its column: the leftmost one of the base name, as it is exposed. -/
def Refers (columns : List String) (pair : String × String) (column : Nat × String) : Prop :=
  column.2 = pair.1 ∧ Text.Leftmost columns pair.2 column.1

theorem mappedColumns_eq_ok {pairs : List (String × String)} {found : List (Nat × String)} :
    mappedColumns columns pairs = .ok found ↔ List.Forall₂ (Refers columns) pairs found := by
  induction pairs generalizing found with
  | nil =>
    rw [mappedColumns, List.forall₂_nil_left_iff, Except.ok.injEq, eq_comm]
  | cons pair pairs ih =>
    obtain ⟨exposed, base⟩ := pair
    rw [mappedColumns, List.forall₂_cons_left_iff]
    cases hi : Text.position columns base with
    | none =>
      constructor
      · intro h
        cases h
      · rintro ⟨column, rest, ⟨-, hleft⟩, -⟩
        rw [← Text.position_eq_some_iff, hi] at hleft
        cases hleft
    | some i =>
      have hleft : Text.Leftmost columns base i := Text.position_eq_some_iff.mp hi
      constructor
      · intro h
        rcases hrest : mappedColumns columns pairs with cause | rest
        · rw [hrest] at h
          cases h
        · rw [hrest] at h
          cases h
          exact ⟨(i, exposed), rest, ⟨rfl, hleft⟩, ih.mp hrest, rfl⟩
      · rintro ⟨⟨j, name⟩, rest, ⟨rfl, hj⟩, hrest, rfl⟩
        rw [← Text.position_eq_some_iff, hi] at hj
        cases hj
        show (mappedColumns columns pairs).map _ = _
        rw [ih.mpr hrest]
        rfl

theorem fault_of_mappedColumns {pairs : List (String × String)} {cause : Refusal}
    (h : mappedColumns columns pairs = .error cause) :
    ∃ mismatch, Fault columns (.mapping pairs) mismatch ∧ cause = .mismatch mismatch := by
  induction pairs with
  | nil => cases h
  | cons pair pairs ih =>
    obtain ⟨exposed, base⟩ := pair
    rw [mappedColumns] at h
    cases hi : Text.position columns base with
    | none =>
      rw [hi] at h
      cases h
      refine ⟨_, .mapping List.mem_cons_self fun column hc => ?_, rfl⟩
      have hne := Text.position_eq_none_iff.mp hi column hc
      rwa [← Bool.not_eq_true, Text.sameName_iff]
    | some i =>
      rcases hrest : mappedColumns columns pairs with cause' | rest
      · rw [hi, hrest] at h
        cases h
        obtain ⟨mismatch, hfault, rfl⟩ := ih hrest
        cases hfault with
        | mapping hpair hnone => exact ⟨_, .mapping (List.mem_cons_of_mem _ hpair) hnone, rfl⟩
      · rw [hi, hrest] at h
        cases h

theorem fits_of_refers {pairs : List (String × String)} {found : List (Nat × String)}
    (h : List.Forall₂ (Refers columns) pairs found) : (Shape.mapping pairs).Fits columns := by
  induction h with
  | nil => exact nofun
  | cons hrefers _ ih =>
    intro pair hpair
    rcases List.mem_cons.mp hpair with rfl | hpair
    · obtain ⟨name, hname, hsame⟩ := hrefers.2.found
      exact ⟨name, List.mem_of_getElem? hname, (Text.sameName_iff _ _).mpr hsame⟩
    · exact ih pair hpair

theorem not_fits_of_fault {mismatch : Mismatch} (h : Fault columns shape mismatch) :
    ¬shape.Fits columns := by
  cases h with
  | suffix h => exact Nat.not_le_of_lt h
  | span h => exact h
  | mapping hpair h =>
    intro hfits
    obtain ⟨column, hc, hsame⟩ := hfits _ hpair
    rw [h column hc] at hsame
    cases hsame

theorem layout_eq_ok {r : Except Refusal Layout} :
    r.map (View.mk · []) = .ok view ↔ r = .ok view.layout ∧ view.variants = [] := by
  obtain ⟨layout, variants⟩ := view
  rcases r with cause | l <;> simp [Except.map, eq_comm]

theorem mappingLayout_eq_ok {pairs : List (String × String)} {layout : Layout} :
    mappingLayout columns pairs = .ok layout ↔ ∃ found,
      List.Forall₂ (Refers columns) pairs found ∧
        layout.columns = found.mergeSort fun a b => a.1 ≤ b.1 := by
  obtain ⟨exposed⟩ := layout
  simp only [mappingLayout, ← mappedColumns_eq_ok]
  rcases mappedColumns columns pairs with cause | found <;> simp [Except.map, eq_comm]

theorem spanLayout_ok {start stop : Nat} (h : start ≤ stop ∧ stop ≤ columns.length) :
    ∃ layout, spanLayout columns start stop = .ok layout :=
  ⟨⟨_⟩, Row.spanLayout_eq_ok.mpr ⟨h, rfl⟩⟩

theorem spanLayout_eq_error {start stop : Nat} {cause : Refusal}
    (h : spanLayout columns start stop = .error cause) :
    ¬(start ≤ stop ∧ stop ≤ columns.length) ∧
      cause = .mismatch (.spanTooLong start stop columns.length) := by
  rw [spanLayout] at h
  split at h
  · rename_i hout
    cases h
    exact ⟨by omega, rfl⟩
  · cases h

/-- All shapes that are registered have to resolve, those too that another replaces. -/
theorem resolve_of_mem {variants : List (String × Shape)} {known views : List (String × View)}
    (h : resolveVariants columns variants known = .ok views) {entry : String × Shape}
    (he : entry ∈ variants) : ∃ view, entry.2.resolve columns = .ok view := by
  induction variants generalizing known with
  | nil => cases he
  | cons first rest ih =>
    obtain ⟨view, hview, hrest⟩ := resolveVariants_cons.mp h
    rcases List.mem_cons.mp he with rfl | he
    · exact ⟨view, hview⟩
    · exact ih hrest he

theorem fits_self (h : shape.resolve columns = .ok view) : shape.Fits columns := by
  cases shape with
  | identity | nested => trivial
  | suffix start =>
    rw [resolve, layout_eq_ok, Row.spanLayout_eq_ok] at h
    exact h.1.1.1
  | span start stop =>
    rw [resolve, layout_eq_ok, Row.spanLayout_eq_ok] at h
    exact h.1.1
  | mapping pairs =>
    rw [resolve, layout_eq_ok, mappingLayout_eq_ok] at h
    obtain ⟨⟨found, hfound, -⟩, -⟩ := h
    exact fits_of_refers hfound

theorem fits_of_resolve {part : Shape} (hpart : Part part shape)
    (h : shape.resolve columns = .ok view) : part.Fits columns := by
  induction hpart generalizing view with
  | self => exact fits_self h
  | main _ ih =>
    obtain ⟨inner, hinner, -⟩ := resolve_nested.mp h
    exact ih hinner
  | variant hentry _ ih =>
    obtain ⟨_, -, -, hvariants⟩ := resolve_nested.mp h
    obtain ⟨inner, hinner⟩ := resolve_of_mem hvariants hentry
    exact ih hinner

mutual

theorem fault_of_resolve :
    (shape : Shape) → {cause : Refusal} → shape.resolve columns = .error cause →
      ∃ part mismatch, Part part shape ∧ Fault columns part mismatch ∧ cause = .mismatch mismatch
  | .identity, _, h => by
    obtain ⟨layout, hl⟩ : ∃ layout, spanLayout columns 0 columns.length = .ok layout :=
      spanLayout_ok ⟨Nat.zero_le _, Nat.le_refl _⟩
    rw [resolve, hl] at h
    cases h
  | .suffix start, cause, h => by
    rcases hl : spanLayout columns start columns.length with cause' | layout
    · rw [resolve, hl] at h
      cases h
      obtain ⟨hout, rfl⟩ := spanLayout_eq_error hl
      exact ⟨_, _, .self _, .suffix (by omega), rfl⟩
    · rw [resolve, hl] at h
      cases h
  | .span start stop, cause, h => by
    rcases hl : spanLayout columns start stop with cause' | layout
    · rw [resolve, hl] at h
      cases h
      obtain ⟨hout, rfl⟩ := spanLayout_eq_error hl
      exact ⟨_, _, .self _, .span hout, rfl⟩
    · rw [resolve, hl] at h
      cases h
  | .mapping pairs, cause, h => by
    rcases hfound : mappedColumns columns pairs with cause' | found
    · rw [resolve, mappingLayout, hfound] at h
      cases h
      obtain ⟨mismatch, hfault, rfl⟩ := fault_of_mappedColumns hfound
      exact ⟨_, mismatch, .self _, hfault, rfl⟩
    · rw [resolve, mappingLayout, hfound] at h
      cases h
  | .nested main variants, cause, h => by
    rw [resolve] at h
    rcases hmain : main.resolve columns with cause' | inner
    · rw [hmain] at h
      cases h
      obtain ⟨part, mismatch, hpart, hfault, rfl⟩ := fault_of_resolve main hmain
      exact ⟨part, mismatch, .main hpart, hfault, rfl⟩
    · rcases hall : resolveVariants columns variants inner.variants with cause' | all
      · rw [hmain] at h
        change (resolveVariants columns variants inner.variants >>= _) = _ at h
        rw [hall] at h
        cases h
        obtain ⟨entry, hentry, part, mismatch, hpart, hfault, rfl⟩ :=
          fault_of_resolveVariants variants hall
        exact ⟨part, mismatch, .variant hentry hpart, hfault, rfl⟩
      · rw [hmain] at h
        change (resolveVariants columns variants inner.variants >>= _) = _ at h
        rw [hall] at h
        cases h

theorem fault_of_resolveVariants :
    (variants : List (String × Shape)) → {known : List (String × View)} → {cause : Refusal} →
      resolveVariants columns variants known = .error cause →
        ∃ entry ∈ variants, ∃ part mismatch, Part part entry.2 ∧ Fault columns part mismatch ∧
          cause = .mismatch mismatch
  | [], _, _, h => by cases h
  | (name, shape) :: rest, known, cause, h => by
    rw [resolveVariants] at h
    rcases hshape : shape.resolve columns with cause' | view
    · rw [hshape] at h
      cases h
      obtain ⟨part, mismatch, hpart, hfault, rfl⟩ := fault_of_resolve shape hshape
      exact ⟨(name, shape), List.mem_cons_self, part, mismatch, hpart, hfault, rfl⟩
    · rw [hshape] at h
      obtain ⟨entry, hentry, hrest⟩ := fault_of_resolveVariants rest h
      exact ⟨entry, List.mem_cons_of_mem _ hentry, hrest⟩

end

theorem exists_resolve_iff :
    (∃ view, shape.resolve columns = .ok view) ↔ ∀ part, Part part shape → part.Fits columns := by
  constructor
  · rintro ⟨view, h⟩ part hpart
    exact fits_of_resolve hpart h
  · intro hfits
    rcases hshape : shape.resolve columns with cause | view
    · obtain ⟨part, mismatch, hpart, hfault, -⟩ := fault_of_resolve shape hshape
      exact absurd (hfits part hpart) (not_fits_of_fault hfault)
    · exact ⟨view, rfl⟩

structure Consecutive (columns : List String) (start stop : Nat) (exposed : List (Nat × String)) :
    Prop where
  length : exposed.length = stop - start
  column : ∀ (i : Nat) (column : Nat × String), exposed[i]? = some column →
    column.1 = start + i ∧ columns[column.1]? = some column.2

/-- Columns in the order of their base indexes, those of one index as they were found. -/
structure Ordered (found exposed : List (Nat × String)) : Prop where
  sorted : exposed.Pairwise fun a b => a.1 ≤ b.1
  ties : ∀ i, exposed.filter (·.1 = i) = found.filter (·.1 = i)

/-- The base indexes and names of the columns that a shape exposes. -/
inductive Exposes (columns : List String) : Shape → List (Nat × String) → Prop
  | identity {exposed : List (Nat × String)}
    (h : Consecutive columns 0 columns.length exposed) : Exposes columns .identity exposed
  | suffix {start : Nat} {exposed : List (Nat × String)}
    (h : Consecutive columns start columns.length exposed) : Exposes columns (.suffix start) exposed
  | span {start stop : Nat} {exposed : List (Nat × String)}
    (h : Consecutive columns start stop exposed) : Exposes columns (.span start stop) exposed
  | mapping {pairs : List (String × String)} {found exposed : List (Nat × String)}
    (hfound : List.Forall₂ (Refers columns) pairs found) (h : Ordered found exposed) :
    Exposes columns (.mapping pairs) exposed
  | nested {main : Shape} {variants : List (String × Shape)} {exposed : List (Nat × String)}
    (h : Exposes columns main exposed) : Exposes columns (.nested main variants) exposed

theorem consecutive_of_spanLayout {start stop : Nat} {layout : Layout}
    (h : spanLayout columns start stop = .ok layout) :
    Consecutive columns start stop layout.columns := by
  obtain ⟨hbounds, hl⟩ := Row.spanLayout_eq_ok.mp h
  constructor
  · rw [hl]
    simp only [List.length_map, List.length_take, List.length_drop, List.length_zipIdx]
    omega
  · intro i column hc
    have hi : i < stop - start := by
      have hlt := (List.getElem?_eq_some_iff.mp hc).1
      rw [hl, List.length_map, List.length_take] at hlt
      omega
    have hlt : start + i < columns.length := by omega
    have hcolumn : layout.columns[i]? = some (start + i, columns[start + i]) := by
      simp [hl, hi, hlt]
    cases hcolumn.symm.trans hc
    exact ⟨rfl, List.getElem?_eq_getElem hlt⟩

theorem ordered_mergeSort (found : List (Nat × String)) :
    Ordered found (found.mergeSort fun a b => a.1 ≤ b.1) := by
  have htrans : ∀ a b c : Nat × String, decide (a.1 ≤ b.1) = true → decide (b.1 ≤ c.1) = true →
      decide (a.1 ≤ c.1) = true := by
    intro a b c hab hbc
    exact decide_eq_true (Nat.le_trans (of_decide_eq_true hab) (of_decide_eq_true hbc))
  have htotal : ∀ a b : Nat × String, (decide (a.1 ≤ b.1) || decide (b.1 ≤ a.1)) = true := by
    intro a b
    simpa using Nat.le_total a.1 b.1
  constructor
  · exact (List.pairwise_mergeSort htrans htotal found).imp of_decide_eq_true
  · intro i
    -- columns of one index are in order already, so sorting keeps them as a sublist
    have hone : (found.filter (·.1 = i)).Pairwise fun a b => decide (a.1 ≤ b.1) = true := by
      refine List.pairwise_of_forall_mem_list fun a ha b hb => ?_
      simp only [List.mem_filter, decide_eq_true_eq] at ha hb
      exact decide_eq_true (Nat.le_of_eq (ha.2.trans hb.2.symm))
    have hsub := (List.sublist_mergeSort htrans htotal hone List.filter_sublist).filter (·.1 = i)
    simp only [List.filter_filter, Bool.and_self] at hsub
    refine (hsub.eq_of_length ?_).symm
    exact ((List.mergeSort_perm found _).filter _).length_eq.symm

theorem exposes_of_resolve : (shape : Shape) → {view : View} → shape.resolve columns = .ok view →
    Exposes columns shape view.layout.columns
  | .identity, _, h => by
    rw [resolve, layout_eq_ok] at h
    exact .identity (consecutive_of_spanLayout h.1)
  | .suffix start, _, h => by
    rw [resolve, layout_eq_ok] at h
    exact .suffix (consecutive_of_spanLayout h.1)
  | .span start stop, _, h => by
    rw [resolve, layout_eq_ok] at h
    exact .span (consecutive_of_spanLayout h.1)
  | .mapping pairs, _, h => by
    rw [resolve, layout_eq_ok, mappingLayout_eq_ok] at h
    obtain ⟨⟨found, hfound, hsorted⟩, -⟩ := h
    rw [hsorted]
    exact .mapping hfound (ordered_mergeSort found)
  | .nested main variants, _, h => by
    obtain ⟨inner, hmain, hlayout, -⟩ := resolve_nested.mp h
    rw [hlayout]
    exact .nested (exposes_of_resolve main hmain)

def registrations : Shape → List (String × Shape)
  | .nested main variants => main.registrations ++ variants
  | _ => []

/-- The shape that was registered last under a name. -/
def registered? (shape : Shape) (name : String) : Option Shape :=
  shape.registrations.reverse.lookup name

def at? (shape : Shape) : List String → Option Shape
  | [] => some shape
  | name :: path =>
    match shape.registered? name with
    | some inner => inner.at? path
    | none => none

inductive Resolves (columns : List String) : Option Shape → Option View → Prop
  | none : Resolves columns none none
  | some {shape : Shape} {view : View} (h : shape.resolve columns = .ok view) :
    Resolves columns (some shape) (some view)

theorem Resolves.or {s s' : Option Shape} {v v' : Option View} (h : Resolves columns s v)
    (h' : Resolves columns s' v') : Resolves columns (s.or s') (v.or v') := by
  cases h with
  | none => exact h'
  | some h => exact .some h

/-- The last of the registrations of a name stands, or else what was known. -/
theorem lookup_resolved {variants : List (String × Shape)} {known views : List (String × View)}
    (h : resolveVariants columns variants known = .ok views) (name : String) :
    ∃ found, Resolves columns (variants.reverse.lookup name) found ∧
      views.lookup name = found.or (known.lookup name) := by
  induction variants generalizing known with
  | nil =>
    cases h
    exact ⟨none, .none, rfl⟩
  | cons entry rest ih =>
    obtain ⟨other, shape⟩ := entry
    obtain ⟨view, hshape, hrest⟩ := resolveVariants_cons.mp h
    obtain ⟨found, hfound, hl⟩ := ih hrest
    rw [View.lookup_insertVariant] at hl
    rw [List.reverse_cons, List.lookup_append, List.lookup_cons]
    by_cases hname : name = other
    · refine ⟨found.or (some view), ?_, ?_⟩
      · simpa [hname] using hfound.or (.some hshape)
      · rw [hl, if_pos hname, Option.or_assoc, Option.some_or]
    · refine ⟨found, ?_, ?_⟩
      · simpa [beq_false_of_ne hname] using hfound
      · rw [hl, if_neg hname]

theorem variant_resolved : (shape : Shape) → {view : View} → shape.resolve columns = .ok view →
    ∀ name, Resolves columns (shape.registered? name) (view.variant? name)
  | .identity, view, h, name | .suffix _, view, h, name | .span _ _, view, h, name
  | .mapping _, view, h, name => by
    rw [resolve, layout_eq_ok] at h
    rw [View.variant?, h.2]
    exact .none
  | .nested main variants, view, h, name => by
    obtain ⟨inner, hmain, -, hvariants⟩ := resolve_nested.mp h
    obtain ⟨found, hfound, hl⟩ := lookup_resolved hvariants name
    rw [View.variant?, hl, registered?, registrations, List.reverse_append, List.lookup_append]
    exact hfound.or (variant_resolved main hmain name)

theorem at?_resolved (h : shape.resolve columns = .ok view) (path : List String) :
    Resolves columns (shape.at? path) (view.at? path) := by
  induction path generalizing shape view with
  | nil => exact .some h
  | cons name path ih =>
    have hname := variant_resolved shape h name
    rw [at?, View.at?]
    generalize shape.registered? name = inner, view.variant? name = shown at hname ⊢
    cases hname with
    | none => exact .none
    | some hinner => exact ih hinner

/-- The second shape is the first with the variants of one of its shapes in another order, or the
pairs of one of its mappings. The variants have different names, and the pairs different columns. -/
inductive Rearranged : Shape → Shape → Prop
  | mapping {pairs pairs' : List (String × String)}
    (hbases : (pairs.map fun pair => Text.foldCase pair.2).Nodup) (h : pairs.Perm pairs') :
    Rearranged (.mapping pairs) (.mapping pairs')
  | variants {main : Shape} {variants variants' : List (String × Shape)}
    (hnames : (variants.map (·.1)).Nodup) (h : variants.Perm variants') :
    Rearranged (.nested main variants) (.nested main variants')
  | main {main main' : Shape} {variants : List (String × Shape)} (h : Rearranged main main') :
    Rearranged (.nested main variants) (.nested main' variants)
  | variant {main shape shape' : Shape} {name : String} {before after : List (String × Shape)}
    (h : Rearranged shape shape') :
    Rearranged (.nested main (before ++ (name, shape) :: after))
      (.nested main (before ++ (name, shape') :: after))

theorem Rearranged.symm {shape shape' : Shape} (h : Rearranged shape shape') :
    Rearranged shape' shape := by
  induction h with
  | mapping hbases h => exact .mapping ((h.map _).nodup_iff.mp hbases) h.symm
  | variants hnames h => exact .variants ((h.map _).nodup_iff.mp hnames) h.symm
  | main _ ih => exact .main ih
  | variant _ ih => exact .variant ih

theorem nodup_of_refers {pairs : List (String × String)} {found : List (Nat × String)}
    (h : List.Forall₂ (Refers columns) pairs found)
    (hbases : (pairs.map fun pair => Text.foldCase pair.2).Nodup) :
    (found.map (·.1)).Nodup := by
  have hfolded : pairs.map (fun pair => some (Text.foldCase pair.2)) =
      found.map fun column => columns[column.1]?.map Text.foldCase := by
    induction h with
    | nil => rfl
    | cons hrefers _ ih =>
      obtain ⟨name, hname, hsame⟩ := hrefers.2.found
      rw [List.map_cons, List.map_cons, ih (List.nodup_cons.mp hbases).2, hname, Option.map_some,
        hsame]
  have hnodup : (pairs.map fun pair => some (Text.foldCase pair.2)).Nodup := by
    have hsome := hbases.map (Option.some_injective _)
    rwa [List.map_map] at hsome
  rw [hfolded] at hnodup
  refine List.Nodup.of_map (fun i => columns[i]?.map Text.foldCase) ?_
  rwa [List.map_map]

theorem mappingLayout_perm {pairs pairs' : List (String × String)} {layout : Layout}
    (hbases : (pairs.map fun pair => Text.foldCase pair.2).Nodup) (hperm : pairs.Perm pairs')
    (h : mappingLayout columns pairs = .ok layout) : mappingLayout columns pairs' = .ok layout := by
  obtain ⟨found, hfound, hsorted⟩ := mappingLayout_eq_ok.mp h
  obtain ⟨found', hfound', hperm'⟩ := List.perm_comp_forall₂ hperm.symm hfound
  refine mappingLayout_eq_ok.mpr ⟨found', hfound', ?_⟩
  have hindexes := nodup_of_refers hfound hbases
  rw [hsorted]
  refine List.Perm.eq_of_pairwise ?_ (ordered_mergeSort found).sorted
    (ordered_mergeSort found').sorted ?_
  · intro a b ha hb hab hba
    have hmem : b ∈ found := hperm'.mem_iff.mp (List.mem_mergeSort.mp hb)
    exact List.inj_on_of_nodup_map hindexes (List.mem_mergeSort.mp ha) hmem
      (Nat.le_antisymm hab hba)
  · exact (List.mergeSort_perm found _).trans
      (hperm'.symm.trans (List.mergeSort_perm found' _).symm)

theorem resolveVariants_congr {name : String} {shape shape' : Shape}
    (hshape : ∀ view, shape.resolve columns = .ok view → shape'.resolve columns = .ok view)
    {before after : List (String × Shape)} {known views : List (String × View)}
    (h : resolveVariants columns (before ++ (name, shape) :: after) known = .ok views) :
    resolveVariants columns (before ++ (name, shape') :: after) known = .ok views := by
  induction before generalizing known with
  | nil =>
    obtain ⟨view, hview, hrest⟩ := resolveVariants_cons.mp h
    exact resolveVariants_cons.mpr ⟨view, hshape view hview, hrest⟩
  | cons entry before ih =>
    obtain ⟨view, hview, hrest⟩ := resolveVariants_cons.mp h
    exact resolveVariants_cons.mpr ⟨view, hview, ih hrest⟩

theorem Rearranged.resolve {shape shape' : Shape} (h : Rearranged shape shape') {view : View}
    (hview : shape.resolve columns = .ok view) : shape'.resolve columns = .ok view := by
  induction h generalizing view with
  | mapping hbases hperm =>
    rw [Shape.resolve, layout_eq_ok] at hview ⊢
    exact ⟨mappingLayout_perm hbases hperm hview.1, hview.2⟩
  | @variants main variants variants' hnames hperm =>
    -- a shape paired with itself is an order of registration alone
    let pairs := variants.map fun entry => (entry.1, entry.2, entry.2)
    have hpairs : pairs.map (fun pair => (pair.1, pair.2.1)) = variants := by
      simp [pairs, Function.comp_def]
    have hpairs' : pairs.map (fun pair => (pair.1, pair.2.2)) = variants := by
      simp [pairs, Function.comp_def]
    have hreordered : Reordered (.nested main variants) (.nested main variants') := by
      rw [← hpairs]
      refine .nested (.refl main) (fun pair hp => ?_) ?_ (hpairs'.symm ▸ hperm.symm)
      · obtain ⟨entry, -, rfl⟩ := List.mem_map.mp hp
        exact .refl _
      · simpa [pairs, Function.comp_def] using hnames
    exact hreordered.resolve hview
  | main _ ih =>
    obtain ⟨inner, hmain, hlayout, hvariants⟩ := resolve_nested.mp hview
    exact resolve_nested.mpr ⟨inner, ih hmain, hlayout, hvariants⟩
  | variant _ ih =>
    obtain ⟨inner, hmain, hlayout, hvariants⟩ := resolve_nested.mp hview
    exact resolve_nested.mpr ⟨inner, hmain, hlayout, resolveVariants_congr (fun _ => ih) hvariants⟩

theorem Rearranged.resolve_iff {shape shape' : Shape} (h : Rearranged shape shape') :
    shape.resolve columns = .ok view ↔ shape'.resolve columns = .ok view :=
  ⟨h.resolve, h.symm.resolve⟩

/-- Under a name stands nothing, or a shape with a view that shows what the shape exposes. -/
inductive Shown (columns : List String) : Option Shape → Option View → Prop
  | none : Shown columns none none
  | some {shape : Shape} {view : View} (exposes : Exposes columns shape view.layout.columns)
    (indexes : ∀ column ∈ view.layout.columns, column.1 < columns.length)
    (sorted : View.Sorted view.variants) : Shown columns (some shape) (some view)

/-- A view that shows, under each path of names, what the shape that was registered last under them
exposes of the same columns. -/
def Canonical (columns : List String) (shape : Shape) (view : View) : Prop :=
  ∀ path, Shown columns (shape.at? path) (view.at? path)

theorem canonical_of_resolve (h : shape.resolve columns = .ok view) :
    Canonical columns shape view := by
  intro path
  have hpath := at?_resolved h path
  generalize shape.at? path = part, view.at? path = inner at hpath ⊢
  cases hpath with
  | none => exact .none
  | some hinner =>
    have hsound := resolve_sound _ hinner
    refine .some (exposes_of_resolve _ hinner) ?_ hsound.sorted
    cases hsound with
    | mk indexes _ _ => exact indexes

theorem Consecutive.unique {start stop : Nat} {exposed exposed' : List (Nat × String)}
    (h : Consecutive columns start stop exposed) (h' : Consecutive columns start stop exposed') :
    exposed = exposed' := by
  refine List.ext_getElem (h.length.trans h'.length.symm) fun i hi hi' => ?_
  obtain ⟨hindex, hname⟩ := h.column i _ (List.getElem?_eq_getElem hi)
  obtain ⟨hindex', hname'⟩ := h'.column i _ (List.getElem?_eq_getElem hi')
  refine Prod.ext (hindex.trans hindex'.symm) ?_
  rw [hindex, ← hindex', hname'] at hname
  exact (Option.some.inj hname).symm

theorem refers_unique {pairs : List (String × String)} {found found' : List (Nat × String)}
    (h : List.Forall₂ (Refers columns) pairs found)
    (h' : List.Forall₂ (Refers columns) pairs found') : found = found' :=
  Except.ok.inj ((mappedColumns_eq_ok.mpr h).symm.trans (mappedColumns_eq_ok.mpr h'))

theorem mem_iff_of_ties {exposed exposed' : List (Nat × String)}
    (hties : ∀ i, exposed.filter (·.1 = i) = exposed'.filter (·.1 = i)) (column : Nat × String) :
    column ∈ exposed ↔ column ∈ exposed' := by
  have hc := congrArg (column ∈ ·) (hties column.1)
  simpa [List.mem_filter] using hc

theorem index_le_of_sorted {first column : Nat × String} {rest : List (Nat × String)}
    (h : (first :: rest).Pairwise fun a b => a.1 ≤ b.1) (hc : column ∈ first :: rest) :
    first.1 ≤ column.1 := by
  rcases List.mem_cons.mp hc with rfl | hc
  · exact Nat.le_refl _
  · exact (List.pairwise_cons.mp h).1 column hc

theorem eq_of_sorted_of_ties {exposed exposed' : List (Nat × String)}
    (h : exposed.Pairwise fun a b => a.1 ≤ b.1) (h' : exposed'.Pairwise fun a b => a.1 ≤ b.1)
    (hties : ∀ i, exposed.filter (·.1 = i) = exposed'.filter (·.1 = i)) : exposed = exposed' := by
  have hmem := mem_iff_of_ties hties
  induction exposed generalizing exposed' with
  | nil => exact (List.eq_nil_iff_forall_not_mem.mpr fun c hc => nomatch (hmem c).mpr hc).symm
  | cons first rest ih =>
    cases exposed' with
    | nil => cases (hmem first).mp List.mem_cons_self
    | cons first' rest' =>
      have hindex : first.1 = first'.1 := Nat.le_antisymm
        (index_le_of_sorted h ((hmem first').mpr List.mem_cons_self))
        (index_le_of_sorted h' ((hmem first).mp List.mem_cons_self))
      have hfirst := hties first.1
      rw [List.filter_cons_of_pos (by simp), List.filter_cons_of_pos (by simp [hindex])] at hfirst
      obtain ⟨rfl, -⟩ := List.cons.inj hfirst
      have hrest : ∀ i, rest.filter (·.1 = i) = rest'.filter (·.1 = i) := by
        intro i
        have hi := hties i
        rw [List.filter_cons, List.filter_cons] at hi
        split at hi
        · exact (List.cons.inj hi).2
        · exact hi
      rw [ih (List.pairwise_cons.mp h).2 (List.pairwise_cons.mp h').2 hrest (mem_iff_of_ties hrest)]

theorem Ordered.unique {found exposed exposed' : List (Nat × String)} (h : Ordered found exposed)
    (h' : Ordered found exposed') : exposed = exposed' :=
  eq_of_sorted_of_ties h.sorted h'.sorted fun i => (h.ties i).trans (h'.ties i).symm

theorem Exposes.unique {exposed exposed' : List (Nat × String)}
    (h : Exposes columns shape exposed) (h' : Exposes columns shape exposed') :
    exposed = exposed' := by
  induction h with
  | identity h | suffix h | span h =>
    cases h' with
    | _ h' => exact h.unique h'
  | mapping hfound h =>
    cases h' with
    | mapping hfound' h' =>
      cases refers_unique hfound hfound'
      exact h.unique h'
  | nested _ ih =>
    cases h' with
    | nested h' => exact ih h'

theorem Canonical.variant (h : Canonical columns shape view) (name : String) :
    (shape.registered? name = none ∧ view.variant? name = none) ∨
      ∃ part inner, shape.registered? name = some part ∧ view.variant? name = some inner ∧
        Canonical columns part inner := by
  have hname := fun path => h (name :: path)
  simp only [at?, View.at?] at hname
  generalize shape.registered? name = registered, view.variant? name = shown at hname ⊢
  cases registered with
  | none =>
    cases shown with
    | none => exact .inl ⟨rfl, rfl⟩
    | some inner => cases hname []
  | some part =>
    cases shown with
    | none => cases hname []
    | some inner => exact .inr ⟨part, inner, rfl, rfl, hname⟩

theorem Canonical.unique {view' : View} (h : Canonical columns shape view)
    (h' : Canonical columns shape view') (hsound : view.Sound columns.length) : view = view' := by
  induction hsound generalizing shape view' with
  | @mk layout variants _ sorted _ ih =>
    obtain ⟨⟨exposed'⟩, variants'⟩ := view'
    cases h [] with
    | some exposes _ _ =>
    cases h' [] with
    | some exposes' _ sorted' =>
    cases exposes.unique exposes'
    congr 1
    refine View.eq_of_lookup sorted sorted' fun name => ?_
    rcases h.variant name with ⟨hnone, hl⟩ | ⟨part, inner, hpart, hl, hinner⟩
    · rcases h'.variant name with ⟨-, hl'⟩ | ⟨_, _, hpart', -, -⟩
      · exact hl.trans hl'.symm
      · cases hnone.symm.trans hpart'
    · rcases h'.variant name with ⟨hnone, -⟩ | ⟨part', inner', hpart', hl', hinner'⟩
      · cases hnone.symm.trans hpart
      · cases hpart.symm.trans hpart'
        cases ih (name, inner) (View.mem_of_lookup hl) hinner hinner'
        exact hl.trans hl'.symm

/-- A shape resolves exactly when all that its tree refers to is there, and tells a mismatch
otherwise. What it resolves to is its one canonical view, in whatever order different variants are
registered and different columns are mapped. -/
theorem resolve_canonical (columns : List String) (shape : Shape) :
    ((∃ view, shape.resolve columns = .ok view) ↔
      ∀ part, Part part shape → part.Fits columns) ∧
    (∀ cause, shape.resolve columns = .error cause → ∃ part mismatch,
      Part part shape ∧ Fault columns part mismatch ∧ cause = .mismatch mismatch) ∧
    (∀ view, shape.resolve columns = .ok view → Canonical columns shape view ∧
      ∀ other, Canonical columns shape other → other = view) ∧
    ∀ other view, Rearranged shape other →
      (shape.resolve columns = .ok view ↔ other.resolve columns = .ok view) := by
  refine ⟨exists_resolve_iff, fun _ => fault_of_resolve shape, fun view h => ?_,
    fun _ _ h => h.resolve_iff⟩
  have hcanonical := canonical_of_resolve h
  exact ⟨hcanonical, fun _ hother => (hcanonical.unique hother (resolve_sound shape h)).symm⟩

def spread : Shape :=
  .nested (.mapping [("b", "title"), ("a", "ID"), ("c", "id")])
    [("tail", .suffix 1), ("all", .identity)]

def lastTwo : Shape :=
  .nested (.suffix 2) [("deep", .mapping [("n", "NAME")])]

/-- Two pairs of the mapping are of one column, and a variant is registered again. -/
def replaced : Shape :=
  .nested spread [("tail", .span 4 4), ("inner", lastTwo)]

def replacedLater : Shape :=
  .nested spread [("inner", lastTwo), ("tail", .span 4 4)]

def replacedView : View where
  layout := ⟨[(0, "a"), (0, "c"), (3, "b")]⟩
  variants := [("all", ⟨⟨[(0, "id"), (1, "name"), (2, "ID"), (3, "title")]⟩, []⟩),
    ("inner", ⟨⟨[(2, "ID"), (3, "title")]⟩, [("deep", ⟨⟨[(1, "n")]⟩, []⟩)]⟩), ("tail", ⟨⟨[]⟩, []⟩)]

theorem replaced_resolved :
    replaced.resolve ["id", "name", "ID", "title"] = .ok replacedView := by
  have hspread : mappingLayout ["id", "name", "ID", "title"]
      [("b", "title"), ("a", "ID"), ("c", "id")] = .ok replacedView.layout := by
    have hfound : mappedColumns ["id", "name", "ID", "title"]
        [("b", "title"), ("a", "ID"), ("c", "id")] = .ok [(3, "b"), (0, "a"), (0, "c")] := rfl
    have hsorted : [(3, "b"), (0, "a"), (0, "c")].mergeSort
        (fun a b : Nat × String => a.1 ≤ b.1) = replacedView.layout.columns := by
      simp [List.mergeSort, replacedView]
    rw [mappingLayout, hfound, Except.map, hsorted]
  have hdeep : mappingLayout ["id", "name", "ID", "title"] [("n", "NAME")] =
      .ok ⟨[(1, "n")]⟩ := by
    have hfound : mappedColumns ["id", "name", "ID", "title"] [("n", "NAME")] =
      .ok [(1, "n")] := rfl
    rw [mappingLayout, hfound, Except.map, List.mergeSort_singleton]
  simp only [replaced, spread, lastTwo, resolve, hspread, resolveVariants, hdeep]
  rfl

theorem resolve_canonical_of_replaced_variant :
    Rearranged replaced replacedLater ∧
      replaced.resolve ["id", "name", "ID", "title"] = .ok replacedView ∧
      Canonical ["id", "name", "ID", "title"] replaced replacedView ∧
      replacedLater.resolve ["id", "name", "ID", "title"] = .ok replacedView ∧
      replaced.resolve ["id"] = .error (.mismatch (.missingMappedColumn "title" ["id"])) ∧
      ∃ part, Part part replaced ∧
        Fault ["id"] part (.missingMappedColumn "title" ["id"]) := by
  have horder : Rearranged replaced replacedLater := .variants (by decide) (.swap _ _ _)
  have hmissing :
      replaced.resolve ["id"] = .error (.mismatch (.missingMappedColumn "title" ["id"])) := rfl
  obtain ⟨-, -, hview, hother⟩ := resolve_canonical ["id", "name", "ID", "title"] replaced
  obtain ⟨-, hmismatch, -⟩ := resolve_canonical ["id"] replaced
  obtain ⟨part, mismatch, hpart, hfault, heq⟩ := hmismatch _ hmissing
  cases heq
  exact ⟨horder, replaced_resolved, (hview _ replaced_resolved).1,
    (hother _ _ horder).mp replaced_resolved, hmissing, part, hpart, hfault⟩

end RelQuery.Shape
