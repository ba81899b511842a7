import RelQuery.Proofs.Row.Made
import RelQuery.Row.Equality

/-!
# Rows as they are observed

What a row shows is a tree: its columns with their values in order, and under each variant name the
tree of the variant. The tree tells neither how the row is stored nor in which order its variants
were registered, and rows are equal when their trees are.
-/

set_option autoImplicit false

namespace RelQuery

inductive Tree
  | node (entries : Outcome (List (String × Value))) (variant? : String → Option Tree)

mutual

def View.tree (base : Row) : View → Tree
  | ⟨layout, variants⟩ =>
    .node (Row.adapted base ⟨layout, variants⟩).entries (variantTree? base variants)

def variantTree? (base : Row) : List (String × View) → String → Option Tree
  | [], _ => none
  | (name, view) :: rest, other =>
    if other = name then some (view.tree base) else variantTree? base rest other

end

theorem variantTree?_eq (base : Row) (variants : List (String × View)) (name : String) :
    variantTree? base variants name = (variants.lookup name).map (View.tree base) := by
  induction variants with
  | nil => rfl
  | cons entry rest ih =>
    obtain ⟨n, view⟩ := entry
    rw [variantTree?, View.lookup_cons, ih]
    split <;> rfl

namespace Row

/-- What a row shows, from its entries and its variants. -/
def tree : Row → Tree
  | .adapted base view => view.tree base
  | r => .node r.entries fun _ => none

theorem tree_eq (r : Row) : r.tree = .node r.entries fun name => (r.variant? name).map tree := by
  cases r with
  | live | detached | literal => rfl
  | adapted base view =>
    obtain ⟨layout, variants⟩ := view
    rw [tree, View.tree]
    congr 1
    funext name
    rw [variantTree?_eq, variant?, Option.map_map]
    rfl

theorem tree_eq_tree {r s : Row} : r.tree = s.tree ↔ r.entries = s.entries ∧
    ∀ name, (r.variant? name).map tree = (s.variant? name).map tree := by
  rw [tree_eq r, tree_eq s, Tree.node.injEq, funext_iff]

variable {r s : Row} {entries entries' : List (String × Value)}

theorem sameEntries_eq (hr : r.Lists entries) (hs : s.Lists entries')
    (hlen : entries.length = entries'.length) (n i : Nat) (hn : i + n = entries.length) :
    r.sameEntries s n i = .ok (decide (entries.drop i = entries'.drop i)) := by
  induction n generalizing i with
  | zero =>
    have hi : entries.length ≤ i := Nat.le_of_eq hn.symm
    rw [List.drop_of_length_le hi, List.drop_of_length_le (hlen ▸ hi)]
    rfl
  | succ n ih =>
    have hi : i < entries.length := by omega
    have hi' : i < entries'.length := hlen ▸ hi
    have hname := (hr.entry i _ (List.getElem?_eq_getElem hi)).1
    have hvalue := hr.value (List.getElem?_eq_getElem hi)
    have hname' := (hs.entry i _ (List.getElem?_eq_getElem hi')).1
    have hvalue' := hs.value (List.getElem?_eq_getElem hi')
    have hrest := ih (i + 1) (by omega)
    have hpair : (entries[i].1 = entries'[i].1 ∧ entries[i].2 = entries'[i].2) ↔
        entries[i] = entries'[i] := Prod.ext_iff.symm
    simp only [sameEntries, hname, hvalue, hname', hvalue', hrest, bind, Except.bind, hpair,
      List.drop_eq_getElem_cons hi, List.drop_eq_getElem_cons hi', List.cons.injEq]
    by_cases he : entries[i] = entries'[i] <;> simp [he, pure, Except.pure]

theorem sameColumns_eq (hr : r.Sound) (hs : s.Sound) :
    ∃ b, r.sameColumns s = .ok b ∧ (b = true ↔ r.entries = s.entries) := by
  obtain ⟨entries, hr⟩ := hr.lists
  obtain ⟨entries', hs⟩ := hs.lists
  rw [hr.entries_eq, hs.entries_eq, sameColumns, hr.length, hs.length]
  by_cases hlen : entries.length = entries'.length
  · rw [if_pos hlen, sameEntries_eq hr hs hlen _ 0 (Nat.zero_add _)]
    exact ⟨_, rfl, by simp⟩
  · rw [if_neg hlen]
    refine ⟨false, rfl, ?_⟩
    have hne : entries ≠ entries' := fun he => hlen (congrArg List.length he)
    simp [hne]

theorem mem_variantNames {name : String} :
    name ∈ r.variantNames ↔ ∃ s, r.variant? name = some s := by
  cases r with
  | live | detached | literal => simp [variantNames, variant?]
  | adapted base view =>
    show name ∈ view.variants.map (·.1) ↔ ∃ s, (view.variants.lookup name).map _ = some s
    constructor
    · intro h
      cases hl : view.variants.lookup name with
      | some w => exact ⟨_, rfl⟩
      | none =>
        obtain ⟨entry, he, rfl⟩ := List.mem_map.mp h
        rw [List.lookup_eq_none_iff] at hl
        simpa using hl entry he
    · rintro ⟨s, hs⟩
      obtain ⟨w, hw, -⟩ := Option.map_eq_some_iff.mp hs
      exact List.mem_map.mpr ⟨(name, w), View.mem_of_lookup hw, rfl⟩

theorem Sound.sorted_variantNames (h : r.Sound) : r.variantNames.Pairwise (· < ·) := by
  cases h with
  | live | detached | literal => exact .nil
  | adapted _ hview => exact List.pairwise_map.mpr hview.sorted

theorem variantNames_eq (hr : r.Sound) (hs : s.Sound)
    (h : ∀ name, (r.variant? name).map tree = (s.variant? name).map tree) :
    r.variantNames = s.variantNames := by
  refine hr.sorted_variantNames.eq_of_mem_iff hs.sorted_variantNames fun name => ?_
  have hsome := congrArg Option.isSome (h name)
  rw [Option.isSome_map, Option.isSome_map] at hsome
  rw [mem_variantNames, mem_variantNames, ← Option.isSome_iff_exists, hsome,
    Option.isSome_iff_exists]

end Row

theorem variantsShow_eq {base s : Row} (hs : s.Sound) {variants : List (String × View)}
    (hshows : ∀ entry ∈ variants, ∀ t : Row, t.Sound →
      ∃ b, entry.2.shows base t = .ok b ∧ (b = true ↔ entry.2.tree base = t.tree)) :
    ∃ b, variantsShow base variants s = .ok b ∧
      (b = true ↔ ∀ entry ∈ variants,
        (s.variant? entry.1).map Row.tree = some (entry.2.tree base)) := by
  induction variants with
  | nil => exact ⟨true, rfl, by simp⟩
  | cons entry rest ih =>
    obtain ⟨name, view⟩ := entry
    obtain ⟨b, hb, hrest⟩ := ih fun e he => hshows e (List.mem_cons_of_mem _ he)
    rw [variantsShow]
    cases ht : s.variant? name with
    | none => exact ⟨false, rfl, by simp [ht]⟩
    | some t =>
      obtain ⟨c, hc, htree⟩ := hshows (name, view) List.mem_cons_self t (hs.variant ht)
      simp only [hc, bind, Except.bind]
      cases c with
      | false =>
        have hne : t.tree ≠ view.tree base := fun he => by simpa using htree.mpr he.symm
        exact ⟨false, rfl, by simp [ht, hne]⟩
      | true =>
        have he : t.tree = view.tree base := (htree.mp rfl).symm
        exact ⟨b, hb, by simp [ht, he, hrest]⟩

theorem View.shows_eq {base : Row} (hbase : base.Sound) {view : View}
    (hview : view.Sound base.length) : ∀ s : Row, s.Sound →
      ∃ b, view.shows base s = .ok b ∧ (b = true ↔ view.tree base = s.tree) := by
  induction hview with
  | @mk layout variants indexes sorted inner ih =>
    intro s hs
    have hr : (Row.adapted base ⟨layout, variants⟩).Sound :=
      .adapted hbase (.mk indexes sorted inner)
    obtain ⟨b, hb, hcolumns⟩ := Row.sameColumns_eq hr hs
    obtain ⟨c, hc, hvariants⟩ := variantsShow_eq hs ih
    have htree : View.tree base ⟨layout, variants⟩ = s.tree ↔ b = true ∧
        variants.map (·.1) = s.variantNames ∧ c = true := by
      show (Row.adapted base ⟨layout, variants⟩).tree = s.tree ↔ _
      rw [Row.tree_eq_tree, hcolumns, hvariants]
      refine and_congr_right fun _ => ⟨?_, ?_⟩
      · intro h
        refine ⟨Row.variantNames_eq hr hs h, ?_⟩
        intro entry he
        rw [← h entry.1, Row.variant?, View.variant?, View.lookup_of_mem sorted he]
        rfl
      · rintro ⟨hnames, h⟩ name
        cases hl : variants.lookup name with
        | some w =>
          rw [h (name, w) (View.mem_of_lookup hl), Row.variant?, View.variant?, hl]
          rfl
        | none =>
          have hnone : ∀ t : Row, s.variant? name ≠ some t := by
            intro t ht
            have hmem : name ∈ variants.map (·.1) := by
              rw [hnames]
              exact Row.mem_variantNames.mpr ⟨t, ht⟩
            obtain ⟨u, hu⟩ := Row.mem_variantNames (r := .adapted base ⟨layout, variants⟩).mp hmem
            rw [Row.variant?, View.variant?, hl] at hu
            cases hu
          rw [Option.eq_none_iff_forall_ne_some.mpr hnone, Row.variant?, View.variant?, hl]
          rfl
    rw [View.shows, hb]
    simp only [bind, Except.bind, hc, htree]
    cases b with
    | false => exact ⟨false, rfl, by simp⟩
    | true =>
      by_cases hnames : variants.map (·.1) = s.variantNames
      · exact ⟨c, by simp [hnames], by simp [hnames]⟩
      · exact ⟨false, by simp [hnames, pure, Except.pure], by simp [hnames]⟩

namespace Row

variable {r s t : Row}

theorem equals_eq (hr : r.Sound) (hs : s.Sound) :
    ∃ b, r.equals s = .ok b ∧ (b = true ↔ r.tree = s.tree) := by
  have hplain : (∀ name, r.variant? name = none) → r.equals s = (do
      if ← r.sameColumns s then pure (decide (s.variantNames = [])) else pure false) →
        ∃ b, r.equals s = .ok b ∧ (b = true ↔ r.tree = s.tree) := by
    intro hnone hequals
    obtain ⟨b, hb, hcolumns⟩ := sameColumns_eq hr hs
    have hvariants : (∀ name, (r.variant? name).map tree = (s.variant? name).map tree) ↔
        s.variantNames = [] := by
      simp only [hnone, Option.map_none, List.eq_nil_iff_forall_not_mem, mem_variantNames]
      refine forall_congr' fun name => ?_
      cases s.variant? name <;> simp
    rw [hequals, hb, tree_eq_tree, hvariants, ← hcolumns]
    cases b with
    | false => exact ⟨false, rfl, by simp⟩
    | true => exact ⟨_, rfl, by simp⟩
  cases hr with
  | live | detached | literal => exact hplain (fun _ => rfl) rfl
  | adapted hbase hview => exact View.shows_eq hbase hview s hs

/-- Rows that show the same store the same at each of their columns. -/
structure Interchangeable (r s : Row) : Prop where
  names : r.columnNames = s.columnNames
  stored : ∀ i < r.length, r.stored i = s.stored i

theorem interchangeable_of_entries (hr : r.Sound) (hs : s.Sound) (h : r.entries = s.entries) :
    r.Interchangeable s := by
  obtain ⟨entries, hlists⟩ := hr.lists
  have hlists' := hs.lists_of_entries (h.symm.trans hlists.entries_eq)
  refine ⟨hlists.columnNames_eq.trans hlists'.columnNames_eq.symm, ?_⟩
  intro i hi
  rw [hlists.length] at hi
  obtain ⟨-, hv⟩ := hlists.entry i _ (List.getElem?_eq_getElem hi)
  obtain ⟨-, hv'⟩ := hlists'.entry i _ (List.getElem?_eq_getElem hi)
  exact hv.trans hv'.symm

theorem interchangeable_copy (r : Row) : r.copy.Interchangeable r := by
  refine ⟨columnNames_copy r, ?_⟩
  suffices h : ∀ i, r.copy.stored i = r.stored i from fun i _ => h i
  intro i
  induction r generalizing i with
  | live | detached | literal => rfl
  | adapted base view ih => simp only [copy, stored, length_copy, ih]

theorem Interchangeable.tryValue (h : r.Interchangeable s) (i : Nat) :
    r.tryValue i = s.tryValue i := by
  have hlength : r.length = s.length := congrArg List.length h.names
  rw [Row.tryValue, Row.tryValue, hlength]
  split
  · rename_i hi
    rw [h.stored i (hlength ▸ hi)]
  · rfl

theorem Interchangeable.values (h : r.Interchangeable s) : r.values = s.values := by
  have hvalue (i : Nat) : r.value i = s.value i := by
    rw [value, value, h.tryValue]
  have hfrom (n i : Nat) : r.valuesFrom n i = s.valuesFrom n i := by
    induction n generalizing i with
    | zero => rfl
    | succ n ih => simp only [valuesFrom, hvalue, ih]
  rw [Row.values, Row.values, hfrom, length, h.names, length]

theorem Interchangeable.entries (h : r.Interchangeable s) : r.entries = s.entries := by
  rw [Row.entries, Row.entries, h.values, h.names]

theorem Interchangeable.adapted (h : r.Interchangeable s) (view : View) :
    (Row.adapted r view).Interchangeable (.adapted s view) := by
  refine ⟨rfl, fun i _ => ?_⟩
  have hlength : r.length = s.length := congrArg List.length h.names
  rw [Row.stored, Row.stored]
  rcases view.layout.baseIndex i with f | j
  · rfl
  · show (if j < r.length then r.stored j else _) = if j < s.length then s.stored j else _
    rw [hlength]
    split
    · rename_i hj
      exact h.stored j (hlength ▸ hj)
    · rfl

end Row

mutual

theorem View.tree_congr {base base' : Row} (h : base.Interchangeable base') :
    (view : View) → view.tree base = view.tree base'
  | ⟨layout, variants⟩ => by
    rw [View.tree, View.tree, (h.adapted ⟨layout, variants⟩).entries,
      variantTree?_congr h variants]

theorem variantTree?_congr {base base' : Row} (h : base.Interchangeable base') :
    (variants : List (String × View)) → variantTree? base variants = variantTree? base' variants
  | [] => rfl
  | (name, view) :: rest => by
    funext other
    rw [variantTree?, variantTree?, view.tree_congr h, variantTree?_congr h rest]

end

theorem Row.tree_copy (r : Row) : r.copy.tree = r.tree := by
  cases r with
  | live | detached | literal =>
    exact congrArg (Tree.node · _) (interchangeable_copy _).entries
  | adapted base view => exact view.tree_congr (interchangeable_copy base)

namespace Shape

variable {columns : List String}

/-- The second shape registers the variants of the first in another order, at every level. The
variants of one shape have different names. -/
inductive Reordered : Shape → Shape → Prop
  | refl (shape : Shape) : Reordered shape shape
  | nested {main main' : Shape} {pairs : List (String × Shape × Shape)}
    {variants : List (String × Shape)} (hmain : Reordered main main')
    (hinner : ∀ pair ∈ pairs, Reordered pair.2.1 pair.2.2) (hnames : (pairs.map (·.1)).Nodup)
    (hperm : variants.Perm (pairs.map fun pair => (pair.1, pair.2.2))) :
    Reordered (.nested main (pairs.map fun pair => (pair.1, pair.2.1))) (.nested main' variants)

theorem lookup_of_not_mem {variants : List (String × Shape)} {known views : List (String × View)}
    (h : resolveVariants columns variants known = .ok views) {name : String}
    (hn : name ∉ variants.map (·.1)) : views.lookup name = known.lookup name := by
  induction variants generalizing known with
  | nil =>
    cases h
    rfl
  | cons entry rest ih =>
    obtain ⟨other, shape⟩ := entry
    obtain ⟨hne, hfresh⟩ := not_or.mp (List.mem_cons.not.mp hn)
    obtain ⟨view, -, hrest⟩ := resolveVariants_cons.mp h
    rw [ih hrest hfresh, View.lookup_insertVariant, if_neg hne]

theorem lookup_of_mem {variants : List (String × Shape)} {known views : List (String × View)}
    (h : resolveVariants columns variants known = .ok views) (hnames : (variants.map (·.1)).Nodup)
    {entry : String × Shape} (he : entry ∈ variants) :
    ∃ view, entry.2.resolve columns = .ok view ∧ views.lookup entry.1 = some view := by
  induction variants generalizing known with
  | nil => cases he
  | cons first rest ih =>
    obtain ⟨other, shape⟩ := first
    obtain ⟨hfresh, hnodup⟩ := List.nodup_cons.mp hnames
    obtain ⟨view, hshape, hrest⟩ := resolveVariants_cons.mp h
    rcases List.mem_cons.mp he with rfl | he
    · refine ⟨view, hshape, ?_⟩
      rw [lookup_of_not_mem hrest hfresh, View.lookup_insertVariant, if_pos rfl]
    · exact ih hrest hnodup he

theorem Reordered.resolve {shape shape' : Shape} (h : shape.Reordered shape') {view : View}
    (hview : shape.resolve columns = .ok view) : shape'.resolve columns = .ok view := by
  induction h generalizing view with
  | refl => exact hview
  | @nested main main' pairs variants _ _ hnames hperm hmain hinner =>
    obtain ⟨inner, hinnerview, hlayout, hviews⟩ := resolve_nested.mp hview
    have hsame : (variants.map (·.1)).Perm (pairs.map (·.1)) := by
      simpa [List.map_map, Function.comp_def] using hperm.map (·.1)
    have hfirst : ((pairs.map fun pair => (pair.1, pair.2.1)).map (·.1)).Nodup := by
      simpa [List.map_map, Function.comp_def] using hnames
    have hpair (pair : String × Shape × Shape) (hp : pair ∈ pairs) : ∃ w,
        pair.2.2.resolve columns = .ok w ∧ view.variants.lookup pair.1 = some w := by
      obtain ⟨w, hw, hl⟩ := lookup_of_mem hviews hfirst
        (List.mem_map_of_mem (f := fun pair => (pair.1, pair.2.1)) hp)
      exact ⟨w, hinner pair hp hw, hl⟩
    obtain ⟨views', hviews'⟩ : ∃ views', resolveVariants columns variants inner.variants =
        .ok views' := by
      refine resolveVariants_ok (fun entry he => ?_) _
      obtain ⟨pair, hp, rfl⟩ := List.mem_map.mp (hperm.mem_iff.mp he)
      obtain ⟨w, hw, -⟩ := hpair pair hp
      exact ⟨w, hw⟩
    have hsound := resolve_sound main hinnerview
    have hequal : view.variants = views' := by
      refine View.eq_of_lookup (resolveVariants_sound _ hsound.sorted hsound.inner hviews).1
        (resolveVariants_sound _ hsound.sorted hsound.inner hviews').1 fun name => ?_
      by_cases hn : name ∈ pairs.map (·.1)
      · obtain ⟨pair, hp, rfl⟩ := List.mem_map.mp hn
        obtain ⟨w, hw, hl⟩ := hpair pair hp
        obtain ⟨w', hw', hl'⟩ := lookup_of_mem hviews' (hsame.nodup_iff.mpr hnames)
          (hperm.mem_iff.mpr (List.mem_map_of_mem (f := fun pair => (pair.1, pair.2.2)) hp))
        rw [hl, hl', Except.ok.inj (hw.symm.trans hw')]
      · have hn' : name ∉ (pairs.map fun pair => (pair.1, pair.2.1)).map (·.1) := by
          simpa [List.map_map, Function.comp_def] using hn
        rw [lookup_of_not_mem hviews hn', lookup_of_not_mem hviews' (hsame.mem_iff.not.mpr hn)]
    exact resolve_nested.mpr ⟨inner, hmain hinnerview, hlayout, hequal ▸ hviews'⟩

end Shape

namespace Row

variable {r s t : Row}

theorem equals_iff (hr : r.Made) (hs : s.Made) : r.equals s = .ok true ↔ r.tree = s.tree := by
  obtain ⟨b, hb, htree⟩ := equals_eq hr.sound hs.sound
  rw [hb, ← htree]
  exact ⟨Except.ok.inj, congrArg _⟩

theorem equals_comm (hr : r.Made) (hs : s.Made) : r.equals s = s.equals r := by
  obtain ⟨b, hb, htree⟩ := equals_eq hr.sound hs.sound
  obtain ⟨c, hc, htree'⟩ := equals_eq hs.sound hr.sound
  have hbc : b = c := Bool.eq_iff_iff.mpr (htree.trans (eq_comm.trans htree'.symm))
  rw [hb, hc, hbc]

theorem equals_adapt (hr : r.Made) (hs : s.Made) (h : r.equals s = .ok true)
    {shape shape' : Shape} (hshape : shape.Reordered shape') {a : Row}
    (ha : r.adapt shape = .ok a) : ∃ b, s.adapt shape' = .ok b ∧ a.equals b = .ok true := by
  obtain ⟨hentries, -⟩ := tree_eq_tree.mp ((equals_iff hr hs).mp h)
  have hsame := interchangeable_of_entries hr.sound hs.sound hentries
  obtain ⟨view, hview, rfl⟩ := adapt_eq_ok.mp ha
  have hb : s.adapt shape' = .ok (.adapted s view) :=
    adapt_eq_ok.mpr ⟨view, hsame.names ▸ hshape.resolve hview, rfl⟩
  exact ⟨_, hb, (equals_iff (.adapt hr ha) (.adapt hs hb)).mpr (view.tree_congr hsame)⟩

/-- Rows can always be read and compared, and are equal when they show the same, whether they are
one row, rows of other storages or rows whose variants were registered in other orders. -/
theorem equality_of_trees (hr : r.Made) (hs : s.Made) (ht : t.Made) :
    (∃ entries, r.entries = .ok entries) ∧
    (∀ identical : Bool, (identical = true → r = s) →
      ∃ b, r.same identical s = .ok b ∧ (b = true ↔ r.tree = s.tree)) ∧
    r.equals r = .ok true ∧
    r.equals s = s.equals r ∧
    (r.equals s = .ok true → s.equals t = .ok true → r.equals t = .ok true) ∧
    (r.equals s = .ok true → ∀ (shape shape' : Shape) (a : Row), shape.Reordered shape' →
      r.adapt shape = .ok a → ∃ b, s.adapt shape' = .ok b ∧ a.equals b = .ok true) := by
  refine ⟨?_, ?_, (equals_iff hr hr).mpr rfl, equals_comm hr hs, ?_, ?_⟩
  · obtain ⟨entries, hentries⟩ := hr.sound.lists
    exact ⟨entries, hentries.entries_eq⟩
  · rintro (_ | _) hsame
    · exact equals_eq hr.sound hs.sound
    · exact ⟨true, rfl, by simp [hsame rfl]⟩
  · intro hrs hst
    exact (equals_iff hr ht).mpr (((equals_iff hr hs).mp hrs).trans ((equals_iff hs ht).mp hst))
  · intro hrs shape shape' a hshape ha
    exact equals_adapt hr hs hrs hshape ha

/-- An amount that is not a number, with its unit. -/
def measurement : List (String × Value) :=
  [("amount", .real ⟨0x7ff8000000000000⟩), ("unit", .text "m")]

def halves : Shape :=
  .nested .identity [("second", .suffix 1), ("first", .span 0 1)]

def halvesBackwards : Shape :=
  .nested .identity [("first", .span 0 1), ("second", .suffix 1)]

theorem halves_reordered : halves.Reordered halvesBackwards :=
  @Shape.Reordered.nested .identity .identity
    [("second", .suffix 1, .suffix 1), ("first", .span 0 1, .span 0 1)] _ (.refl _)
    (by simp [Shape.Reordered.refl]) (by decide) (List.Perm.swap _ _ [])

theorem measurement_equal : ∃ a b : Row,
    (Row.live (measurement.map (·.2)) (measurement.map (·.1))).adapt halves = .ok a ∧
      (Row.literal measurement).adapt halvesBackwards = .ok b ∧ a.equals b = .ok true ∧
        a.equals b.copy = .ok true := by
  have hlive : (Row.live (measurement.map (·.2)) (measurement.map (·.1))).Made :=
    .live (Nat.le_refl 2)
  have hliteral : (Row.literal measurement).Made := .literal _
  obtain ⟨a, ha⟩ : ∃ a,
      (Row.live (measurement.map (·.2)) (measurement.map (·.1))).adapt halves = .ok a := ⟨_, rfl⟩
  obtain ⟨-, -, -, -, -, hadapt⟩ := equality_of_trees hlive hliteral hliteral
  obtain ⟨b, hb, hab⟩ := hadapt rfl halves halvesBackwards a halves_reordered ha
  have hb' : b.Made := .adapt hliteral hb
  have hcopy : b.equals b.copy = .ok true := (equals_iff hb' hb'.copy).mpr (tree_copy b).symm
  obtain ⟨-, -, -, -, htrans, -⟩ := equality_of_trees (.adapt hlive ha) hb' hb'.copy
  exact ⟨a, b, ha, hb, hab, htrans hab hcopy⟩

end Row

end RelQuery
