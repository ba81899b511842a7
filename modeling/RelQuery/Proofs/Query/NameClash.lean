import RelQuery.Proofs.Query.SourceNames
import RelQuery.Query.Context

/-!
# Clashes of resolved names

Numbers tell the sources of one name apart. The name with its number can still be that of another
group: a table may be called what the first of two others becomes. Resolved names are apart
exactly when no two groups meet so.
-/

set_option autoImplicit false

namespace RelQuery

namespace Arena

def declaredNames (a : Arena Source) : List String :=
  a.nodes.filterMap fun
    | .leaf s => s.declaredName
    | .join _ => none

/-- No two sources under the root are given names that are equal up to case. -/
def NamesApart (a : Arena Source) : Prop :=
  ∃ (ids : List SourceId) (names : List (Option String)), a.reachable = .ok ids ∧
    a.resolveNames Source.declaredName = .ok names ∧
    ∀ x ∈ ids, ∀ y ∈ ids, x ≠ y → ∀ n m : String, names[x.index]? = some (some n) →
      names[y.index]? = some (some m) → Text.sameName n m = false

/-- Every name that stands for a source in the text is, up to case, that of one source under the
root. -/
def Unambiguous (a : Arena Source) (schema : Schema) : Prop :=
  ∃ (ids : List SourceId) (ctx : Context), a.reachable = .ok ids ∧ Context.of schema a = .ok ctx ∧
    ∀ (id : SourceId) (n : String), ctx.sourceName id = .ok n →
      ∃! y, y ∈ ids ∧ ∃ m, ctx.sourceName y = .ok m ∧ Text.sameName n m = true

end Arena

/-- What the source at place `i` of a group becomes, up to case, where the folded names of all
sources are given. -/
def numbered (keys : List String) (key : String) (i : Nat) : String :=
  if keys.count key ≤ 1 then key else key ++ i.repr

/-- Two groups of names meet: a source of one becomes what a source of the other becomes. -/
def Clash (names : List String) : Prop :=
  ∃ (a b : String) (i j : Nat), a ≠ b ∧ i < (names.map Text.foldCase).count a ∧
    j < (names.map Text.foldCase).count b ∧
    numbered (names.map Text.foldCase) a i = numbered (names.map Text.foldCase) b j

namespace Text

theorem foldCase_append (s t : String) : foldCase (s ++ t) = foldCase s ++ foldCase t := by
  simp [foldCase, String.toList_append, String.ofList_append]

theorem toLower_digit {c : Char} (hd : c.isDigit = true) : c.toLower = c := by
  have hbound : c.val ≤ '9'.val := by
    rw [Char.isDigit, Bool.and_eq_true] at hd
    exact of_decide_eq_true hd.2
  have hcapital : ¬(c.val ≥ 'A'.val ∧ c.val ≤ 'Z'.val) := fun h =>
    absurd (UInt32.le_trans h.1 hbound) (by decide)
  exact dif_neg hcapital

theorem foldCase_repr (n : Nat) : foldCase n.repr = n.repr := by
  have hdigits : n.repr.toList.map Char.toLower = n.repr.toList := by
    rw [List.map_congr_left (g := fun c => c), List.map_id']
    intro c hc
    rw [Nat.toList_repr] at hc
    exact toLower_digit (Nat.isDigit_of_mem_toDigits (by decide : 0 < 10) (by decide) hc)
  rw [foldCase, hdigits, String.ofList_toList]

theorem repr_inj {i j : Nat} (h : i.repr = j.repr) : i = j := by
  have hdigits := congrArg (fun s => Nat.ofDigitChars 10 (String.toList s) 0) h
  simpa only [Nat.toList_repr, Nat.ofDigitChars_ten_toDigits] using hdigits

end Text

theorem Context.sourceName_eq_ok {ctx : Context} {id : SourceId} {n : String} :
    ctx.sourceName id = .ok n ↔
      ctx.sources.contains id = true ∧ ctx.names[id.index]? = some (some n) := by
  rw [sourceName]
  constructor
  · intro h
    split at h
    · rename_i hc
      split at h
      · rename_i hname
        cases h
        exact ⟨hc, hname⟩
      · cases h
      · cases h
    · cases h
  · rintro ⟨hc, hname⟩
    rw [if_pos hc, hname]

theorem Arena.unambiguous_iff_namesApart {a : Arena Source} {ids : List SourceId}
    {names : List (Option String)} (hr : a.reachable = .ok ids)
    (hnames : a.resolveNames Source.declaredName = .ok names)
    (hids : ∀ x ∈ ids, a.contains x = true)
    (hknown : ∀ (i : Nat) (n : String), names[i]? = some (some n) → ∃ x ∈ ids, x.index = i)
    (schema : Schema) : a.Unambiguous schema ↔ a.NamesApart := by
  have hctx : Context.of schema a = .ok ⟨schema, a, names⟩ := by
    rw [Context.of, hnames]
    rfl
  constructor
  · rintro ⟨ids', ctx, hr', hctx', hone⟩
    rw [hr] at hr'
    rw [hctx] at hctx'
    cases hr'
    cases hctx'
    refine ⟨ids, names, hr, hnames, fun x hx y hy hxy n m hn hm => ?_⟩
    have hxn : Context.sourceName ⟨schema, a, names⟩ x = .ok n :=
      Context.sourceName_eq_ok.mpr ⟨hids x hx, hn⟩
    have hym : Context.sourceName ⟨schema, a, names⟩ y = .ok m :=
      Context.sourceName_eq_ok.mpr ⟨hids y hy, hm⟩
    rw [Bool.eq_false_iff]
    intro hsame
    exact hxy ((hone x n hxn).unique ⟨hx, n, hxn, (Text.sameName_iff n n).mpr rfl⟩
      ⟨hy, m, hym, hsame⟩)
  · rintro ⟨ids', names', hr', hnames', hapart⟩
    rw [hr] at hr'
    rw [hnames] at hnames'
    cases hr'
    cases hnames'
    refine ⟨ids, ⟨schema, a, names⟩, hr, hctx, fun x n hx => ?_⟩
    obtain ⟨hc, hn⟩ := Context.sourceName_eq_ok.mp hx
    have hxids : x ∈ ids := by
      obtain ⟨y, hy, hyx⟩ := hknown x.index n hn
      have hscope : y.scope = x.scope := by
        have hyc := hids y hy
        simp only [contains, Bool.and_eq_true, beq_iff_eq] at hc hyc
        rw [hc.1, hyc.1]
      have hyx' : y = x := by
        cases y
        cases x
        cases hscope
        cases hyx
        rfl
      rwa [← hyx']
    refine ⟨x, ⟨hxids, n, hx, (Text.sameName_iff n n).mpr rfl⟩, ?_⟩
    rintro y ⟨hy, m, hym, hsame⟩
    by_contra hne
    have hm := (Context.sourceName_eq_ok.mp hym).2
    rw [hapart x hxids y hy (Ne.symm hne) n m hn hm] at hsame
    cases hsame

section Groups

variable {named : List (SourceId × String)}

theorem length_nameGroup (named : List (SourceId × String)) (key : String) :
    (nameGroup named key).length = ((named.map (·.2)).map Text.foldCase).count key := by
  rw [nameGroup, List.count, List.countP_map, List.countP_map, List.countP_eq_length_filter]
  rfl

theorem foldCase_placedName (named : List (SourceId × String)) (name : String) (i : Nat) :
    Text.foldCase (placedName named name i) =
      numbered ((named.map (·.2)).map Text.foldCase) (Text.foldCase name) i := by
  rw [placedName, numbered, length_nameGroup]
  split
  · rfl
  · rw [Text.foldCase_append, Text.foldCase_repr]

theorem fold_of_getElem? {key : String} {i : Nat} {p : SourceId × String}
    (h : (nameGroup named key)[i]? = some p) : Text.foldCase p.2 = key := by
  simpa using (List.mem_filter.mp (List.mem_of_getElem? h)).2

theorem lt_count_of_getElem? {key : String} {i : Nat} {p : SourceId × String}
    (h : (nameGroup named key)[i]? = some p) :
    i < ((named.map (·.2)).map Text.foldCase).count key := by
  rw [← length_nameGroup]
  exact (List.getElem?_eq_some_iff.mp h).1

theorem exists_of_lt_count {key : String} {i : Nat}
    (hi : i < ((named.map (·.2)).map Text.foldCase).count key) :
    ∃ p, (nameGroup named key)[i]? = some p ∧ Text.foldCase p.2 = key := by
  rw [← length_nameGroup] at hi
  have hp := List.getElem?_eq_getElem hi
  exact ⟨(nameGroup named key)[i], hp, fold_of_getElem? hp⟩

def Placed (named : List (SourceId × String)) (x : SourceId) (n : String) : Prop :=
  ∃ (i : Nat) (name : String), (nameGroup named (Text.foldCase name))[i]? = some (x, name) ∧
    n = placedName named name i

/-- Given names are apart exactly when no two groups meet. -/
theorem placed_apart_iff (hn : (named.map (·.1)).Nodup) :
    (∀ x y : SourceId, x ≠ y → ∀ n m : String, Placed named x n → Placed named y m →
      Text.sameName n m = false) ↔ ¬Clash (named.map (·.2)) := by
  constructor
  · rintro hapart ⟨a, b, i, j, hab, hi, hj, heq⟩
    obtain ⟨⟨x, n⟩, hx, hxa⟩ := exists_of_lt_count hi
    obtain ⟨⟨y, m⟩, hy, hyb⟩ := exists_of_lt_count hj
    have hxy : x ≠ y := by
      rintro rfl
      have hp : ((x, n) : SourceId × String) = (x, m) := List.inj_on_of_nodup_map hn
        (List.mem_filter.mp (List.mem_of_getElem? hx)).1
        (List.mem_filter.mp (List.mem_of_getElem? hy)).1 rfl
      cases hp
      exact hab (hxa.symm.trans hyb)
    have hsame : Text.sameName (placedName named n i) (placedName named m j) = true := by
      rw [Text.sameName_iff, foldCase_placedName, foldCase_placedName, hxa, hyb]
      exact heq
    rw [← hxa] at hx
    rw [← hyb] at hy
    rw [hapart x y hxy _ _ ⟨i, n, hx, rfl⟩ ⟨j, m, hy, rfl⟩] at hsame
    cases hsame
  · rintro hclash x y hxy _ _ ⟨i, n, hx, rfl⟩ ⟨j, m, hy, rfl⟩
    rw [Bool.eq_false_iff, ne_eq, Text.sameName_iff, foldCase_placedName, foldCase_placedName]
    intro heq
    by_cases hab : Text.foldCase n = Text.foldCase m
    · rw [← hab] at hy heq
      have hij : i ≠ j := by
        rintro rfl
        rw [hx] at hy
        cases hy
        exact hxy rfl
      have hi := lt_count_of_getElem? hx
      have hj := lt_count_of_getElem? hy
      rw [numbered, if_neg (by omega), numbered, if_neg (by omega), String.append_right_inj] at heq
      exact hij (Text.repr_inj heq)
    · exact hclash ⟨_, _, i, j, hab, lt_count_of_getElem? hx, lt_count_of_getElem? hy, heq⟩

end Groups

namespace Arena

theorem declaredNames_chain (scope : Nat) (first : Source) (links : List Link) :
    (chain scope first links).declaredNames =
      first.declaredName.toList ++ links.map fun l => l.aliasName.getD l.table := by
  have hlinks : (links.flatMap Link.nodes).filterMap (fun
      | .leaf s => s.declaredName
      | .join _ => none) = links.map fun l => l.aliasName.getD l.table := by
    induction links with
    | nil => rfl
    | cons l links ih =>
      rw [List.flatMap_cons, List.filterMap_append, ih]
      rfl
  rw [declaredNames, chain, List.filterMap_cons, hlinks]
  cases hfirst : first.declaredName <;> simp [hfirst]

theorem declaredAt_tableId (scope : Nat) (first : Source) (links : List Link) (i : Nat) :
    (chain scope first links).declaredAt Source.declaredName (tableId scope i) =
      links[i]?.map fun l => (tableId scope i, l.aliasName.getD l.table) := by
  cases hl : links[i]? with
  | some l => exact declaredAt_leaf (node_table scope first hl scope) Source.declaredName
  | none =>
    have hnode : (chain scope first links).node (tableId scope i) = .error .outOfBounds := by
      have hindex : (chain scope first links).nodes[(tableId scope i).index]? = none := by
        rw [chain, tableId, List.getElem?_cons_succ, (links_getElem? links i).1, hl]
        rfl
      rw [node, Outcome.element, hindex]
    rw [declaredAt, hnode]
    rfl

theorem filterMap_getElem?_range (links : List Link) :
    (List.range links.length).filterMap (fun i => links[i]?) = links := by
  induction links with
  | nil => rfl
  | cons l links ih =>
    rw [List.length_cons, List.range_succ_eq_map, List.filterMap_cons, List.filterMap_map]
    exact congrArg (l :: ·) ih

theorem named_chain (scope : Nat) (first : Source) (links : List Link) :
    ((chain scope first links).named Source.declaredName
      (sourceIds scope links.length)).map (·.2) = (chain scope first links).declaredNames := by
  have hlinks : (((List.range links.length).map (tableId scope)).filterMap
      ((chain scope first links).declaredAt Source.declaredName)).map (·.2) =
        links.map fun l => l.aliasName.getD l.table := by
    rw [List.filterMap_map, List.map_filterMap, ← filterMap_getElem?_range links,
      List.map_filterMap, filterMap_getElem?_range]
    congr 1
    funext i
    rw [Function.comp_apply, declaredAt_tableId, Option.map_map]
    rfl
  rw [declaredNames_chain, named, sourceIds, List.filterMap_cons,
    declaredAt_leaf (node_first scope first links scope)]
  cases first.declaredName with
  | none => exact hlinks
  | some name => exact congrArg (name :: ·) hlinks

theorem namesApart_chain {scope : Nat} {links : List Link} (first : Source)
    (h : Linked scope links) :
    (chain scope first links).NamesApart ↔ ¬Clash (chain scope first links).declaredNames := by
  have hreach := reachable_chain first h
  have hindex := nodup_index_sourceIds scope links.length
  obtain ⟨names, hnames, -, hspec⟩ := resolveNames_spec Source.declaredName hreach
    (leaf_of_mem_sourceIds first links) hindex
  have hnodup : (((chain scope first links).named Source.declaredName
      (sourceIds scope links.length)).map (·.1)).Nodup := by
    have hi := nodup_index_named Source.declaredName (a := chain scope first links) hindex
    exact List.Nodup.of_map (fun x : SourceId => x.index) (by rwa [List.map_map])
  rw [← named_chain, ← placed_apart_iff hnodup]
  have hids : ∀ {x : SourceId} {n : String}, Placed ((chain scope first links).named
      Source.declaredName (sourceIds scope links.length)) x n →
        x ∈ sourceIds scope links.length := by
    rintro x n ⟨i, name, hi, -⟩
    exact mem_of_named (List.mem_filter.mp (List.mem_of_getElem? hi)).1
  constructor
  · rintro ⟨ids, names', hids', hnames', hapart⟩ x y hxy n m hx hy
    rw [hreach] at hids'
    rw [hnames] at hnames'
    cases hids'
    cases hnames'
    exact hapart x (hids hx) y (hids hy) hxy n m ((hspec x (hids hx) n).mpr hx)
      ((hspec y (hids hy) m).mpr hy)
  · intro hapart
    have hnamed : ∀ x ∈ sourceIds scope links.length, ∀ y ∈ sourceIds scope links.length, x ≠ y →
        ∀ n m : String, names[x.index]? = some (some n) → names[y.index]? = some (some m) →
          Text.sameName n m = false := by
      intro x hx y hy hxy n m hn hm
      exact hapart x y hxy n m ((hspec x hx n).mp hn) ((hspec y hy m).mp hm)
    exact ⟨_, names, hreach, hnames, hnamed⟩

theorem unambiguous_chain {scope : Nat} {links : List Link} (first : Source)
    (h : Linked scope links) (schema : Schema) :
    (chain scope first links).Unambiguous schema ↔ (chain scope first links).NamesApart := by
  have hreach := reachable_chain first h
  obtain ⟨names, hnames, hknown, -⟩ := resolveNames_spec Source.declaredName hreach
    (leaf_of_mem_sourceIds first links) (nodup_index_sourceIds scope links.length)
  have hids : ∀ x ∈ sourceIds scope links.length,
      (chain scope first links).contains x = true := by
    intro x hx
    obtain ⟨s, hs⟩ := leaf_of_mem_sourceIds first links x hx
    have hlen : x.index < (chain scope first links).nodes.length :=
      (List.getElem?_eq_some_iff.mp (Outcome.element_eq_ok.mp hs)).1
    have hscope : x.scope = (chain scope first links).scope := scope_of_mem_sourceIds hx
    simp [contains, hscope, hlen]
  exact unambiguous_iff_namesApart hreach hnames hids hknown schema

end Arena

namespace Query

/-- The names of a built query are apart, and each stands for one source of the FROM clause,
exactly when no name, with or without its number, is that of another group. -/
theorem unambiguous_iff {q : Query} (h : q.Built) (schema : Schema) :
    (q.sources.NamesApart ↔ ¬Clash q.sources.declaredNames) ∧
      (q.sources.Unambiguous schema ↔ ¬Clash q.sources.declaredNames) := by
  rcases h.chained with ⟨scope, hq⟩ | ⟨scope, first, links, hq, hl⟩
  · have hclash : ¬Clash (Arena.declaredNames (.empty scope)) := by
      rintro ⟨a, b, i, j, -, hi, -⟩
      exact absurd hi (Nat.not_lt_zero i)
    rw [hq, iff_true_right hclash, iff_true_right hclash]
    constructor
    · exact ⟨[], [], rfl, rfl, fun x hx => nomatch hx⟩
    · refine ⟨[], ⟨schema, .empty scope, []⟩, rfl, rfl, fun x n hx => ?_⟩
      cases (Context.sourceName_eq_ok.mp hx).2
  · have hapart := Arena.namesApart_chain first hl
    rw [hq]
    exact ⟨hapart, (Arena.unambiguous_chain first hl schema).trans hapart⟩

def withMentor : Query :=
  (table 0 "persons").including (.hasOne "mentor" "persons" [("mentor_id", "id")])

theorem withMentor_unambiguous : withMentor.Built ∧ withMentor.sources.NamesApart ∧
    withMentor.sources.Unambiguous ⟨fun _ => .ok ["id", "mentor_id"], fun _ => .ok true, id⟩ := by
  have hbuilt : withMentor.Built :=
    ⟨table 0 "persons", [.including (.hasOne "mentor" "persons" [("mentor_id", "id")])],
      .table 0 "persons", rfl⟩
  -- both sources declare one name, so there is one group
  have hclash : ¬Clash withMentor.sources.declaredNames := by
    rintro ⟨a, b, i, j, hab, hi, hj, -⟩
    have hone : ∀ key ∈ withMentor.sources.declaredNames.map Text.foldCase, key = "persons" := by
      decide
    have ha := hone a (List.count_pos_iff.mp (Nat.zero_lt_of_lt hi))
    have hb := hone b (List.count_pos_iff.mp (Nat.zero_lt_of_lt hj))
    exact hab (ha.trans hb.symm)
  have h := unambiguous_iff hbuilt ⟨fun _ => .ok ["id", "mentor_id"], fun _ => .ok true, id⟩
  exact ⟨hbuilt, h.1.mpr hclash, h.2.mpr hclash⟩

/-- A table joined to itself and to one that is called as the first of the two becomes. -/
def withArchive : Query :=
  withMentor.including (.hasOne "archived" "persons0" [("id", "id")])

theorem withArchive_ambiguous :
    withArchive.Built ∧
      withArchive.sources.resolveNames Source.declaredName =
        .ok [some "persons0", some "persons1", none, some "persons0", none] ∧
      ¬withArchive.sources.NamesApart := by
  have hnames : withArchive.sources.resolveNames Source.declaredName =
      .ok [some "persons0", some "persons1", none, some "persons0", none] := rfl
  have hbuilt : withArchive.Built :=
    ⟨table 0 "persons", [.including (.hasOne "mentor" "persons" [("mentor_id", "id")]),
      .including (.hasOne "archived" "persons0" [("id", "id")])], .table 0 "persons", rfl⟩
  refine ⟨hbuilt, hnames, ?_⟩
  rintro ⟨ids, names, hids, hnames', hapart⟩
  rw [hnames] at hnames'
  cases hnames'
  have hreach : withArchive.sources.reachable = .ok [⟨0, 0⟩, ⟨0, 1⟩, ⟨0, 3⟩] := rfl
  rw [hreach] at hids
  cases hids
  have hfirst := hapart ⟨0, 0⟩ (by decide) ⟨0, 3⟩ (by decide) (by decide) "persons0" "persons0"
    rfl rfl
  exact absurd hfirst (by decide)

end Query

end RelQuery
