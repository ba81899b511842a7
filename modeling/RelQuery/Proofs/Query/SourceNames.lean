import Mathlib.Data.List.Nodup
import RelQuery.Proofs.Query.Attach
import RelQuery.Proofs.Query.NameGroups

/-!
# Names of the sources of a chain

The sources of a chain are reached from left to right, each once. The name of each is that of its
place in the group of its declared name.
-/

set_option autoImplicit false

namespace RelQuery

namespace Arena

variable {α : Type}

theorem visitWithin_leaf {a : Arena α} {x : SourceId} {s : α} (hx : a.node x = .ok (.leaf s))
    {n : Nat} (hn : 0 < n) (seen : List SourceId) :
    a.visitWithin n x seen = .ok (if x ∈ seen then seen else seen ++ [x]) := by
  obtain ⟨n, rfl⟩ : ∃ m, n = m + 1 := ⟨n - 1, by omega⟩
  rw [visitWithin, hx]
  rfl

def sourceIds (scope n : Nat) : List SourceId :=
  ⟨scope, 0⟩ :: (List.range n).map (tableId scope)

theorem sourceIds_succ (scope n : Nat) :
    sourceIds scope (n + 1) = sourceIds scope n ++ [tableId scope n] := by
  simp [sourceIds, List.range_succ]

theorem mem_sourceIds {scope n : Nat} {x : SourceId} :
    x ∈ sourceIds scope n ↔ Begins scope n x := by
  simp only [sourceIds, List.mem_cons, List.mem_map, List.mem_range, Begins]
  constructor
  · rintro (h | ⟨i, hi, h⟩)
    · exact .inl h
    · exact .inr ⟨i, hi, h.symm⟩
  · rintro (h | ⟨i, hi, h⟩)
    · exact .inl h
    · exact .inr ⟨i, hi, h.symm⟩

theorem nodup_index_sourceIds (scope n : Nat) : ((sourceIds scope n).map (·.index)).Nodup := by
  rw [sourceIds, List.map_cons, List.map_map, List.nodup_cons]
  constructor
  · intro h
    obtain ⟨i, -, hi⟩ := List.mem_map.mp h
    have hi0 : 2 * i + 1 = 0 := hi
    omega
  · refine List.nodup_range.map ?_
    intro i j h
    have hij : 2 * i + 1 = 2 * j + 1 := h
    omega

theorem node_of_begins {scope k : Nat} {links : List Link} (first : Source)
    (hk : k ≤ links.length) {x : SourceId} (hx : Begins scope k x) :
    ∃ s, (chain scope first links).node x = .ok (.leaf s) := by
  rcases hx with rfl | ⟨i, hi, rfl⟩
  · exact ⟨first, node_first scope first links scope⟩
  · have hl : links[i]? = some links[i] := List.getElem?_eq_getElem (by omega)
    exact ⟨_, node_table scope first hl scope⟩

theorem leaf_of_mem_sourceIds {scope : Nat} (first : Source) (links : List Link) :
    ∀ x ∈ sourceIds scope links.length, ∃ s, (chain scope first links).node x = .ok (.leaf s) :=
  fun _ hx => node_of_begins first (Nat.le_refl _) (mem_sourceIds.mp hx)

theorem scope_of_mem_sourceIds {scope n : Nat} {x : SourceId} (hx : x ∈ sourceIds scope n) :
    x.scope = scope := by
  rcases mem_sourceIds.mp hx with rfl | ⟨i, -, rfl⟩ <;> rfl

theorem visitWithin_chain {scope : Nat} {first : Source} {links : List Link}
    (h : Linked scope links) {k n : Nat} (hk : k ≤ links.length) (hn : k < n) :
    (chain scope first links).visitWithin n ⟨scope, 2 * k⟩ [] = .ok (sourceIds scope k) := by
  induction k generalizing n with
  | zero => exact visitWithin_leaf (node_first scope first links scope) hn []
  | succ k ih =>
    obtain ⟨n, rfl⟩ : ∃ m, n = m + 1 := ⟨n - 1, by omega⟩
    obtain ⟨l, hl⟩ : ∃ l, links[k]? = some l := ⟨_, List.getElem?_eq_getElem hk⟩
    have ho : Begins scope k l.join.origin := h.origin k l hl
    obtain ⟨s, hs⟩ := node_of_begins first (by omega : k ≤ links.length) ho
    have hn0 : 0 < n := by omega
    have hnode : (chain scope first links).node (tableId scope k) =
        .ok (.leaf (.table l.table l.aliasName)) := node_table scope first hl scope
    have hnew : tableId scope k ∉ sourceIds scope k := by
      rw [mem_sourceIds]
      rintro (h0 | ⟨i, hi, heq⟩)
      · cases h0
      · have hki : 2 * k + 1 = 2 * i + 1 := congrArg SourceId.index heq
        omega
    rw [visitWithin, node_join scope first hl]
    show ((chain scope first links).visitWithin n l.join.base [] >>= fun seen =>
      (chain scope first links).visitWithin n l.join.origin seen >>= fun seen =>
        (chain scope first links).visitWithin n l.join.target seen) = _
    rw [h.base k l hl, ih (by omega) (by omega)]
    show ((chain scope first links).visitWithin n l.join.origin (sourceIds scope k) >>= fun seen =>
      (chain scope first links).visitWithin n l.join.target seen) = _
    rw [visitWithin_leaf hs hn0, if_pos (mem_sourceIds.mpr ho)]
    show (chain scope first links).visitWithin n l.join.target (sourceIds scope k) = _
    rw [h.target k l hl, visitWithin_leaf hnode hn0, if_neg hnew, sourceIds_succ]

theorem reachable_chain {scope : Nat} {links : List Link} (first : Source)
    (h : Linked scope links) :
    (chain scope first links).reachable = .ok (sourceIds scope links.length) := by
  refine visitWithin_chain h (Nat.le_refl _) ?_
  rw [depth, length_chain]
  omega

def declaredAt (a : Arena α) (declared : α → Option String) (x : SourceId) :
    Option (SourceId × String) :=
  match a.node x with
  | .ok (.leaf s) => (declared s).map (x, ·)
  | _ => none

def named (a : Arena α) (declared : α → Option String) (ids : List SourceId) :
    List (SourceId × String) :=
  ids.filterMap (a.declaredAt declared)

theorem declaredAt_leaf {a : Arena α} {x : SourceId} {s : α} (hs : a.node x = .ok (.leaf s))
    (declared : α → Option String) : a.declaredAt declared x = (declared s).map (x, ·) := by
  rw [declaredAt, hs]

theorem fst_of_declaredAt {a : Arena α} {declared : α → Option String} {x : SourceId}
    {p : SourceId × String} (hp : a.declaredAt declared x = some p) : p.1 = x := by
  rw [declaredAt] at hp
  split at hp
  · obtain ⟨name, -, rfl⟩ := Option.map_eq_some_iff.mp hp
    rfl
  · cases hp

theorem mem_of_named {a : Arena α} {declared : α → Option String} {ids : List SourceId}
    {p : SourceId × String} (hp : p ∈ a.named declared ids) : p.1 ∈ ids := by
  obtain ⟨x, hx, hpx⟩ := List.mem_filterMap.mp hp
  rwa [fst_of_declaredAt hpx]

theorem nodup_index_named {a : Arena α} (declared : α → Option String) {ids : List SourceId}
    (hn : (ids.map (·.index)).Nodup) : ((a.named declared ids).map (·.1.index)).Nodup := by
  rw [List.Nodup, List.pairwise_map] at hn ⊢
  rw [named, List.pairwise_filterMap]
  refine hn.imp fun {x y} hxy p hp r hr => ?_
  rw [fst_of_declaredAt hp, fst_of_declaredAt hr]
  exact hxy

theorem groupsOf_eq (a : Arena α) (declared : α → Option String) {ids : List SourceId}
    (hids : ∀ x ∈ ids, ∃ s, a.node x = .ok (.leaf s)) (groups : NameGroups) :
    a.groupsOf declared ids groups =
      .ok ((a.named declared ids).foldl (fun groups p => groups.enter p.1 p.2) groups) := by
  induction ids generalizing groups with
  | nil => rfl
  | cons x ids ih =>
    obtain ⟨s, hs⟩ := hids x List.mem_cons_self
    have hrest := ih fun y hy => hids y (List.mem_cons_of_mem x hy)
    rw [groupsOf, hs, named, List.filterMap_cons, declaredAt_leaf hs]
    simp only [bind, Except.bind]
    cases declared s with
    | none => exact hrest groups
    | some name => exact hrest (groups.enter x name)

theorem mem_of_assign {names : List (Option String)} {members : List (SourceId × String)} {i : Nat}
    {n : String} (h : (assign names members)[i]? = some (some n)) :
    names[i]? = some (some n) ∨ ∃ x, (x, n) ∈ members ∧ x.index = i := by
  induction members generalizing names with
  | nil => exact .inl h
  | cons p members ih =>
    obtain ⟨y, m⟩ := p
    rcases ih h with hi | ⟨x, hx, hi⟩
    · by_cases hy : y.index = i
      · rw [List.getElem?_set, if_pos hy] at hi
        split at hi
        · cases hi
          exact .inr ⟨y, List.mem_cons_self, hy⟩
        · cases hi
      · rw [List.getElem?_set_ne hy] at hi
        exact .inl hi
    · exact .inr ⟨x, List.mem_cons_of_mem _ hx, hi⟩

theorem assign_of_mem {names : List (Option String)} {members : List (SourceId × String)} {i : Nat}
    {n : String} (hi : i < names.length)
    (h : names[i]? = some (some n) ∨ ∃ x, (x, n) ∈ members ∧ x.index = i)
    (hone : ∀ x m, (x, m) ∈ members → x.index = i → m = n) :
    (assign names members)[i]? = some (some n) := by
  induction members generalizing names with
  | nil =>
    rcases h with h | ⟨x, hx, -⟩
    · exact h
    · cases hx
  | cons p members ih =>
    obtain ⟨y, m⟩ := p
    refine ih (by rwa [List.length_set]) ?_ fun x m hx => hone x m (List.mem_cons_of_mem _ hx)
    by_cases hy : y.index = i
    · rw [hone y m List.mem_cons_self hy, hy]
      exact .inl (List.getElem?_set_self hi)
    · rw [List.getElem?_set_ne hy]
      rcases h with h | ⟨x, hx, hxi⟩
      · exact .inl h
      · rcases List.mem_cons.mp hx with heq | hx
        · cases heq
          exact absurd hxi hy
        · exact .inr ⟨x, hx, hxi⟩

/-- The name of a reached source is that of its place among the sources of its declared name. -/
theorem resolveNames_spec {a : Arena α} (declared : α → Option String) {ids : List SourceId}
    (hr : a.reachable = .ok ids) (hids : ∀ x ∈ ids, ∃ s, a.node x = .ok (.leaf s))
    (hn : (ids.map (·.index)).Nodup) :
    ∃ names, a.resolveNames declared = .ok names ∧
      (∀ (i : Nat) (n : String), names[i]? = some (some n) → ∃ x ∈ ids, x.index = i) ∧
      ∀ x ∈ ids, ∀ n : String, names[x.index]? = some (some n) ↔ ∃ (i : Nat) (name : String),
        (nameGroup (a.named declared ids) (Text.foldCase name))[i]? = some (x, name) ∧
          n = placedName (a.named declared ids) name i := by
  obtain ⟨groups, hgo, hgroups⟩ : ∃ groups, a.groupsOf declared ids [] = .ok groups ∧
      NameGroups.Groups (a.named declared ids) groups :=
    ⟨_, groupsOf_eq a declared hids [], NameGroups.groups_nil.foldl (a.named declared ids)⟩
  have hmem : ∀ {y : SourceId} {i : Nat} {name : String},
      (nameGroup (a.named declared ids) (Text.foldCase name))[i]? = some (y, name) →
        (y, name) ∈ a.named declared ids := fun hi =>
    (List.mem_filter.mp (List.mem_of_getElem? hi)).1
  have hassigned : ∀ {i : Nat} {n : String},
      (assign (a.nodes.map fun _ => none) groups.names)[i]? = some (some n) →
        ∃ y, (y, n) ∈ groups.names ∧ y.index = i := by
    intro i n h
    rcases mem_of_assign h with hnone | hy
    · rw [List.getElem?_map] at hnone
      obtain ⟨_, -, hno⟩ := Option.map_eq_some_iff.mp hnone
      cases hno
    · exact hy
  refine ⟨assign (a.nodes.map fun _ => none) groups.names, ?_, ?_, ?_⟩
  · rw [resolveNames, hr]
    show (a.groupsOf declared ids [] >>= _) = _
    rw [hgo]
    rfl
  · intro i n h
    obtain ⟨y, hy, hyi⟩ := hassigned h
    obtain ⟨k, name, hk, -⟩ := hgroups.mem_names.mp hy
    exact ⟨y, mem_of_named (hmem hk), hyi⟩
  intro x hx n
  have hinj : ∀ p ∈ a.named declared ids, ∀ r ∈ a.named declared ids,
      p.1.index = r.1.index → p = r := fun p hp r hr' =>
    List.inj_on_of_nodup_map (nodup_index_named declared hn) hp hr'
  have hids' : ∀ y ∈ ids, y.index = x.index → y = x := fun y hy =>
    List.inj_on_of_nodup_map hn hy hx
  constructor
  · intro hx'
    obtain ⟨y, hy, hyx⟩ := hassigned hx'
    obtain ⟨i, name, hi, hname⟩ := hgroups.mem_names.mp hy
    have hyids : y ∈ ids := mem_of_named (hmem hi)
    rw [hids' y hyids hyx] at hi
    exact ⟨i, name, hi, hname⟩
  · rintro ⟨i, name, hi, hname⟩
    have hlen : x.index < (a.nodes.map fun _ => (none : Option String)).length := by
      obtain ⟨s, hs⟩ := hids x hx
      rw [List.length_map]
      exact (List.getElem?_eq_some_iff.mp (Outcome.element_eq_ok.mp hs)).1
    refine assign_of_mem hlen (.inr ⟨x, hgroups.mem_names.mpr ⟨i, name, hi, hname⟩, rfl⟩) ?_
    intro y m hy hyx
    obtain ⟨k, name', hk, hm⟩ := hgroups.mem_names.mp hy
    have heq : (y, name') = (x, name) := hinj _ (hmem hk) _ (hmem hi) hyx
    cases heq
    have hnodup : (nameGroup (a.named declared ids) (Text.foldCase name)).Nodup :=
      (List.Nodup.of_map _ (nodup_index_named declared hn)).filter _
    have hik : i < (nameGroup (a.named declared ids) (Text.foldCase name)).length :=
      (List.getElem?_eq_some_iff.mp hi).1
    have hplace : i = k := (List.getElem?_inj hik hnodup).mp (hi.trans hk.symm)
    rw [hm, hname, hplace]

theorem groupsOf_of_ok {a : Arena α} {declared : α → Option String} {ids : List SourceId}
    {groups groups' : NameGroups} (h : a.groupsOf declared ids groups = .ok groups') :
    groups' = (a.named declared ids).foldl (fun groups p => groups.enter p.1 p.2) groups := by
  induction ids generalizing groups with
  | nil =>
    cases h
    rfl
  | cons x ids ih =>
    obtain ⟨node, hnode, h⟩ := Outcome.bind_eq_ok.mp h
    rw [named, List.filterMap_cons]
    cases node with
    | join j =>
      rw [declaredAt, hnode]
      exact ih h
    | leaf s =>
      rw [declaredAt_leaf hnode]
      cases hs : declared s with
      | none =>
        simp only [hs] at h
        exact ih h
      | some name =>
        simp only [hs] at h
        exact ih h

theorem leaf_of_resolved {a : Arena α} {declared : α → Option String}
    {names : List (Option String)} (h : a.resolveNames declared = .ok names) {k : Nat} {n : String}
    (hk : names[k]? = some (some n)) :
    ∃ (s : α) (name : String), a.nodes[k]? = some (.leaf s) ∧ declared s = some name ∧
      (n = name ∨ ∃ i : Nat, n = name ++ i.repr) := by
  obtain ⟨ids, -, h⟩ := Outcome.bind_eq_ok.mp h
  obtain ⟨groups, hgroups, h⟩ := Outcome.bind_eq_ok.mp h
  cases h
  have hmembers : NameGroups.Groups (a.named declared ids) groups := by
    rw [groupsOf_of_ok hgroups]
    exact NameGroups.groups_nil.foldl (a.named declared ids)
  rcases mem_of_assign hk with hnone | ⟨x, hx, rfl⟩
  · rw [List.getElem?_map] at hnone
    obtain ⟨_, -, hno⟩ := Option.map_eq_some_iff.mp hnone
    cases hno
  obtain ⟨i, name, hi, hn⟩ := hmembers.mem_names.mp hx
  obtain ⟨y, -, hy⟩ := List.mem_filterMap.mp
    (List.mem_filter.mp (List.mem_of_getElem? hi)).1
  obtain rfl : x = y := fst_of_declaredAt hy
  rw [declaredAt] at hy
  split at hy
  · rename_i s hs
    obtain ⟨name', hname, heq⟩ := Option.map_eq_some_iff.mp hy
    cases heq
    refine ⟨s, name, Outcome.element_eq_ok.mp hs, hname, ?_⟩
    rw [placedName] at hn
    split at hn
    · exact .inl hn
    · exact .inr ⟨i, hn⟩
  · cases hy

end Arena

end RelQuery
