import RelQuery.Proofs.Outcome
import RelQuery.Query.Names

/-!
# Names by group

The groups of some named sources hold, for each name up to case, the sources of that name in
order. A source in a group of its own keeps its name, the others have their place in the group
after it.
-/

set_option autoImplicit false

namespace RelQuery

def nameGroup (named : List (SourceId × String)) (key : String) : List (SourceId × String) :=
  named.filter fun p => Text.foldCase p.2 = key

theorem nameGroup_concat (named : List (SourceId × String)) (p : SourceId × String)
    (key : String) : nameGroup (named ++ [p]) key =
      nameGroup named key ++ if Text.foldCase p.2 = key then [p] else [] := by
  rw [nameGroup, List.filter_append, nameGroup]
  by_cases h : Text.foldCase p.2 = key <;> simp [h]

def placedName (named : List (SourceId × String)) (name : String) (i : Nat) : String :=
  if (nameGroup named (Text.foldCase name)).length ≤ 1 then name else name ++ i.repr

namespace NameGroups

structure Groups (named : List (SourceId × String)) (groups : NameGroups) : Prop where
  keys : (groups.map (·.1)).Nodup
  members : ∀ g ∈ groups, g.2 = nameGroup named g.1
  known : ∀ p ∈ named, Text.foldCase p.2 ∈ groups.map (·.1)

theorem groups_nil : Groups [] [] := by
  constructor
  · exact List.nodup_nil
  · intro g hg
    cases hg
  · intro p hp
    cases hp

theorem enter_of_mem {groups : NameGroups} {id : SourceId} {name : String}
    (hn : (groups.map (·.1)).Nodup) (hk : Text.foldCase name ∈ groups.map (·.1)) :
    groups.enter id name = groups.map fun g =>
      (g.1, if g.1 = Text.foldCase name then g.2 ++ [(id, name)] else g.2) := by
  induction groups with
  | nil => cases hk
  | cons g groups ih =>
    obtain ⟨key, members⟩ := g
    rw [List.map_cons, List.nodup_cons] at hn
    by_cases h : key = Text.foldCase name
    · have hrest : groups.map (fun g : String × List (SourceId × String) =>
          (g.1, if g.1 = Text.foldCase name then g.2 ++ [(id, name)] else g.2)) = groups := by
        rw [List.map_congr_left (g := fun g => g)]
        · exact List.map_id' groups
        · intro g hg
          have hne : g.1 ≠ Text.foldCase name := fun he =>
            hn.1 (List.mem_map.mpr ⟨g, hg, he.trans h.symm⟩)
          rw [if_neg hne]
      rw [enter, if_pos h, List.map_cons, hrest, if_pos h]
    · rcases List.mem_cons.mp hk with hk | hk
      · exact absurd hk.symm h
      · rw [enter, if_neg h, ih hn.2 hk, List.map_cons, if_neg h]

theorem enter_of_not_mem {groups : NameGroups} {id : SourceId} {name : String}
    (hk : Text.foldCase name ∉ groups.map (·.1)) :
    groups.enter id name = groups ++ [(Text.foldCase name, [(id, name)])] := by
  induction groups with
  | nil => rfl
  | cons g groups ih =>
    obtain ⟨key, members⟩ := g
    rw [List.map_cons, List.mem_cons, not_or] at hk
    rw [enter, if_neg fun h => hk.1 h.symm, ih hk.2, List.cons_append]

theorem Groups.enter {named : List (SourceId × String)} {groups : NameGroups}
    (h : Groups named groups) (p : SourceId × String) :
    Groups (named ++ [p]) (groups.enter p.1 p.2) := by
  by_cases hk : Text.foldCase p.2 ∈ groups.map (·.1)
  · rw [enter_of_mem h.keys hk]
    constructor
    · simpa [List.map_map, Function.comp_def] using h.keys
    · intro entered hentered
      obtain ⟨g, hg, rfl⟩ := List.mem_map.mp hentered
      rw [nameGroup_concat, ← h.members g hg]
      by_cases he : g.1 = Text.foldCase p.2
      · simp [he]
      · simp [he, Ne.symm he]
    · intro r hr
      have hmem : Text.foldCase r.2 ∈ groups.map (·.1) := by
        rcases List.mem_append.mp hr with hr | hr
        · exact h.known r hr
        · rwa [List.mem_singleton.mp hr]
      simpa [List.map_map, Function.comp_def] using hmem
  · rw [enter_of_not_mem hk]
    have hnone : nameGroup named (Text.foldCase p.2) = [] := by
      rw [nameGroup, List.filter_eq_nil_iff]
      intro r hr he
      exact hk (decide_eq_true_eq.mp he ▸ h.known r hr)
    constructor
    · rw [List.map_append, List.nodup_append]
      refine ⟨h.keys, List.pairwise_singleton _ _, ?_⟩
      rintro a ha _ hb rfl
      rw [List.mem_singleton.mp hb] at ha
      exact hk ha
    · intro g hg
      rw [nameGroup_concat]
      rcases List.mem_append.mp hg with hg | hg
      · have hne : Text.foldCase p.2 ≠ g.1 := fun he => hk (he ▸ List.mem_map_of_mem hg)
        rw [h.members g hg, if_neg hne, List.append_nil]
      · rw [List.mem_singleton.mp hg, hnone, if_pos rfl]
        rfl
    · intro r hr
      rw [List.map_append, List.mem_append]
      rcases List.mem_append.mp hr with hr | hr
      · exact .inl (h.known r hr)
      · rw [List.mem_singleton.mp hr]
        exact .inr List.mem_cons_self

theorem Groups.foldl {named : List (SourceId × String)} {groups : NameGroups}
    (h : Groups named groups) (more : List (SourceId × String)) :
    Groups (named ++ more) (more.foldl (fun groups p => groups.enter p.1 p.2) groups) := by
  induction more generalizing named groups with
  | nil => rwa [List.append_nil]
  | cons p more ih =>
    have hp := ih (h.enter p)
    rwa [List.append_assoc] at hp

theorem mem_memberNames {members : List (SourceId × String)} {x : SourceId} {n : String} :
    (x, n) ∈ memberNames members ↔ ∃ (i : Nat) (name : String), members[i]? = some (x, name) ∧
      n = if members.length ≤ 1 then name else name ++ i.repr := by
  unfold memberNames
  split
  · rw [List.mem_iff_getElem?]
    constructor
    · rintro ⟨i, hi⟩
      exact ⟨i, n, hi, rfl⟩
    · rintro ⟨i, name, hi, rfl⟩
      exact ⟨i, hi⟩
  · rw [List.mem_map]
    constructor
    · rintro ⟨⟨⟨y, name⟩, i⟩, hmem, heq⟩
      rw [List.mem_zipIdx_iff_getElem?] at hmem
      cases heq
      exact ⟨i, name, hmem, rfl⟩
    · rintro ⟨i, name, hi, rfl⟩
      exact ⟨((x, name), i), List.mem_zipIdx_iff_getElem?.mpr hi, rfl⟩

theorem Groups.mem_names {named : List (SourceId × String)} {groups : NameGroups}
    (h : Groups named groups) {x : SourceId} {n : String} :
    (x, n) ∈ groups.names ↔ ∃ (i : Nat) (name : String),
      (nameGroup named (Text.foldCase name))[i]? = some (x, name) ∧
        n = placedName named name i := by
  rw [names, List.mem_flatMap]
  constructor
  · rintro ⟨g, hg, hn⟩
    rw [h.members g hg, mem_memberNames] at hn
    obtain ⟨i, name, hi, hn⟩ := hn
    have hkey : Text.foldCase name = g.1 := by
      simpa using (List.mem_filter.mp (List.mem_of_getElem? hi)).2
    refine ⟨i, name, ?_, ?_⟩
    · rwa [hkey]
    · rwa [placedName, hkey]
  · rintro ⟨i, name, hi, hn⟩
    obtain ⟨g, hg, hkey⟩ := List.mem_map.mp
      (h.known _ (List.mem_filter.mp (List.mem_of_getElem? hi)).1)
    refine ⟨g, hg, ?_⟩
    rw [h.members g hg, mem_memberNames, hkey]
    exact ⟨i, name, hi, hn⟩

end NameGroups

end RelQuery
