import Mathlib.Data.List.Induction
import RelQuery.Proofs.Query.Nesting

/-!
# Included associations

A run of calls leaves a query whose links are those of the associations that it included, with a
star for each at the end of the selection, as long as no selection is replaced after the first.
-/

set_option autoImplicit false

namespace RelQuery

open Arena

namespace Query

/-- The associations of a query after a further call. A count query has none of its own. -/
def includedAfter (as : List Association) : Call → List Association
  | .including a => as ++ [a]
  | .countQuery _ => []
  | _ => as

def included (calls : List Call) : List Association :=
  calls.foldl includedAfter []

/-- No selection is replaced once an association is included. -/
def SelectsFirst (calls : List Call) : Prop :=
  calls.Pairwise fun earlier later => ∀ (a : Association) (selection : List Item),
    earlier = .including a → later ≠ .select selection

/-- The sources and the end of the selection are those of the associations. -/
def Carries (q : Query) (as : List Association) : Prop :=
  ∃ (scope : Nat) (first : Source) (selection : List Item),
    q.sources = chain scope first (Association.linksAll scope as ⟨scope, 0⟩ 0 selection.length) ∧
      q.selection = selection ++
        Association.stars (Association.linksAll scope as ⟨scope, 0⟩ 0 selection.length)

theorem carries_ofSource (scope : Nat) (source : Source) : (ofSource scope source).Carries [] :=
  ⟨scope, source, [.star ⟨scope, 0⟩], rfl, rfl⟩

theorem linked_carried (scope n : Nat) (as : List Association) :
    Linked scope (Association.linksAll scope as ⟨scope, 0⟩ 0 n) :=
  Association.linked_linksAll as ⟨scope, 0⟩ n (linked_nil scope) (.inl rfl)

theorem countQueryIn_chain {q : Query} {scope : Nat} {first : Source} {links : List Link}
    (hq : q.sources = chain scope first links) (s : Nat) :
    ∃ (scope' : Nat) (first' : Source), (q.countQueryIn s).sources = chain scope' first' [] := by
  cases links with
  | nil =>
    rcases q.sources_countQueryIn s with hs | hs
    · exact ⟨scope, first, hs.trans hq⟩
    · exact ⟨s, _, hs⟩
  | cons l links =>
    -- the root is a join, so the count is over the query as a subquery
    have hroot : q.rootTable? = none := by
      have hlast : (l :: links)[links.length]? = some (l :: links)[links.length] :=
        List.getElem?_eq_getElem (by simp)
      have hroot : (chain scope first (l :: links)).root =
          some ⟨scope, 2 * (links.length + 1)⟩ := rfl
      rw [rootTable?, hq, hroot]
      simp only [node_join scope first hlast]
    have hs : (q.countQueryIn s).sources = chain s (.query q.unordered none) [] := by
      rw [countQueryIn, hroot]
      split <;> rfl
    exact ⟨s, _, hs⟩

theorem carries_after {q : Query} {as : List Association} (h : q.Carries as) {call : Call}
    (hc : ∀ selection, call = .select selection → as = []) :
    (q.after call).Carries (includedAfter as call) := by
  obtain ⟨scope, first, selection, hq, hsel⟩ := h
  have hl := linked_carried scope selection.length as
  cases call with
  | aliased aliasName =>
    have hafter := aliased_chain hq hl aliasName
    rw [after, hafter]
    exact ⟨scope, first.withAlias aliasName, selection, rfl, hsel⟩
  | select items =>
    have hnil : as = [] := hc items rfl
    subst hnil
    exact ⟨scope, first, items, hq, (List.append_nil items).symm⟩
  | including a =>
    have hlen : q.selection.length = selection.length + Association.sizeAll as := by
      rw [hsel, List.length_append, Association.stars, List.length_map,
        Association.length_linksAll]
    have hall : Association.linksAll scope (as ++ [a]) ⟨scope, 0⟩ 0 selection.length =
        Association.linksAll scope as ⟨scope, 0⟩ 0 selection.length ++
          a.links scope ⟨scope, 0⟩ (Association.sizeAll as) q.selection.length := by
      rw [Association.linksAll_append, hlen]
      simp [Association.linksAll]
    have hafter := including_chain hq hl a
    rw [Association.length_linksAll] at hafter
    refine ⟨scope, first, selection, ?_, ?_⟩
    · rw [after, hafter, includedAfter, hall]
      rfl
    · rw [after, hafter, includedAfter, hall]
      simp [Association.extend, Association.stars, hsel]
  | countQuery s =>
    obtain ⟨scope', first', hs⟩ := countQueryIn_chain hq s
    exact ⟨scope', first', (q.countQueryIn s).selection, hs, (List.append_nil _).symm⟩
  | _ => exact ⟨scope, first, selection, hq, hsel⟩

theorem included_concat (calls : List Call) (call : Call) :
    included (calls ++ [call]) = includedAfter (included calls) call := by
  rw [included, included, List.foldl_append]
  rfl

theorem included_eq_nil {calls : List Call} (h : ∀ a, .including a ∉ calls) :
    included calls = [] := by
  induction calls using List.reverseRecOn with
  | nil => rfl
  | append_singleton calls call ih =>
    have hnil : included calls = [] := ih fun a ha => h a (List.mem_append_left _ ha)
    rw [included_concat, hnil]
    cases call with
    | including a => exact absurd (List.mem_append_right _ List.mem_cons_self) (h a)
    | _ => rfl

theorem carries_afterAll {q : Query} (hq : q.Carries []) {calls : List Call}
    (h : SelectsFirst calls) : (q.afterAll calls).Carries (included calls) := by
  induction calls using List.reverseRecOn with
  | nil => exact hq
  | append_singleton calls call ih =>
    obtain ⟨hcalls, -, hlast⟩ := List.pairwise_append.mp h
    have hrun : q.afterAll (calls ++ [call]) = (q.afterAll calls).after call := by
      rw [afterAll, afterAll, List.foldl_append]
      rfl
    rw [hrun, included_concat]
    apply carries_after (ih hcalls)
    intro selection hcall
    apply included_eq_nil
    intro a ha
    exact hlast _ ha call List.mem_cons_self a selection rfl hcall

def ChainOf (R : Nat → List Association → List Link → Prop) (q : Query)
    (as : List Association) : Prop :=
  (∃ scope, q.sources = .empty scope) ∨
    ∃ (scope : Nat) (first : Source) (links : List Link), q.sources = chain scope first links ∧
      Linked scope links ∧ R scope as links

structure Extends (R : Nat → List Association → List Link → Prop) : Prop where
  nil : ∀ scope : Nat, R scope [] []
  attach : ∀ {scope : Nat} {as : List Association} {links : List Link}, R scope as links →
    ∀ (a : Association) (n : Nat),
      R scope (as ++ [a]) (links ++ a.links scope ⟨scope, 0⟩ links.length n)

section History

variable {R : Nat → List Association → List Link → Prop}

theorem chainOf_start (hR : Extends R) {q : Query} (h : Start q) : q.ChainOf R [] := by
  cases h with
  | new scope => exact .inl ⟨scope, rfl⟩
  | table scope name => exact .inr ⟨scope, _, [], rfl, linked_nil scope, hR.nil scope⟩
  | ofQuery scope r aliasName => exact .inr ⟨scope, _, [], rfl, linked_nil scope, hR.nil scope⟩

theorem chainOf_after (hR : Extends R) {q : Query} {as : List Association} (h : q.ChainOf R as)
    (call : Call) : (q.after call).ChainOf R (includedAfter as call) := by
  cases call with
  | aliased aliasName =>
    rcases h with ⟨scope, hq⟩ | ⟨scope, first, links, hq, hl, hr⟩
    · have hs : (q.after (.aliased aliasName)).sources = .empty scope := by
        rw [after, aliased, source?_empty hq, hq]
      exact .inl ⟨scope, hs⟩
    · have hs : (q.after (.aliased aliasName)).sources =
          chain scope (first.withAlias aliasName) links := by
        rw [after, aliased_chain hq hl]
      exact .inr ⟨scope, _, links, hs, hl, hr⟩
  | including a =>
    rcases h with ⟨scope, hq⟩ | ⟨scope, first, links, hq, hl, hr⟩
    · have hs : (q.after (.including a)).sources = .empty scope := by
        rw [after, including, source?_empty hq, hq]
      exact .inl ⟨scope, hs⟩
    · let added := a.links scope ⟨scope, 0⟩ links.length q.selection.length
      have hs : (q.after (.including a)).sources = chain scope first (links ++ added) := by
        rw [after, including_chain hq hl]
        rfl
      have hlinked : Linked scope (links ++ added) :=
        Association.linked_links a ⟨scope, 0⟩ q.selection.length hl (.inl rfl)
      exact .inr ⟨scope, first, _, hs, hlinked, hR.attach hr a q.selection.length⟩
  | countQuery scope =>
    rcases h with ⟨s, hq⟩ | ⟨s, first, links, hq, -, -⟩
    · rcases q.sources_countQueryIn scope with hs | hs
      · exact .inl ⟨s, hs.trans hq⟩
      · exact .inr ⟨scope, _, [], hs, linked_nil scope, hR.nil scope⟩
    · obtain ⟨scope', first', hs⟩ := countQueryIn_chain hq scope
      exact .inr ⟨scope', first', [], hs, linked_nil scope', hR.nil scope'⟩
  | _ => exact h

theorem chainOf_afterAll (hR : Extends R) {start : Query} (h : Start start) (calls : List Call) :
    (start.afterAll calls).ChainOf R (included calls) := by
  induction calls using List.reverseRecOn with
  | nil => exact chainOf_start hR h
  | append_singleton calls call ih =>
    have hrun : start.afterAll (calls ++ [call]) = (start.afterAll calls).after call := by
      rw [afterAll, afterAll, List.foldl_append]
      rfl
    rw [hrun, included_concat]
    exact chainOf_after hR ih call

end History

theorem Carries.source? {q : Query} {as : List Association} (h : q.Carries as) :
    ∃ origin, q.source? = some origin := by
  obtain ⟨scope, first, selection, hq, -⟩ := h
  exact ⟨⟨scope, 0⟩, source?_chain hq (linked_carried scope selection.length as)⟩

theorem Carries.stillSelects {q : Query} {as : List Association} (h : q.Carries as) {j : Join}
    (hj : j ∈ q.sources.joins) : q.stillSelects j = true := by
  obtain ⟨scope, first, selection, hq, hsel⟩ := h
  rw [hq, joins_chain] at hj
  obtain ⟨l, hl, rfl⟩ := List.mem_map.mp hj
  obtain ⟨i, hi⟩ := List.mem_iff_getElem?.mp hl
  have hindex := Association.selectionIndex_linksAll as ⟨scope, 0⟩ 0 selection.length i hi
  rw [Query.stillSelects, hsel, hindex, List.getElem?_append_right (by omega),
    Nat.add_sub_cancel_left, Association.stars, List.getElem?_map, hi]
  exact beq_self_eq_true l.join.target

/-- A join is that of an association: it has its key, and its target is the table. -/
def Attaches (q : Query) (a : Association) (j : Join) : Prop :=
  q.sources.node j.target = .ok (.leaf (.table a.table a.aliasName)) ∧
    j.foreignKey = a.foreignKey ∧ j.kind = a.kind

/-- Every carried association is at the end of joins with the names that lead to it. -/
theorem Carries.leads {q : Query} {as : List Association} (h : q.Carries as) {origin : SourceId}
    (ho : q.source? = some origin) {path : List String} {a : Association}
    (ha : Association.At as path a) :
    ∃ j, Join.Leads q.sources.joins origin path j ∧ q.Attaches a j := by
  obtain ⟨scope, first, selection, hq, -⟩ := h
  have hl := linked_carried scope selection.length as
  rw [source?_chain hq hl] at ho
  cases ho
  obtain ⟨o, i, m, hmem, hleads⟩ := ha.leads ⟨scope, 0⟩ 0 selection.length
  have hnode : q.sources.node (Association.link scope a o i m).join.target =
      .ok (.leaf (.table a.table a.aliasName)) := by
    obtain ⟨k, hk⟩ := List.mem_iff_getElem?.mp hmem
    rw [hq, hl.target k _ hk]
    exact node_table scope first hk scope
  rw [← joins_chain scope first, ← hq] at hleads
  exact ⟨_, hleads, hnode, rfl, rfl⟩

theorem Carries.joinsApart {q : Query} {as : List Association} (h : q.Carries as)
    (ha : Association.AllApart as) : JoinsApart q.sources.joins := by
  obtain ⟨scope, first, selection, hq, -⟩ := h
  rw [hq, joins_chain]
  exact Association.joinsApart_linksAll ha (.inl rfl) selection.length

end Query

end RelQuery
